/-
# Hmpc.Shape -- shapes of tensors, and how two of them broadcast

An extent is known when the program is compiled, or only at run time, or is a placeholder: a
placeholder has one coordinate that nothing depends on, and stands back behind any other extent.
What the source checks, when it is compiled or when it runs, has no result here where it fails.
Sizes have no bound here; `Mdsize.unbounded_of_lt` says for which shapes the source counts the same.
-/
import Hmpc.Lib.MixedRadix

namespace Hmpc

/-- An extent; a dynamic one together with its value at run time. -/
inductive Extent
  | static (value : ℕ)
  | dynamic (value : ℕ)
  | placeholder
  deriving DecidableEq

namespace Extent

/-- How many coordinates there are. -/
def count : Extent → ℕ
  | static value => value
  | dynamic value => value
  | placeholder => 1

/-- The two extents are one template argument. -/
def sameType : Extent → Extent → Bool
  | static a, static b => a == b
  | dynamic _, dynamic _ => true
  | placeholder, placeholder => true
  | _, _ => false

end Extent

/-- `shape` -/
abbrev Shape := List Extent

namespace Shape

/-- How many coordinates there are in each dimension. -/
def counts (s : Shape) : List ℕ := s.map Extent.count

/-- `size` -/
def size (s : Shape) : ℕ :=
  s.foldl (fun accumulated extent =>
    if extent = Extent.placeholder then accumulated else accumulated * extent.count) 1

theorem size_eq (s : Shape) : s.size = s.counts.prod := by
  have hfold (l : Shape) (a : ℕ) : l.foldl (fun accumulated extent =>
      if extent = Extent.placeholder then accumulated else accumulated * extent.count) a =
      a * l.counts.prod := by
    induction l generalizing a with
    | nil => simp [counts]
    | cons extent l ih =>
        rw [List.foldl_cons, ih, counts, counts, List.map_cons, List.prod_cons]
        split
        · rename_i h
          rw [h, Extent.count, Nat.one_mul]
        · rw [Nat.mul_assoc]
  have h := hfold s 1
  rwa [Nat.one_mul] at h

/-- The two shapes are one type. -/
def sameType (s t : Shape) : Bool :=
  s.length == t.length && (s.zip t).all fun (a, b) => a.sameType b

end Shape

/-- `common_extent` -/
def commonExtent : Extent → Extent → Option Extent
  | .placeholder, right => some right
  | left, .placeholder => some left
  | .static left, .static right => if left = right then some (.static left) else none
  | .dynamic left, .dynamic right => if left = right then some (.dynamic left) else none
  | _, _ => none

/-- `common_extent` in each dimension. -/
def commonExtents : Shape → Shape → Option Shape
  | [], [] => some []
  | left :: lefts, right :: rights => do
      let extent ← commonExtent left right
      let extents ← commonExtents lefts rights
      return extent :: extents
  | _, _ => none

/-- `common_shape` -/
def commonShape (left right : Shape) : Option Shape :=
  if left.length = 0 then some right
  else if right.length = 0 then some left
  else commonExtents left right

/-- `value`: a scalar type, and how many scalars a value has; none counted is a scalar itself. -/
structure ValueType where
  scalar : ℕ
  vectorSize : ℕ
  deriving DecidableEq

/-- `element_shape` -/
def Shape.elementShape (vectorSize : ℕ) (s : Shape) : Shape :=
  if vectorSize = 0 then s else s ++ [.static vectorSize]

/-- The dimension that a dimension counted from the end or from the front means, among `rank`. -/
def dimension (rank : ℕ) (dim : ℤ) : Option ℕ :=
  if dim < 0 then
    if -dim ≤ rank then some (rank + dim).toNat else none
  else if dim < rank then some dim.toNat else none

/-- `unsqueeze(shape, dim)` -/
def Shape.unsqueeze (s : Shape) (dim : ℤ) : Option Shape := do
  let pos ← dimension (s.length + 1) dim
  return s.take pos ++ [.placeholder] ++ s.drop pos

theorem dimension_lt {rank : ℕ} {dim : ℤ} {pos : ℕ} (h : dimension rank dim = some pos) :
    pos < rank := by
  unfold dimension at h
  split_ifs at h <;> injection h <;> omega

/-! ## What a common extent is -/

/-- The first extent is a placeholder, or it is the second one. -/
def Extent.Extends (child parent : Extent) : Prop := child = .placeholder ∨ child = parent

theorem commonExtent_extends {left right extent : Extent}
    (h : commonExtent left right = some extent) :
    left.Extends extent ∧ right.Extends extent := by
  cases left <;> cases right <;> simp [commonExtent, Extent.Extends] at h ⊢ <;> grind

/-- Extents of a part, placeholders where the whole extends them. -/
def Shape.Extends (child parent : Shape) : Prop := List.Forall₂ Extent.Extends child parent

theorem commonExtents_extends : ∀ {left right shape : Shape},
    commonExtents left right = some shape → left.Extends shape ∧ right.Extends shape
  | [], [], shape, h => by
      injection h with h
      subst h
      exact ⟨List.Forall₂.nil, List.Forall₂.nil⟩
  | left :: lefts, right :: rights, shape, h => by
      obtain ⟨extent, hextent, h⟩ := Option.bind_eq_some_iff.mp h
      obtain ⟨extents, hextents, h⟩ := Option.bind_eq_some_iff.mp h
      injection h with h
      subst h
      obtain ⟨hl, hr⟩ := commonExtent_extends hextent
      obtain ⟨hls, hrs⟩ := commonExtents_extends hextents
      exact ⟨List.Forall₂.cons hl hls, List.Forall₂.cons hr hrs⟩
  | [], _ :: _, _, h => by cases h
  | _ :: _, [], _, h => by cases h

theorem commonExtent_comm (left right : Extent) :
    commonExtent left right = commonExtent right left := by
  cases left <;> cases right <;> simp only [commonExtent] <;> grind

theorem commonExtents_comm (left right : Shape) :
    commonExtents left right = commonExtents right left := by
  induction left generalizing right with
  | nil => cases right <;> rfl
  | cons extent left ih =>
      cases right with
      | nil => rfl
      | cons other right => rw [commonExtents, commonExtents, commonExtent_comm, ih]

/-- Operands of one positive rank have a common extent in each dimension. -/
theorem commonExtents_of_rank {own other shape : Shape} (hne : own ≠ [])
    (hlength : own.length = other.length)
    (h : commonShape own other = some shape ∨ commonShape other own = some shape) :
    commonExtents own other = some shape := by
  have hrank : own.length ≠ 0 := fun hzero => hne (List.eq_nil_of_length_eq_zero hzero)
  rcases h with h | h
  · rwa [commonShape, if_neg hrank, if_neg (hlength ▸ hrank)] at h
  · rwa [commonShape, if_neg (hlength ▸ hrank), if_neg hrank, commonExtents_comm] at h

theorem Shape.Extends.refl (s : Shape) : s.Extends s := by
  induction s with
  | nil => exact List.Forall₂.nil
  | cons extent s ih => exact List.Forall₂.cons (Or.inr rfl) ih

theorem Shape.Extends.trans {s t u : Shape} (hst : s.Extends t) (htu : t.Extends u) :
    s.Extends u := by
  induction hst generalizing u with
  | nil => exact htu
  | cons hextent _ ih =>
      cases htu with
      | cons hextent' htu =>
          refine List.Forall₂.cons ?_ (ih htu)
          rcases hextent with rfl | rfl
          · exact Or.inl rfl
          · exact hextent'

theorem Shape.Extends.elementShape {s t : Shape} (h : s.Extends t) (vectorSize : ℕ) :
    (s.elementShape vectorSize).Extends (t.elementShape vectorSize) := by
  unfold Shape.elementShape
  split
  · exact h
  · exact List.rel_append h (Shape.Extends.refl _)

theorem length_elementShape (s : Shape) (vectorSize : ℕ) :
    (s.elementShape vectorSize).length = s.length + if vectorSize = 0 then 0 else 1 := by
  unfold Shape.elementShape
  split <;> simp

/-- The dimension that is new. -/
theorem unsqueeze_eq {s t : Shape} {dim : ℤ} (h : s.unsqueeze dim = some t) :
    ∃ pos, dimension (s.length + 1) dim = some pos ∧ t.length = s.length + 1 ∧
      ∀ vectorSize, (t.elementShape vectorSize).eraseIdx pos = s.elementShape vectorSize := by
  obtain ⟨pos, hpos, h⟩ := Option.bind_eq_some_iff.mp h
  injection h with h
  have hlt := dimension_lt hpos
  have hlength : (s.take pos).length = pos := by
    rw [List.length_take]
    omega
  have herase (rest : Shape) : (t ++ rest).eraseIdx pos = s ++ rest := by
    rw [← h, List.append_assoc, List.append_assoc,
      List.eraseIdx_append_of_length_le (by omega), hlength, Nat.sub_self, List.singleton_append,
      List.eraseIdx_cons_zero, ← List.append_assoc, List.take_append_drop]
  refine ⟨pos, hpos, ?_, ?_⟩
  · rw [← h]
    simp only [List.length_append, List.length_drop, List.length_singleton, hlength]
    omega
  · intro vectorSize
    unfold Shape.elementShape
    split
    · have hnil := herase []
      rwa [List.append_nil, List.append_nil] at hnil
    · exact herase _

theorem Extent.eq_of_extends {child parent : Extent} (h : child.Extends parent)
    (htype : parent.sameType child = true) : child = parent := by
  rcases h with rfl | rfl
  · cases parent
    · cases htype
    · cases htype
    · rfl
  · rfl

/-- A part of the same type is extended nowhere. -/
theorem Shape.Extends.eq_of_sameType {s t : Shape} (h : s.Extends t)
    (htype : t.sameType s = true) : s = t := by
  induction h with
  | nil => rfl
  | cons hextent _ ih =>
      simp only [Shape.sameType, List.length_cons, List.zip_cons_cons, List.all_cons,
        Bool.and_eq_true, beq_iff_eq, Nat.add_right_cancel_iff] at htype ih
      obtain ⟨hlength, hhead, htail⟩ := htype
      rw [Extent.eq_of_extends hextent hhead, ih ⟨hlength, htail⟩]

theorem Shape.length_eq_of_sameType {s t : Shape} (h : s.sameType t = true) :
    s.length = t.length := by
  simp only [Shape.sameType, Bool.and_eq_true, beq_iff_eq] at h
  exact h.1

end Hmpc
