/-
# Hmpc.Mdsize -- shapes and indices of machine sizes

`Hmpc.Shape` and `Hmpc.Index` count without bounds. The source counts with sizes, which wrap, and
folds what is known when the program is compiled. Positions are those of the unbounded model modulo
the number of sizes. For shapes that have less elements than there are sizes both count the same
(`unbounded_of_lt`), and indices and positions determine each other for no others.
-/
import Hmpc.Core.LimbSpan
import Hmpc.Index
import Mathlib.Algebra.Order.BigOperators.GroupWithZero.List
import Mathlib.Data.BitVec

namespace Hmpc

open Hmpc.Core Hmpc.Lib.MixedRadix MaybeConstant

/-- `mdsize<Extents...>`: a dynamic extent has a value at run time, all others are constants. -/
abbrev Mdsize := List (MaybeConstant Size)

namespace Mdsize

def placeholderExtent : Size := 0

def dynamicExtent : Size := BitVec.allOnes 64

/-- `extent(i)`: what is known of an extent when the program is compiled. -/
def extent (e : MaybeConstant Size) : Size := if e.isConstant then e.value else dynamicExtent

/-- `shape::size` -/
def size (s : Mdsize) : Option (MaybeConstant Size) :=
  s.foldlM (fun accumulated e =>
    if e.isConstant then
      if e.value = placeholderExtent then some accumulated else some (multiply accumulated e)
    else if 0 < e.value then some (runtime (accumulated.value * e.value)) else none) (constant 1)

/-- The loop of `to_linear_index`; none where an assertion fails. -/
def toLinearIndexFrom : Mdsize → Mdsize → MaybeConstant Size → Option (MaybeConstant Size)
  | value :: index, e :: s, linear =>
      if extent e = placeholderExtent then toLinearIndexFrom index s linear
      else if value.value < e.value then
        toLinearIndexFrom index s (add (multiply linear e) value)
      else none
  | [], [], linear => some linear
  | _, _, _ => none

/-- `to_linear_index` -/
def toLinearIndex (index s : Mdsize) : Option (MaybeConstant Size) :=
  if s.length = 0 then some (constant 0) else toLinearIndexFrom index s (constant 0)

/-- The loop of `from_linear_index`, from the last dimension to the first. -/
def fromLinearIndexFrom (s : Mdsize) (size : Size) : Mdsize × Size :=
  s.foldr (fun e (index, size) =>
    if extent e = placeholderExtent then (constant placeholderExtent :: index, size)
    else (runtime (size % e.value) :: index, size / e.value)) ([], size)

/-- `from_linear_index` -/
def fromLinearIndex (k : Size) (s : Mdsize) : Option Mdsize := do
  let bound ← s.size
  if k < bound.value then some (fromLinearIndexFrom s k).1 else none

/-! ## The unbounded shape -/

/-- The extent of the unbounded model. -/
def toExtent (e : MaybeConstant Size) : Extent :=
  if e.isConstant then
    if e.value = placeholderExtent then .placeholder else .static e.value.toNat
  else .dynamic e.value.toNat

def toShape (s : Mdsize) : Shape := s.map toExtent

/-- The assertion on the extents that are only known at run time. -/
def Positive (s : Mdsize) : Prop := ∀ e ∈ s, e.isConstant = false → 0 < e.value

/-- The coordinates in the dimensions that are not placeholders. -/
def kept (s index : Mdsize) : List ℕ :=
  s.zipWith (fun e value => if extent e = placeholderExtent then 0 else value.value.toNat) index

/-- An index of the shape; everything is an index of a shape without dimensions. -/
def InRange (s index : Mdsize) : Prop :=
  s.length = 0 ∨
    List.Forall₂ (fun value e => extent e = placeholderExtent ∨ value.value < e.value) index s

theorem extent_eq_placeholder_iff (e : MaybeConstant Size) :
    extent e = placeholderExtent ↔ toExtent e = .placeholder := by
  unfold extent toExtent
  split_ifs <;> simp_all [dynamicExtent, placeholderExtent]

theorem placeholder_isConstant {e : MaybeConstant Size} (h : extent e = placeholderExtent) :
    e.isConstant = true ∧ e.value = placeholderExtent := by
  unfold extent at h
  split_ifs at h with hc
  · exact ⟨hc, h⟩
  · cases h

/-- An extent with coordinates of its own. -/
theorem count_eq {e : MaybeConstant Size} (h : extent e ≠ placeholderExtent) :
    (toExtent e).count = e.value.toNat := by
  rw [Ne, extent_eq_placeholder_iff] at h
  unfold toExtent at h ⊢
  split_ifs at h ⊢
  · exact absurd rfl h
  · rfl
  · rfl

theorem count_placeholder {e : MaybeConstant Size} (h : extent e = placeholderExtent) :
    (toExtent e).count = 1 := by
  rw [(extent_eq_placeholder_iff e).mp h]
  rfl

/-- All extents are positive. -/
theorem count_pos {e : MaybeConstant Size} (h : e.isConstant = false → 0 < e.value) :
    0 < (toExtent e).count := by
  by_cases hp : extent e = placeholderExtent
  · rw [count_placeholder hp]
    exact Nat.one_pos
  · rw [count_eq hp]
    cases hc : e.isConstant with
    | false => exact h hc
    | true =>
        rw [extent, if_pos hc] at hp
        exact Nat.pos_of_ne_zero fun hzero => hp (BitVec.eq_of_toNat_eq hzero)

/-! ## What the loops compute -/

theorem kept_cons (e value : MaybeConstant Size) (s index : Mdsize) :
    kept (e :: s) (value :: index) =
      (if extent e = placeholderExtent then 0 else value.value.toNat) :: kept s index := rfl

theorem counts_cons (e : MaybeConstant Size) (s : Mdsize) :
    (toShape (e :: s)).counts = (toExtent e).count :: s.toShape.counts := rfl

/-- The number of elements, as far as a size can hold it. -/
theorem size_eq {s : Mdsize} (h : s.Positive) :
    ∃ m, s.size = some m ∧ m.value = BitVec.ofNat 64 s.toShape.counts.prod := by
  have hfold (s : Mdsize) (h : s.Positive) (a : MaybeConstant Size) : ∃ m,
      s.foldlM (fun accumulated e =>
        if e.isConstant then
          if e.value = placeholderExtent then some accumulated else some (multiply accumulated e)
        else if 0 < e.value then some (runtime (accumulated.value * e.value)) else none) a =
          some m ∧ m.value = a.value * BitVec.ofNat 64 s.toShape.counts.prod := by
    induction s generalizing a with
    | nil => exact ⟨a, rfl, (mul_one a.value).symm⟩
    | cons e s ih =>
        have htail : Positive s := fun e he => h e (List.mem_cons_of_mem _ he)
        have hhead : e.isConstant = false → 0 < e.value := h e List.mem_cons_self
        rw [List.foldlM_cons, counts_cons, List.prod_cons, BitVec.ofNat_mul, ← mul_assoc]
        -- placeholders are skipped, which is the factor one
        by_cases hp : extent e = placeholderExtent
        · rw [count_placeholder hp]
          obtain ⟨m, hm, hvalue⟩ := ih htail a
          refine ⟨m, ?_, hvalue.trans (by simp)⟩
          obtain ⟨hc, hzero⟩ := placeholder_isConstant hp
          rw [if_pos hc, if_pos hzero]
          exact hm
        · rw [count_eq hp, BitVec.ofNat_toNat, BitVec.setWidth_eq]
          cases hc : e.isConstant with
          | true =>
              rw [extent, if_pos hc] at hp
              obtain ⟨m, hm, hvalue⟩ := ih htail (multiply a e)
              refine ⟨m, ?_, hvalue.trans (by rw [value_multiply])⟩
              rw [if_pos rfl, if_neg hp]
              exact hm
          | false =>
              obtain ⟨m, hm, hvalue⟩ := ih htail (runtime (a.value * e.value))
              refine ⟨m, ?_, hvalue⟩
              rw [if_neg Bool.false_ne_true, if_pos (hhead hc)]
              exact hm
  obtain ⟨m, hm, hvalue⟩ := hfold s h (constant 1)
  exact ⟨m, hm, hvalue.trans (one_mul _)⟩

theorem inRange_kept {s index : Mdsize} (h : s.InRange index) :
    Lib.MixedRadix.InRange s.toShape.counts (s.kept index) := by
  rcases h with h | h
  · rw [List.eq_nil_of_length_eq_zero h]
    exact List.Forall₂.nil
  · induction h with
    | nil => exact List.Forall₂.nil
    | cons hvalue _ ih =>
        refine List.Forall₂.cons ?_ ih
        dsimp only
        split_ifs with hp
        · rw [count_placeholder hp]
          exact Nat.one_pos
        · rw [count_eq hp]
          exact hvalue.resolve_left hp

/-- The position of the unbounded model, as far as a size can hold it. -/
theorem toLinearIndex_eq {s index : Mdsize} (h : s.InRange index) :
    ∃ l, toLinearIndex index s = some l ∧
      l.value = BitVec.ofNat 64 (offset s.toShape.counts (s.kept index)) := by
  have hloop (s index : Mdsize) (h : List.Forall₂ (fun value e =>
      extent e = placeholderExtent ∨ value.value < e.value) index s) (a : MaybeConstant Size) :
      ∃ l, toLinearIndexFrom index s a = some l ∧ l.value =
        a.value * BitVec.ofNat 64 s.toShape.counts.prod +
          BitVec.ofNat 64 (offset s.toShape.counts (s.kept index)) := by
    induction h generalizing a with
    | nil => exact ⟨a, rfl, by simp [toShape, Shape.counts, offset]⟩
    | cons hvalue _ ih =>
        rename_i value e index s _
        rw [counts_cons, List.prod_cons]
        -- a placeholder keeps the position, whatever its coordinate is
        by_cases hp : extent e = placeholderExtent
        · obtain ⟨l, hl, hl'⟩ := ih a
          refine ⟨l, by rw [toLinearIndexFrom, if_pos hp, hl], hl'.trans ?_⟩
          rw [count_placeholder hp, Nat.one_mul, kept_cons, if_pos hp, offset, Nat.zero_mul,
            Nat.zero_add]
        · obtain ⟨l, hl, hl'⟩ := ih (add (multiply a e) value)
          refine ⟨l, ?_, hl'.trans ?_⟩
          · rw [toLinearIndexFrom, if_neg hp, if_pos (hvalue.resolve_left hp), hl]
          · rw [count_eq hp, kept_cons, if_neg hp, offset, value_add, value_multiply,
              BitVec.ofNat_add, BitVec.ofNat_mul, BitVec.ofNat_mul, BitVec.ofNat_toNat,
              BitVec.setWidth_eq, BitVec.ofNat_toNat, BitVec.setWidth_eq]
            ring
  unfold toLinearIndex
  split_ifs with hzero
  · rw [List.eq_nil_of_length_eq_zero hzero]
    exact ⟨_, rfl, rfl⟩
  · obtain ⟨l, hl, hl'⟩ := hloop s index (h.resolve_left hzero) (constant 0)
    exact ⟨l, hl, hl'.trans (by simp)⟩

/-- Quotients and remainders do not wrap. -/
theorem fromLinearIndexFrom_eq {s : Mdsize} (h : s.Positive) (k : Size) :
    s.InRange (fromLinearIndexFrom s k).1 ∧
      s.kept (fromLinearIndexFrom s k).1 = coordinates s.toShape.counts k.toNat := by
  -- from the last dimension on, each divides what the later ones leave
  have hloop (s : Mdsize) (h : s.Positive) : List.Forall₂ (fun value e =>
      extent e = placeholderExtent ∨ value.value < e.value) (fromLinearIndexFrom s k).1 s ∧
      s.kept (fromLinearIndexFrom s k).1 = coordinates s.toShape.counts k.toNat ∧
      (fromLinearIndexFrom s k).2.toNat = k.toNat / s.toShape.counts.prod := by
    induction s with
    | nil => exact ⟨List.Forall₂.nil, rfl, (Nat.div_one _).symm⟩
    | cons e s ih =>
        obtain ⟨hrange, hkept, hquotient⟩ := ih fun e he => h e (List.mem_cons_of_mem _ he)
        have hpos := count_pos (h e List.mem_cons_self)
        have hcons : fromLinearIndexFrom (e :: s) k =
            if extent e = placeholderExtent then
              (constant placeholderExtent :: (fromLinearIndexFrom s k).1,
                (fromLinearIndexFrom s k).2)
            else (runtime ((fromLinearIndexFrom s k).2 % e.value) :: (fromLinearIndexFrom s k).1,
              (fromLinearIndexFrom s k).2 / e.value) := rfl
        rw [hcons, counts_cons, List.prod_cons, coordinates]
        split_ifs with hp
        · refine ⟨List.Forall₂.cons (.inl hp) hrange, ?_, ?_⟩
          · rw [kept_cons, if_pos hp, count_placeholder hp, Nat.mod_one, hkept]
          · rw [count_placeholder hp, Nat.one_mul, hquotient]
        · rw [count_eq hp] at hpos ⊢
          refine ⟨List.Forall₂.cons (.inr ?_) hrange, ?_, ?_⟩
          · rw [value_runtime, BitVec.lt_def, BitVec.toNat_umod]
            exact Nat.mod_lt _ hpos
          · rw [kept_cons, if_neg hp, value_runtime, BitVec.toNat_umod, hquotient, hkept]
          · rw [BitVec.toNat_udiv, hquotient, Nat.div_div_eq_div_mul, Nat.mul_comm]
  obtain ⟨hrange, hkept, -⟩ := hloop s h
  exact ⟨.inr hrange, hkept⟩

/-! ## The unbounded model below the number of sizes -/

/-- The index of the unbounded model. -/
def toIndex (s index : Mdsize) : Index :=
  s.zipWith (fun e value => if extent e = placeholderExtent then none else some value.value.toNat)
    index

theorem toIndex_eq (s index : Mdsize) : s.toIndex index = mask s.toShape (s.kept index) := by
  induction s generalizing index with
  | nil => rfl
  | cons e s ih =>
      cases index with
      | nil => rfl
      | cons value index =>
          refine congrArg₂ List.cons ?_ (ih index)
          simp only [extent_eq_placeholder_iff]
          split_ifs <;> rfl

theorem project_kept (s index : Mdsize) : project s.toShape (s.kept index) = s.kept index := by
  induction s generalizing index with
  | nil => rfl
  | cons e s ih =>
      cases index with
      | nil => rfl
      | cons value index =>
          refine congrArg₂ List.cons ?_ (ih index)
          simp only [extent_eq_placeholder_iff]
          split_ifs <;> rfl

/-- What is counted of a shape is what the unbounded model counts. -/
structure Unbounded (s : Mdsize) : Prop where
  size : ∃ m, s.size = some m ∧ m.value.toNat = s.toShape.size
  position : ∀ index, s.InRange index → ∃ l, toLinearIndex index s = some l ∧
    Hmpc.toLinearIndex (s.toIndex index) s.toShape = some l.value.toNat
  index : ∀ k : Size, k.toNat < s.toShape.size → ∃ index, fromLinearIndex k s = some index ∧
    s.toIndex index = Hmpc.fromLinearIndex k.toNat s.toShape

/-- Nothing wraps in a shape that the sizes can count. -/
theorem unbounded_of_lt {s : Mdsize} (h : s.Positive) (hlt : s.toShape.size < 2 ^ 64) :
    s.Unbounded := by
  obtain ⟨m, hm, hvalue⟩ := size_eq h
  have hbound : m.value.toNat = s.toShape.size := by
    rw [hvalue, BitVec.toNat_ofNat, ← Shape.size_eq, Nat.mod_eq_of_lt hlt]
  refine ⟨⟨m, hm, hbound⟩, ?_, ?_⟩
  · intro index hindex
    obtain ⟨l, hl, hoffset⟩ := toLinearIndex_eq hindex
    have hrange := inRange_kept hindex
    have hlt' := (offset_lt hrange).trans_eq (Shape.size_eq _).symm
    refine ⟨l, hl, ?_⟩
    rw [toIndex_eq, toLinearIndex_mask (Shape.Extends.refl _) hrange,
      project_kept, hoffset, BitVec.toNat_ofNat, Nat.mod_eq_of_lt (hlt'.trans hlt)]
  · intro k hk
    refine ⟨(fromLinearIndexFrom s k).1, ?_, ?_⟩
    · unfold fromLinearIndex
      rw [hm, Option.bind_eq_bind, Option.bind_some, if_pos (BitVec.lt_def.mpr (hbound ▸ hk))]
    · rw [toIndex_eq, (fromLinearIndexFrom_eq h k).2, Hmpc.fromLinearIndex_eq]

/-! ## Indices and positions -/

/-- Positions below `m` and indices determine each other, in the order of the dictionary and
without regard to the placeholders. -/
structure Addresses (s : Mdsize) (m : Size) : Prop where
  to_from : ∀ k < m, ∃ index l, fromLinearIndex k s = some index ∧ s.InRange index ∧
    toLinearIndex index s = some l ∧ l.value = k
  from_to : ∀ index, s.InRange index → ∃ l index', toLinearIndex index s = some l ∧ l.value < m ∧
    fromLinearIndex l.value s = some index' ∧ s.kept index' = s.kept index
  ordered : ∀ index index' l l', s.InRange index → s.InRange index' →
    toLinearIndex index s = some l → toLinearIndex index' s = some l' →
    (l.value < l'.value ↔ s.kept index < s.kept index')
  broadcast : ∀ index index' l l', s.InRange index → s.InRange index' →
    toLinearIndex index s = some l → toLinearIndex index' s = some l' →
    s.kept index = s.kept index' → l.value = l'.value

variable {s : Mdsize}

/-- A shape that the sizes can count. -/
theorem addresses_of_lt (h : s.Positive) (hlt : s.toShape.size < 2 ^ 64) :
    ∃ m, s.size = some m ∧ Addresses s m.value := by
  rw [Shape.size_eq] at hlt
  obtain ⟨m, hm, hvalue⟩ := size_eq h
  have hbound : m.value.toNat = s.toShape.counts.prod := by
    rw [hvalue, BitVec.toNat_ofNat, Nat.mod_eq_of_lt hlt]
  have hposition {index : Mdsize} {l : MaybeConstant Size} (hindex : s.InRange index)
      (hl : toLinearIndex index s = some l) :
      l.value.toNat = offset s.toShape.counts (s.kept index) := by
    obtain ⟨l', hl', hoffset⟩ := toLinearIndex_eq hindex
    rw [hl, Option.some.injEq] at hl'
    rw [hl', hoffset, BitVec.toNat_ofNat,
      Nat.mod_eq_of_lt ((offset_lt (inRange_kept hindex)).trans hlt)]
  have hfrom {k : Size} (hk : k < m.value) :
      fromLinearIndex k s = some (fromLinearIndexFrom s k).1 := by
    unfold fromLinearIndex
    rw [hm, Option.bind_eq_bind, Option.bind_some, if_pos hk]
  -- back and forth from both sides, in the order of the coordinates, and injective
  refine ⟨m, hm, ?_, ?_, ?_, ?_⟩
  · intro k hk
    obtain ⟨hindex, hkept⟩ := fromLinearIndexFrom_eq h k
    obtain ⟨l, hl, -⟩ := toLinearIndex_eq hindex
    refine ⟨_, l, hfrom hk, hindex, hl, BitVec.eq_of_toNat_eq ?_⟩
    rw [BitVec.lt_def, hbound] at hk
    rw [hposition hindex hl, hkept, offset_coordinates hk]
  · intro index hindex
    obtain ⟨l, hl, -⟩ := toLinearIndex_eq hindex
    have hl' := hposition hindex hl
    have hlt' : l.value < m.value := by
      rw [BitVec.lt_def, hl', hbound]
      exact offset_lt (inRange_kept hindex)
    refine ⟨l, _, hl, hlt', hfrom hlt', ?_⟩
    rw [(fromLinearIndexFrom_eq h l.value).2, hl', coordinates_offset (inRange_kept hindex)]
  · intro index index' l l' hindex hindex' hl hl'
    rw [BitVec.lt_def, hposition hindex hl, hposition hindex' hl']
    exact offset_lt_offset_iff (inRange_kept hindex) (inRange_kept hindex')
  · intro index index' l l' hindex hindex' hl hl' hkept
    apply BitVec.eq_of_toNat_eq
    rw [hposition hindex hl, hposition hindex' hl', hkept]

/-- A shape that they cannot count: its size wraps to a position that its indices reach. -/
theorem not_addresses_of_le (h : s.Positive) (hle : 2 ^ 64 ≤ s.toShape.size) (m : Size) :
    ¬Addresses s m := by
  rw [Shape.size_eq] at hle
  intro haddresses
  obtain ⟨hindex, hkept⟩ := fromLinearIndexFrom_eq h m
  obtain ⟨l, hl, hoffset⟩ := toLinearIndex_eq hindex
  obtain ⟨l', -, hl', hlt, -⟩ := haddresses.from_to _ hindex
  rw [hl, Option.some.injEq] at hl'
  have hm' : m.toNat < s.toShape.counts.prod := m.isLt.trans_le hle
  rw [← hl', hoffset, hkept, offset_coordinates hm', BitVec.ofNat_toNat, BitVec.setWidth_eq] at hlt
  exact absurd hlt (BitVec.lt_irrefl m)

/-- **Linear and multidimensional indices.** They determine each other for the shapes that have
less elements than there are sizes, and for no others. -/
theorem linearIndexBijection (h : s.Positive) :
    (∃ m, s.size = some m ∧ Addresses s m.value) ↔ s.toShape.size < 2 ^ 64 := by
  constructor
  · rintro ⟨m, -, haddresses⟩
    by_contra hlt
    exact not_addresses_of_le h (Nat.le_of_not_lt hlt) _ haddresses
  · exact addresses_of_lt h

/-- Ten rows of eleven elements, of which the second dimension is a placeholder. -/
theorem linearIndexBijection_rows :
    ∃ m, size [runtime 10, constant 0, constant 11] = some m ∧
      Addresses [runtime 10, constant 0, constant 11] m.value :=
  (linearIndexBijection (by unfold Positive; decide)).mpr (by decide)

/-- The size of a square with sides of half the bits of a size is zero. -/
theorem not_addresses_square :
    size [constant (2 ^ 32), constant (2 ^ 32)] = some (constant 0) ∧
      toLinearIndex [constant 0, constant 0] [constant (2 ^ 32), constant (2 ^ 32)] =
        some (constant 0) ∧
      ¬∃ m, size [constant (2 ^ 32), constant (2 ^ 32)] = some m ∧
        Addresses [constant (2 ^ 32), constant (2 ^ 32)] m.value := by
  refine ⟨rfl, rfl, ?_⟩
  rintro ⟨m, -, haddresses⟩
  exact not_addresses_of_le (by unfold Positive; decide) (by decide) _ haddresses

end Mdsize

end Hmpc
