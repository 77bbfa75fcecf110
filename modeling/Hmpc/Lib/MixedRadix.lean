/-
# Hmpc.Lib.MixedRadix -- positions in an array of several dimensions

The elements of an array with given extents stand in row-major order: `offset` is the position of
the element with some coordinates, and `coordinates` takes a position apart again. The two are
inverse to each other on coordinates below the extents and positions below their product.
-/
import Mathlib.Algebra.BigOperators.Group.List.Basic
import Mathlib.Tactic.Ring

namespace Hmpc.Lib.MixedRadix

/-- The position of the element with these coordinates. -/
def offset : List ℕ → List ℕ → ℕ
  | _ :: es, c :: cs => c * es.prod + offset es cs
  | _, _ => 0

/-- The coordinates of the element at this position. -/
def coordinates : List ℕ → ℕ → List ℕ
  | [], _ => []
  | e :: es, k => k / es.prod % e :: coordinates es k

/-- Each coordinate is below its extent. -/
abbrev InRange (es cs : List ℕ) : Prop := List.Forall₂ (fun c e => c < e) cs es

@[simp] theorem length_coordinates (es : List ℕ) (k : ℕ) :
    (coordinates es k).length = es.length := by
  induction es with
  | nil => rfl
  | cons e es ih => simp [coordinates, ih]

theorem offset_coordinates_mod (es : List ℕ) (k : ℕ) :
    offset es (coordinates es k) = k % es.prod := by
  induction es with
  | nil => simp [offset, Nat.mod_one]
  | cons e es ih =>
      rw [coordinates, offset, ih, List.prod_cons, Nat.mul_comm e, Nat.mod_mul]
      ring

theorem offset_coordinates {es : List ℕ} {k : ℕ} (hk : k < es.prod) :
    offset es (coordinates es k) = k := by
  rw [offset_coordinates_mod, Nat.mod_eq_of_lt hk]

theorem inRange_coordinates {es : List ℕ} (hpos : 0 < es.prod) (k : ℕ) :
    InRange es (coordinates es k) := by
  induction es with
  | nil => exact List.Forall₂.nil
  | cons e es ih =>
      rw [List.prod_cons] at hpos
      exact List.Forall₂.cons (Nat.mod_lt _ (Nat.pos_of_mul_pos_right hpos))
        (ih (Nat.pos_of_mul_pos_left hpos))

theorem offset_lt {es cs : List ℕ} (h : InRange es cs) : offset es cs < es.prod := by
  induction h with
  | nil => simp [offset]
  | cons hc _ ih =>
      rename_i c e cs es _
      have hle : (c + 1) * es.prod ≤ e * es.prod := Nat.mul_le_mul_right _ hc
      rw [Nat.add_one_mul] at hle
      rw [offset, List.prod_cons]
      omega

theorem coordinates_offset_add {es cs : List ℕ} (h : InRange es cs) (m : ℕ) :
    coordinates es (offset es cs + m * es.prod) = cs := by
  induction h generalizing m with
  | nil => rfl
  | cons hc hcs ih =>
      rename_i c e cs es
      have hlt := offset_lt hcs
      have hsum : offset (e :: es) (c :: cs) + m * (e :: es).prod =
          offset es cs + (c + m * e) * es.prod := by
        rw [offset, List.prod_cons]
        ring
      have hdiv : (offset es cs + (c + m * e) * es.prod) / es.prod = c + m * e := by
        rw [Nat.add_mul_div_right _ _ (by omega), Nat.div_eq_of_lt hlt, Nat.zero_add]
      rw [hsum, coordinates, ih, hdiv, Nat.add_mul_mod_self_right, Nat.mod_eq_of_lt hc]

theorem coordinates_offset {es cs : List ℕ} (h : InRange es cs) :
    coordinates es (offset es cs) = cs := by
  have := coordinates_offset_add h 0
  rwa [Nat.zero_mul, Nat.add_zero] at this

/-- Positions are in the order of the dictionary. -/
theorem offset_lt_offset_iff {es cs ds : List ℕ} (hc : InRange es cs) (hd : InRange es ds) :
    offset es cs < offset es ds ↔ cs < ds := by
  induction hc generalizing ds with
  | nil =>
      cases hd
      simp [offset]
  | cons _ hcs ih =>
      rename_i c e cs es _
      cases hd with
      | cons _ hds =>
          rename_i d ds _
          have hc := offset_lt hcs
          have hd := offset_lt hds
          rw [offset, offset, List.cons_lt_cons_iff, ← ih hds]
          rcases Nat.lt_trichotomy c d with h | rfl | h
          · have hle : (c + 1) * es.prod ≤ d * es.prod := Nat.mul_le_mul_right _ h
            rw [Nat.add_one_mul] at hle
            exact iff_of_true (by omega) (.inl h)
          · simp
          · have hle : (d + 1) * es.prod ≤ c * es.prod := Nat.mul_le_mul_right _ h
            rw [Nat.add_one_mul] at hle
            exact iff_of_false (by omega) (by omega)

end Hmpc.Lib.MixedRadix
