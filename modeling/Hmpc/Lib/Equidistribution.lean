/-
# Hmpc.Lib.Equidistribution -- how far a function of a uniform number is from uniform

A number below `M` is drawn and mapped to one of finitely many values. If the numbers are spread
over the values as evenly as they can be, `Balanced`, then as many values as the division of `M`
leaves get one number more than the others, and that is all the distance to the uniform
distribution: `distance_balanced`. Reduction modulo `N` is balanced, and so is whatever permutes
the values afterwards.
-/
import Mathlib.Algebra.BigOperators.Field
import Mathlib.Algebra.Order.BigOperators.Group.Finset
import Mathlib.Algebra.Order.Floor.Div
import Mathlib.Data.Int.CardIntervalMod
import Mathlib.Data.ZMod.Basic
import Mathlib.Tactic.FieldSimp
import Mathlib.Tactic.Linarith
import Mathlib.Tactic.Positivity

namespace Hmpc.Lib.Equidistribution

variable {α β : Type*} [DecidableEq α] [DecidableEq β] {M : ℕ} {f : ℕ → α}

/-- How many numbers below `M` are mapped to a value. -/
def frequency (M : ℕ) (f : ℕ → α) (a : α) : ℕ := M.count fun v => f v = a

theorem frequency_congr {g : ℕ → α} (h : ∀ v < M, f v = g v) (a : α) :
    frequency M f a = frequency M g a := by
  unfold frequency
  rw [Nat.count_eq_card_filter_range, Nat.count_eq_card_filter_range]
  congr 1
  refine Finset.filter_congr fun v hv => ?_
  rw [h v (Finset.mem_range.mp hv)]

theorem frequency_map (e : α ≃ β) (a : α) :
    frequency M (fun v => e (f v)) (e a) = frequency M f a := by
  unfold frequency
  congr 1
  simp only [EmbeddingLike.apply_eq_iff_eq]

section

variable [Fintype α]

/-- Every number is mapped to one value. -/
theorem sum_frequency (M : ℕ) (f : ℕ → α) : ∑ a, frequency M f a = M := by
  simp only [frequency, Nat.count_eq_card_filter_range]
  rw [← Finset.card_eq_sum_card_fiberwise fun v _ => Finset.mem_univ (f v), Finset.card_range]

/-- The statistical distance of two distributions. -/
def distance (p q : α → ℚ) : ℚ := (∑ a, |p a - q a|) / 2

/-- The distribution of the value of a number below `M`. -/
def distribution (M : ℕ) (f : ℕ → α) (a : α) : ℚ := frequency M f a / M

def uniform (α : Type*) [Fintype α] (_ : α) : ℚ := 1 / Fintype.card α

/-- The frequencies of two values differ by at most one. -/
def Balanced (M : ℕ) (f : ℕ → α) : Prop := ∀ a,
  frequency M f a = M / Fintype.card α ∨ frequency M f a = M / Fintype.card α + 1

theorem Balanced.map [Fintype β] (h : Balanced M f) (e : α ≃ β) :
    Balanced M fun v => e (f v) := by
  intro b
  obtain ⟨a, rfl⟩ := e.surjective b
  rw [frequency_map, ← Fintype.card_congr e]
  exact h a

/-- The values that get one number more. -/
def surplus (M : ℕ) (f : ℕ → α) : Finset α :=
  {a | frequency M f a = M / Fintype.card α + 1}

theorem mem_surplus {a : α} :
    a ∈ surplus M f ↔ frequency M f a = M / Fintype.card α + 1 := by
  simp [surplus]

theorem Balanced.frequency_eq (h : Balanced M f) (a : α) : frequency M f a =
    M / Fintype.card α + if a ∈ surplus M f then 1 else 0 := by
  simp only [mem_surplus]
  obtain hfloor | hceil := h a
  · rw [if_neg (by omega), hfloor, Nat.add_zero]
  · rw [if_pos hceil, hceil]

/-- There are as many as the division leaves. -/
theorem Balanced.card_surplus (h : Balanced M f) :
    (surplus M f).card = M % Fintype.card α := by
  have hsum : Fintype.card α * (M / Fintype.card α) + (surplus M f).card = M := by
    have htotal := sum_frequency M f
    simp only [h.frequency_eq, Finset.sum_add_distrib, Finset.sum_const, smul_eq_mul,
      Finset.card_univ, Finset.sum_ite_mem, Finset.univ_inter, mul_one] at htotal
    exact htotal
  have hmod := Nat.div_add_mod M (Fintype.card α)
  omega

variable [Nonempty α]

theorem Balanced.floor_or_ceil (h : Balanced M f) (a : α) :
    frequency M f a = M / Fintype.card α ∨ frequency M f a = M ⌈/⌉ Fintype.card α := by
  have hpos : 0 < Fintype.card α := Fintype.card_pos
  refine (h a).imp_right fun hmore => ?_
  -- some value gets one number more, so that the division leaves something
  have hleft : 0 < M % Fintype.card α := by
    rw [← h.card_surplus, Finset.card_pos]
    exact ⟨a, mem_surplus.mpr hmore⟩
  have hlt := Nat.mod_lt M hpos
  have hnumber : M + Fintype.card α - 1 =
      M % Fintype.card α - 1 + Fintype.card α * (M / Fintype.card α + 1) := by
    have hmod := Nat.div_add_mod M (Fintype.card α)
    rw [Nat.mul_succ]
    omega
  rw [hmore, Nat.ceilDiv_eq_add_pred_div, hnumber, Nat.add_mul_div_left _ _ hpos,
    Nat.div_eq_of_lt (show M % Fintype.card α - 1 < Fintype.card α by omega), Nat.zero_add]

/-- How far one value is from uniform. -/
theorem Balanced.abs_sub (hM : 0 < M) (h : Balanced M f) (a : α) :
    |distribution M f a - uniform α a| =
      if a ∈ surplus M f
      then (Fintype.card α - (M % Fintype.card α : ℕ) : ℚ) / (Fintype.card α * M)
      else (M % Fintype.card α : ℕ) / (Fintype.card α * M) := by
  have hcard : (0 : ℚ) < Fintype.card α := by
    exact_mod_cast (Fintype.card_pos : 0 < Fintype.card α)
  have hM' : (0 : ℚ) < M := by exact_mod_cast hM
  have hmod : (Fintype.card α : ℚ) * (M / Fintype.card α : ℕ) + (M % Fintype.card α : ℕ) = M := by
    exact_mod_cast Nat.div_add_mod M (Fintype.card α)
  have hle : ((M % Fintype.card α : ℕ) : ℚ) ≤ Fintype.card α := by
    exact_mod_cast (Nat.mod_lt M Fintype.card_pos).le
  unfold distribution uniform
  rw [h.frequency_eq]
  -- values of the surplus are drawn once more than the others
  split_ifs with hmore
  · have hsub : ((M / Fintype.card α + 1 : ℕ) : ℚ) / M - 1 / Fintype.card α =
        (Fintype.card α - (M % Fintype.card α : ℕ)) / (Fintype.card α * M) := by
      rw [div_sub_div _ _ hM'.ne' hcard.ne', mul_comm (M : ℚ) (Fintype.card α)]
      congr 1
      push_cast
      linarith
    rw [hsub, abs_of_nonneg (div_nonneg (by linarith) (by positivity))]
  · have hsub : ((M / Fintype.card α + 0 : ℕ) : ℚ) / M - 1 / Fintype.card α =
        -((M % Fintype.card α : ℕ) / (Fintype.card α * M)) := by
      rw [div_sub_div _ _ hM'.ne' hcard.ne', mul_comm (M : ℚ) (Fintype.card α),
        ← neg_div]
      congr 1
      push_cast
      linarith
    rw [hsub, abs_neg, abs_of_nonneg (by positivity)]

/-- **The distance to the uniform distribution.** -/
theorem distance_balanced (hM : 0 < M) (h : Balanced M f) :
    distance (distribution M f) (uniform α) =
      (M % Fintype.card α : ℕ) * (Fintype.card α - (M % Fintype.card α : ℕ)) /
        (Fintype.card α * M) := by
  have hsplit (x y : ℚ) : ∑ a, (if a ∈ surplus M f then x else y) =
      Fintype.card α * y + (M % Fintype.card α : ℕ) * (x - y) := by
    have hone (a : α) : (if a ∈ surplus M f then x else y) =
        y + if a ∈ surplus M f then x - y else 0 := by
      split_ifs <;> ring
    simp only [hone, Finset.sum_add_distrib, Finset.sum_const, Finset.card_univ, nsmul_eq_mul,
      Finset.sum_ite_mem, Finset.univ_inter, h.card_surplus]
  unfold distance
  simp only [h.abs_sub hM]
  rw [hsplit, ← sub_div]
  ring

/-- At most a quarter of a value for each number. -/
theorem distance_le (hM : 0 < M) (h : Balanced M f) :
    distance (distribution M f) (uniform α) ≤ Fintype.card α / (4 * M) := by
  have hcard : (0 : ℚ) < Fintype.card α := by
    exact_mod_cast (Fintype.card_pos : 0 < Fintype.card α)
  have hM' : (0 : ℚ) < M := by exact_mod_cast hM
  rw [distance_balanced hM h]
  generalize ((M % Fintype.card α : ℕ) : ℚ) = s
  have hsquare : 4 * (s * (Fintype.card α - s)) ≤ (Fintype.card α : ℚ) * Fintype.card α := by
    nlinarith [sq_nonneg ((Fintype.card α : ℚ) - 2 * s)]
  rw [div_le_div_iff₀ (by positivity) (by positivity)]
  nlinarith

end

/-! ## Residues -/

/-- Numbers are mapped to their residues. -/
theorem balanced_cast (M N : ℕ) [NeZero N] : Balanced M fun v => (v : ZMod N) := by
  intro z
  have hpos : 0 < N := Nat.pos_of_ne_zero (NeZero.ne N)
  have hcount : frequency M (fun v => (v : ZMod N)) z = M.count (· ≡ z.val [MOD N]) := by
    unfold frequency
    congr 1
    funext v
    rw [← ZMod.natCast_eq_natCast_iff, ZMod.natCast_zmod_val]
  rw [hcount, Nat.count_modEq_card _ hpos, ZMod.card]
  split_ifs
  · exact .inr rfl
  · exact .inl rfl

end Hmpc.Lib.Equidistribution
