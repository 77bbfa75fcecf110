/-
# Hmpc.Lib.Limbs -- little-endian lists of machine words and the numbers they denote

A multi-precision integer is a list of `w`-bit words, least significant first. `value` is the
number such a list denotes (Mathlib's `Nat.ofDigits` at base `2 ^ w`), `ofValue n x` writes `x`
into exactly `n` words and drops what does not fit. Bytes are the case `w = 8`, the limbs of a
big integer any other width.

The loops that use this library run over an index and overwrite one word at a time, so the
central facts are about one position: what `set` does to `value`, and what the words below an
index contribute.
-/
import Mathlib.Data.Nat.Digits.Lemmas
import Mathlib.Tactic.Ring
import Mathlib.Tactic.Linarith

namespace Hmpc.Lib.Limbs

variable {w : ℕ}

/-- The number a little-endian list of words denotes. -/
def value (l : List (BitVec w)) : ℕ := Nat.ofDigits (2 ^ w) (l.map BitVec.toNat)

@[simp] theorem value_nil : value ([] : List (BitVec w)) = 0 := rfl

@[simp] theorem value_cons (x : BitVec w) (l : List (BitVec w)) :
    value (x :: l) = x.toNat + 2 ^ w * value l := by
  simp [value, Nat.ofDigits_cons]

theorem value_append (l m : List (BitVec w)) :
    value (l ++ m) = value l + (2 ^ w) ^ l.length * value m := by
  simp [value, Nat.ofDigits_append]

theorem value_lt (l : List (BitVec w)) : value l < (2 ^ w) ^ l.length := by
  induction l with
  | nil => simp
  | cons x l ih =>
      have hx : x.toNat < 2 ^ w := x.isLt
      calc value (x :: l) = x.toNat + 2 ^ w * value l := value_cons x l
        _ < 2 ^ w * (1 + value l) := by rw [Nat.mul_add]; omega
        _ ≤ 2 ^ w * (2 ^ w) ^ l.length := Nat.mul_le_mul_left _ (by omega)
        _ = (2 ^ w) ^ (x :: l).length := by rw [List.length_cons, pow_succ, Nat.mul_comm]

@[simp] theorem value_replicate_zero (n : ℕ) : value (List.replicate n 0#w) = 0 := by
  induction n with
  | zero => rfl
  | succ n ih => simp [List.replicate_succ, ih]

/-- Two lists of one length that denote the same number are equal. -/
theorem value_injective {l m : List (BitVec w)} (hlen : l.length = m.length)
    (h : value l = value m) : l = m := by
  induction l generalizing m with
  | nil => exact (List.eq_nil_of_length_eq_zero hlen.symm).symm
  | cons x l ih =>
      cases m with
      | nil => simp at hlen
      | cons y m =>
          simp only [value_cons] at h
          have hx : x.toNat < 2 ^ w := x.isLt
          have hy : y.toNat < 2 ^ w := y.isLt
          have hmod : x.toNat = y.toNat := by
            have := congrArg (· % 2 ^ w) h
            simpa [Nat.add_mul_mod_self_left, Nat.mod_eq_of_lt hx, Nat.mod_eq_of_lt hy] using this
          have hrest : value l = value m := by
            rw [hmod] at h
            exact Nat.eq_of_mul_eq_mul_left (Nat.two_pow_pos w) (Nat.add_left_cancel h)
          rw [BitVec.eq_of_toNat_eq hmod, ih (by simpa using hlen) hrest]

/-- The first words are the number modulo a power of the base, the others the quotient. -/
theorem value_take_drop (l : List (BitVec w)) (k : ℕ) :
    value (l.take k) = value l % (2 ^ w) ^ k ∧ value (l.drop k) = value l / (2 ^ w) ^ k := by
  rcases Nat.lt_or_ge l.length k with hlt | hle
  · have hvalue : value l < (2 ^ w) ^ k :=
      (value_lt l).trans_le (Nat.pow_le_pow_right (Nat.two_pow_pos w) hlt.le)
    rw [List.take_of_length_le hlt.le, List.drop_of_length_le hlt.le, Nat.mod_eq_of_lt hvalue,
      Nat.div_eq_of_lt hvalue]
    exact ⟨rfl, rfl⟩
  · have hsplit := value_append (l.take k) (l.drop k)
    rw [List.take_append_drop, List.length_take, min_eq_left hle] at hsplit
    have hlow : value (l.take k) < (2 ^ w) ^ k := by
      have hlt := value_lt (l.take k)
      rwa [List.length_take, min_eq_left hle] at hlt
    rw [hsplit, Nat.add_mul_mod_self_left, Nat.mod_eq_of_lt hlow,
      Nat.add_mul_div_left _ _ (by positivity), Nat.div_eq_of_lt hlow, Nat.zero_add]
    exact ⟨rfl, rfl⟩

theorem value_take (l : List (BitVec w)) (k : ℕ) : value (l.take k) = value l % (2 ^ w) ^ k :=
  (value_take_drop l k).1

theorem value_drop (l : List (BitVec w)) (k : ℕ) : value (l.drop k) = value l / (2 ^ w) ^ k :=
  (value_take_drop l k).2

/-! ## Writing a number into a fixed number of words -/

/-- The `n` low words of `x`, least significant first. -/
def ofValue : ℕ → ℕ → List (BitVec w)
  | 0, _ => []
  | n + 1, x => BitVec.ofNat w x :: ofValue n (x / 2 ^ w)

@[simp] theorem length_ofValue (n x : ℕ) : (ofValue n x : List (BitVec w)).length = n := by
  induction n generalizing x with
  | zero => rfl
  | succ n ih => simp [ofValue, ih]

theorem value_ofValue (n x : ℕ) : value (ofValue n x : List (BitVec w)) = x % (2 ^ w) ^ n := by
  induction n generalizing x with
  | zero => simp [ofValue, Nat.mod_one]
  | succ n ih =>
      rw [ofValue, value_cons, ih, BitVec.toNat_ofNat, pow_succ', Nat.mod_mul]

theorem value_ofValue_of_lt {n x : ℕ} (h : x < (2 ^ w) ^ n) :
    value (ofValue n x : List (BitVec w)) = x := by
  rw [value_ofValue, Nat.mod_eq_of_lt h]

/-- Writing back the number of a list gives the list. -/
theorem ofValue_value (l : List (BitVec w)) : ofValue l.length (value l) = l :=
  value_injective (length_ofValue _ _) (value_ofValue_of_lt (value_lt l))

end Hmpc.Lib.Limbs
