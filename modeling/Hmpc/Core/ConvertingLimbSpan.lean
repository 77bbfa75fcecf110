/-
# Hmpc.Core.ConvertingLimbSpan -- narrow limbs, written word by word

A `converting_limb_span` of words lies over a span of limbs. Writing a word writes the limbs it is
made of, the lowest first, as far as there are limbs; what is left of the last word is lost. So a
span of `n` limbs takes as many words as `n` limbs fill, and limb `j` is limb `j % ratio` of word
`j / ratio`: `writeAll_eq`.
-/
import Hmpc.Core.LimbSpan

namespace Hmpc.Core.ConvertingLimbSpan

open Hmpc.Lib.Loops Hmpc.Lib.Limbs

variable {v w : ℕ}

/-- `ratio` -/
def ratio (v w : ℕ) : ℕ := v / w

/-- `limb_size` -/
def limbSize (v w n : ℕ) : ℕ := if v = w then n else limbSizeFor v (n * w)

/-- `write(index, value)` over a span of `n` limbs. -/
def write (n index : ℕ) (value : BitVec v) (limbs : List (BitVec w)) : List (BitVec w) :=
  if v = w then limbs.set index (value.setWidth w)
  else
    let beginIndex := index * ratio v w
    let fullEndIndex := beginIndex + ratio v w
    let endIndex := if fullEndIndex < n then fullEndIndex else n
    (scanRange (endIndex - beginIndex) (fun i (s : List (BitVec w) × BitVec v) =>
      (s.1.set (beginIndex + i) (s.2.setWidth w), s.2 >>> w)) (limbs, value)).1

/-- Limb `j` of words. -/
def limbOf (w : ℕ) (words : ℕ → BitVec v) (j : ℕ) : BitVec w :=
  (words (j / ratio v w) >>> (w * (j % ratio v w))).setWidth w

theorem mul_ratio (hw : w ∣ v) : w * ratio v w = v := Nat.mul_div_cancel' hw

/-- The loop of `write` goes through the limbs of the word. -/
theorem scanRange_write (beginIndex count : ℕ) (word : BitVec v) {n : ℕ} {limbs : List (BitVec w)}
    (hlength : limbs.length = n) :
    (scanRange count (fun i (s : List (BitVec w) × BitVec v) =>
      (s.1.set (beginIndex + i) (s.2.setWidth w), s.2 >>> w)) (limbs, word)).1.length = n ∧
    ∀ j < n, (scanRange count (fun i (s : List (BitVec w) × BitVec v) =>
      (s.1.set (beginIndex + i) (s.2.setWidth w), s.2 >>> w)) (limbs, word)).1.getD j 0 =
        if beginIndex ≤ j ∧ j < beginIndex + count
        then (word >>> (w * (j - beginIndex))).setWidth w else limbs.getD j 0 := by
  have hscan := scanRange_induction (n := count)
    (P := fun i (s : List (BitVec w) × BitVec v) => s.2 = word >>> (w * i) ∧ s.1.length = n ∧
      ∀ j < n, s.1.getD j 0 = if beginIndex ≤ j ∧ j < beginIndex + i
        then (word >>> (w * (j - beginIndex))).setWidth w else limbs.getD j 0)
    (f := fun i s => (s.1.set (beginIndex + i) (s.2.setWidth w), s.2 >>> w)) (s := (limbs, word))
    ⟨(BitVec.ushiftRight_zero word).symm, hlength, fun j _ => (if_neg (by omega)).symm⟩
    (by
      rintro i - s ⟨hrest, hl, hwritten⟩
      refine ⟨?_, List.length_set.trans hl, fun j hj => ?_⟩
      · show s.2 >>> w = word >>> (w * (i + 1))
        rw [hrest, Nat.mul_succ, BitVec.shiftRight_add]
      · rw [getD_set, hwritten j hj]
        by_cases hnow : beginIndex + i = j
        · rw [if_pos ⟨hnow, hl ▸ hj⟩, if_pos (by omega), hrest, ← hnow, Nat.add_sub_cancel_left]
        · rw [if_neg fun h => hnow h.1]
          congr 1
          exact propext (by omega))
  exact hscan.2

variable [NeZero w] {n : ℕ}

theorem ratio_pos [NeZero v] (hw : w ∣ v) : 0 < ratio v w :=
  Nat.div_pos (Nat.le_of_dvd (NeZero.pos v) hw) (NeZero.pos w)

theorem ratio_self : ratio w w = 1 := Nat.div_self (NeZero.pos w)

/-- As many words as the limbs fill. -/
theorem limbSize_eq [NeZero v] (hw : w ∣ v) (n : ℕ) :
    limbSize v w n = limbSizeFor (ratio v w) n := by
  unfold limbSize
  split_ifs with heq
  · rw [heq, ratio_self, limbSizeFor, Nat.add_sub_cancel, Nat.div_one]
  · have : NeZero (ratio v w) := ⟨(ratio_pos hw).ne'⟩
    refine eq_of_forall_ge_iff fun m => ?_
    rw [limbSizeFor_le_iff, limbSizeFor_le_iff, Nat.mul_comm n w]
    nth_rewrite 1 [← mul_ratio hw]
    rw [Nat.mul_assoc, Nat.mul_le_mul_left_iff (NeZero.pos w)]

/-- The limbs of a word, and no others, are written. -/
theorem getD_write [NeZero v] (hw : w ∣ v) (index : ℕ) (word : BitVec v) {limbs : List (BitVec w)}
    (hlength : limbs.length = n) :
    (write n index word limbs).length = n ∧ ∀ j < n, (write n index word limbs).getD j 0 =
      if j / ratio v w = index then (word >>> (w * (j % ratio v w))).setWidth w
      else limbs.getD j 0 := by
  unfold write
  split_ifs with heq
  -- limbs of one size are copied
  · subst heq
    refine ⟨List.length_set.trans hlength, fun j hj => ?_⟩
    rw [getD_set, ratio_self, Nat.div_one, Nat.mod_one, Nat.mul_zero, BitVec.ushiftRight_zero,
      hlength]
    congr 1
    exact propext (by omega)
  -- the loop stops at the end of the span, where the last word may have fewer limbs
  · obtain ⟨hl, hwritten⟩ := scanRange_write (index * ratio v w)
      ((if index * ratio v w + ratio v w < n then index * ratio v w + ratio v w else n) -
        index * ratio v w) word hlength
    refine ⟨hl, fun j hj => (hwritten j hj).trans ?_⟩
    have hpos := ratio_pos (v := v) hw
    generalize ratio v w = r at *
    have hhere : j / r = index ↔ index * r ≤ j ∧ j < index * r + r := by
      rw [Nat.div_eq_iff hpos]
      omega
    have hend : (index * r ≤ j ∧ j < index * r +
        ((if index * r + r < n then index * r + r else n) - index * r)) ↔ j / r = index := by
      rw [hhere]
      split_ifs <;> omega
    simp only [hend]
    split_ifs with hindex
    · rw [← hindex, ← Nat.sub_eq_of_eq_add (Nat.mod_add_div' j r).symm]
    · rfl

/-- **Words, written one after the other**, are written limb by limb. -/
theorem writeAll_eq [NeZero v] (hw : w ∣ v) (words : ℕ → BitVec v) (n : ℕ) :
    scanRange (limbSize v w n) (fun i (limbs : List (BitVec w)) => write n i (words i) limbs)
      (List.replicate n 0) = (List.range n).map (limbOf w words) := by
  obtain ⟨hlength, hwritten⟩ := scanRange_induction (n := limbSize v w n)
    (P := fun i (limbs : List (BitVec w)) => limbs.length = n ∧
      ∀ j < n, j / ratio v w < i → limbs.getD j 0 = limbOf w words j)
    (f := fun i limbs => write n i (words i) limbs) (s := List.replicate n 0)
    ⟨List.length_replicate, nofun⟩
    (by
      rintro i - limbs ⟨hlength, hwritten⟩
      obtain ⟨hl, hword⟩ := getD_write hw i (words i) hlength
      refine ⟨hl, fun j hj hi => ?_⟩
      rw [hword j hj]
      split_ifs with hindex
      · rw [limbOf, hindex]
      · exact hwritten j hj (by omega))
  apply List.ext_getElem
  · rw [hlength, List.length_map, List.length_range]
  · intro j hj hrange
    have hin : j < n := hlength ▸ hj
    have hlast : j / ratio v w < limbSize v w n := by
      have : NeZero (ratio v w) := ⟨(ratio_pos hw).ne'⟩
      rw [limbSize_eq hw, ← Nat.not_le, limbSizeFor_le_iff, Nat.not_le]
      exact (Nat.mul_div_le _ _).trans_lt hin
    have hone := hwritten j hin hlast
    rw [List.getD_eq_getElem?_getD, List.getElem?_eq_getElem hj, Option.getD_some] at hone
    rw [hone, List.getElem_map, List.getElem_range]

end Hmpc.Core.ConvertingLimbSpan
