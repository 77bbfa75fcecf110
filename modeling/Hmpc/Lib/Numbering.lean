/-
# Hmpc.Lib.Numbering -- how often a key has occurred before

`number key l` pairs each entry of a list with the number of earlier entries of the same key: what
one counter per key computes as the list is processed. Two observers that see different parts of a
common history number an entry alike as long as each of them sees all entries of its key
(`number_filter`).
-/
import Mathlib.Data.List.Induction

namespace Hmpc.Lib.Numbering

variable {α κ : Type*} [DecidableEq κ] (key : α → κ)

/-- The number of entries with this key. -/
def occurrences (k : κ) (l : List α) : ℕ := l.countP fun a => decide (key a = k)

@[simp] theorem occurrences_nil (k : κ) : occurrences key k [] = 0 := rfl

theorem occurrences_concat (k : κ) (l : List α) (a : α) :
    occurrences key k (l ++ [a]) = occurrences key k l + if key a = k then 1 else 0 := by
  simp [occurrences, List.countP_append, List.countP_singleton]

/-- The entries after `seen`, each with the number of entries of its key before it. -/
def numberFrom : List α → List α → List (α × ℕ)
  | _, [] => []
  | seen, a :: l => (a, occurrences key (key a) seen) :: numberFrom (seen ++ [a]) l

def number (l : List α) : List (α × ℕ) := numberFrom key [] l

theorem numberFrom_append (seen l m : List α) :
    numberFrom key seen (l ++ m) = numberFrom key seen l ++ numberFrom key (seen ++ l) m := by
  induction l generalizing seen with
  | nil => simp [numberFrom]
  | cons a l ih =>
      show (a, _) :: numberFrom key (seen ++ [a]) (l ++ m) = _
      rw [ih]
      simp [numberFrom]

theorem number_concat (l : List α) (a : α) :
    number key (l ++ [a]) = number key l ++ [(a, occurrences key (key a) l)] := by
  rw [number, numberFrom_append]
  rfl

@[simp] theorem length_numberFrom (seen l : List α) :
    (numberFrom key seen l).length = l.length := by
  induction l generalizing seen with
  | nil => rfl
  | cons a l ih => simp [numberFrom, ih]

/-- The number of the entry at an index. -/
theorem getElem?_numberFrom (seen l : List α) (j : ℕ) :
    (numberFrom key seen l)[j]? =
      l[j]?.map fun a => (a, occurrences key (key a) (seen ++ l.take j)) := by
  induction l generalizing seen j with
  | nil => rfl
  | cons a l ih =>
      cases j with
      | zero => simp [numberFrom]
      | succ j =>
          show (numberFrom key (seen ++ [a]) l)[j]? = _
          rw [ih]
          simp

/-- Of two entries of a key, the later one has the larger number. -/
theorem occurrences_take_lt {l : List α} {j j' : ℕ} {a : α} (hlt : j < j')
    (ha : l[j']? = some a) :
    occurrences key (key a) (l.take (j + 1)) < occurrences key (key a) (l.take (j' + 1)) := by
  have hprefix : (l.take (j + 1)).Sublist (l.take j') := List.take_sublist_take_left (by omega)
  have hle : occurrences key (key a) (l.take (j + 1)) ≤ occurrences key (key a) (l.take j') :=
    hprefix.countP_le
  rw [List.take_add_one (i := j'), ha, Option.toList_some, occurrences_concat, if_pos rfl]
  exact Nat.lt_succ_of_le hle

theorem mem_of_mem_number {l : List α} {e : α × ℕ} (h : e ∈ number key l) : e.1 ∈ l := by
  induction l using List.reverseRecOn with
  | nil => cases h
  | append_singleton l a ih =>
      rw [number_concat] at h
      rcases List.mem_append.mp h with hold | hnew
      · exact List.mem_append_left _ (ih hold)
      · rw [List.mem_singleton.mp hnew]
        exact List.mem_append_right _ (List.mem_singleton.mpr rfl)

/-- Entries of other keys do not count. -/
theorem occurrences_filter (k : κ) (p : α → Bool) (l : List α)
    (h : ∀ a ∈ l, key a = k → p a = true) :
    occurrences key k (l.filter p) = occurrences key k l := by
  rw [occurrences, List.countP_filter]
  refine List.countP_congr fun a ha => ?_
  rw [Bool.and_eq_true, decide_eq_true_eq]
  exact ⟨fun hk => hk.1, fun hk => ⟨hk, h a ha hk⟩⟩

/-- **Numbers in a part of the history.** When `p` selects all entries of a key or none, the
selected entries have the numbers they have in the whole list. -/
theorem number_filter (p : α → Bool) (l : List α)
    (h : ∀ a ∈ l, ∀ b ∈ l, key a = key b → p a = p b) :
    (number key l).filter (fun e => p e.1) = number key (l.filter p) := by
  induction l using List.reverseRecOn with
  | nil => rfl
  | append_singleton l a ih =>
      have hold := ih fun b hb c hc => h b (by simp [hb]) c (by simp [hc])
      rw [number_concat, List.filter_append, List.filter_append, hold]
      by_cases hp : p a = true
      · have hcount : occurrences key (key a) (l.filter p) = occurrences key (key a) l := by
          refine occurrences_filter key (key a) p l fun b hb hkey => ?_
          rw [h b (by simp [hb]) a (by simp) hkey, hp]
        simp only [List.filter_cons, List.filter_nil, hp, if_true]
        rw [number_concat, hcount]
      · simp [hp]

end Hmpc.Lib.Numbering
