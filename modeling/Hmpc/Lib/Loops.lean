/-
# Hmpc.Lib.Loops -- what nested loops produce

The outputs of a loop over a list are a `flatMap`. These lemmas say what is left of one when the
loop skips elements, when only one element contributes, and when it runs over two lists of which
the second does not matter. A loop over an index that hands a value on keeps what each step keeps.
-/
import Mathlib.Algebra.BigOperators.Ring.Finset
import Mathlib.Data.List.Nodup

namespace Hmpc.Lib.Loops

variable {α β γ : Type*}

/-- A loop that skips elements. -/
theorem flatMap_filter (p : α → Bool) (f : α → List β) (l : List α) :
    (l.filter p).flatMap f = l.flatMap fun a => if p a then f a else [] := by
  induction l with
  | nil => rfl
  | cons a l ih =>
      by_cases hp : p a = true
      · rw [List.filter_cons_of_pos hp, List.flatMap_cons, List.flatMap_cons, ih, if_pos hp]
      · rw [List.filter_cons_of_neg hp, List.flatMap_cons, ih, if_neg hp, List.nil_append]

/-- Skipping elements that contribute nothing changes nothing. -/
theorem flatMap_filter_of_nil {p : α → Bool} {f : α → List β} (l : List α)
    (h : ∀ a, p a = false → f a = []) : (l.filter p).flatMap f = l.flatMap f := by
  rw [flatMap_filter]
  congr 1
  funext a
  split
  · rfl
  · rename_i hp
    rw [h a (by simpa using hp)]

/-- A loop over different elements of which only one contributes. -/
theorem flatMap_of_nodup [DecidableEq α] {l : List α} (hl : l.Nodup) (a : α) {f : α → List β}
    (hf : ∀ b, b ≠ a → f b = []) : l.flatMap f = if a ∈ l then f a else [] := by
  induction l with
  | nil => rfl
  | cons b l ih =>
      obtain ⟨hb, hl⟩ := List.nodup_cons.mp hl
      rw [List.flatMap_cons, ih hl]
      by_cases ha : b = a
      · subst ha
        simp [hb]
      · simp [hf b ha, Ne.symm ha]

/-- A loop over two lists that only uses the elements of the first one. -/
theorem flatMap_zip {l : List α} {m : List γ} (hlen : l.length = m.length) (f : α → List β) :
    (l.zip m).flatMap (fun e => f e.1) = l.flatMap f := by
  have hfst : (l.zip m).map Prod.fst = l := List.map_fst_zip (Nat.le_of_eq hlen)
  rw [← List.flatMap_map Prod.fst f, hfst]

/-- A selection that keeps all outputs of an element or none. -/
theorem filter_flatMap {p : β → Bool} {q : α → Bool} {f : α → List β} (l : List α)
    (h : ∀ a ∈ l, q a = true ∧ (∀ b ∈ f a, p b = true) ∨ q a = false ∧ ∀ b ∈ f a, ¬p b = true) :
    (l.flatMap f).filter p = (l.filter q).flatMap f := by
  induction l with
  | nil => rfl
  | cons a l ih =>
      have hrest := ih fun b hb => h b (List.mem_cons_of_mem _ hb)
      rw [List.flatMap_cons, List.filter_append, hrest]
      rcases h a List.mem_cons_self with ⟨hq, hall⟩ | ⟨hq, hnone⟩
      · rw [List.filter_eq_self.mpr hall, List.filter_cons_of_pos hq, List.flatMap_cons]
      · rw [List.filter_eq_nil_iff.mpr hnone, List.nil_append,
          List.filter_cons_of_neg (by simp [hq])]

/-- A total, grouped by the loops that contribute to it. -/
theorem sum_map_eq_sum_flatMap {s : Finset γ} {f : γ → α → List β} {g : α → ℕ} {w : β → ℕ}
    (l : List α) (h : ∀ a ∈ l, g a = ∑ c ∈ s, ((f c a).map w).sum) :
    (l.map g).sum = ∑ c ∈ s, ((l.flatMap (f c)).map w).sum := by
  induction l with
  | nil => exact (Finset.sum_const_zero).symm
  | cons a l ih =>
      have hrest := ih fun b hb => h b (List.mem_cons_of_mem _ hb)
      rw [List.map_cons, List.sum_cons, h a List.mem_cons_self, hrest, ← Finset.sum_add_distrib]
      refine Finset.sum_congr rfl fun c _ => ?_
      rw [List.flatMap_cons, List.map_append, List.sum_append]

/-- A loop that is cut into loops of one length. -/
theorem flatMap_range_mul (m n : ℕ) (f : ℕ → List β) :
    (List.range m).flatMap (fun b => (List.range n).flatMap fun e => f (b * n + e)) =
      (List.range (m * n)).flatMap f := by
  induction m with
  | zero => simp
  | succ m ih =>
      rw [List.range_succ, List.flatMap_append, ih, Nat.succ_mul, List.range_add,
        List.flatMap_append, List.flatMap_map]
      simp

theorem flatMap_range_map (m n : ℕ) (f : ℕ → β) :
    (List.range m).flatMap (fun b => (List.range n).map fun e => f (b * n + e)) =
      (List.range (m * n)).map f := by
  simp only [List.map_eq_flatMap]
  exact flatMap_range_mul m n fun k => [f k]

/-- A loop that stops doing anything at `n`. -/
theorem flatMap_range_of_le {m n : ℕ} (h : n ≤ m) (f : ℕ → List β) :
    (List.range m).flatMap (fun i => if i < n then f i else []) = (List.range n).flatMap f := by
  obtain ⟨k, rfl⟩ := Nat.exists_eq_add_of_le h
  have hlow : (List.range n).flatMap (fun i => if i < n then f i else []) =
      (List.range n).flatMap f :=
    List.flatMap_congr fun i hi => if_pos (List.mem_range.mp hi)
  have hhigh : ((List.range k).map (n + ·)).flatMap (fun i => if i < n then f i else []) = [] := by
    rw [List.flatMap_map, List.flatMap_eq_nil_iff]
    intro i _
    exact if_neg (by omega)
  rw [List.range_add, List.flatMap_append, hlow, hhigh, List.append_nil]

/-- What a loop adds: it holds afterwards if it held before or one of the steps made it hold. -/
theorem foldl_iff_or {σ : Type*} {P : σ → Prop} {Q : α → Prop} {f : σ → α → σ}
    (step : ∀ s a, P (f s a) ↔ P s ∨ Q a) (l : List α) (s : σ) :
    P (l.foldl f s) ↔ P s ∨ ∃ a ∈ l, Q a := by
  induction l generalizing s with
  | nil => simp
  | cons a l ih =>
      rw [List.foldl_cons, ih, step]
      simp only [List.exists_mem_cons_iff, or_assoc]

/-- What every step of a loop keeps. -/
theorem foldl_keeps {σ : Type*} {P : σ → Prop} {f : σ → α → σ}
    (l : List α) (step : ∀ a ∈ l, ∀ s, P s → P (f s a)) {s : σ} (start : P s) :
    P (l.foldl f s) := by
  induction l generalizing s with
  | nil => exact start
  | cons a l ih =>
      apply ih
      · intro b hb
        exact step b (List.mem_cons_of_mem _ hb)
      · exact step a List.mem_cons_self s start

/-! ## Loops over indices -/

section Scan

variable {σ : Type*}

/-- A loop over the indices below `n`, upwards, that hands a value on. -/
def scanRange : ℕ → (ℕ → σ → σ) → σ → σ
  | 0, _, s => s
  | n + 1, f, s => f n (scanRange n f s)

/-- The same loop downwards. -/
def scanReverseRange : ℕ → (ℕ → σ → σ) → σ → σ
  | 0, _, s => s
  | n + 1, f, s => scanReverseRange n f (f n s)

/-- What holds of the value at the first index, and is carried from each index to the next. -/
theorem scanRange_induction {P : ℕ → σ → Prop} {n : ℕ} {f : ℕ → σ → σ} {s : σ} (start : P 0 s)
    (step : ∀ i < n, ∀ t, P i t → P (i + 1) (f i t)) : P n (scanRange n f s) := by
  induction n with
  | zero => exact start
  | succ n ih => exact step n (Nat.lt_succ_self n) _ (ih fun i hi => step i (Nat.lt_succ_of_lt hi))

/-- What no step changes is as before the loop. -/
theorem scanRange_keeps {β : Type} {φ : σ → β} {f : ℕ → σ → σ} (h : ∀ i s, φ (f i s) = φ s)
    (n : ℕ) (s : σ) : φ (scanRange n f s) = φ s :=
  scanRange_induction (P := fun _ t => φ t = φ s) rfl fun i _ t ht => (h i t).trans ht

theorem scanReverseRange_induction {P : ℕ → σ → Prop} {n : ℕ} {f : ℕ → σ → σ} {s : σ}
    (start : P n s) (step : ∀ i < n, ∀ t, P (i + 1) t → P i (f i t)) :
    P 0 (scanReverseRange n f s) := by
  induction n generalizing s with
  | zero => exact start
  | succ n ih =>
      apply ih
      · exact step n (Nat.lt_succ_self n) s start
      · intro i hi
        exact step i (Nat.lt_succ_of_lt hi)

theorem scanRange_congr {n : ℕ} {f g : ℕ → σ → σ} (h : ∀ i < n, ∀ s, f i s = g i s) (s : σ) :
    scanRange n f s = scanRange n g s := by
  induction n with
  | zero => rfl
  | succ n ih =>
      rw [scanRange, scanRange, ih fun i hi => h i (Nat.lt_succ_of_lt hi), h n n.lt_succ_self]

/-- A loop that sets one element after the other. -/
theorem scanRange_set (a : α) (f : ℕ → α) (n : ℕ) :
    scanRange n (fun i l => l.set i (f i)) (List.replicate n a) = (List.range n).map f := by
  have hscan : scanRange n (fun i l => l.set i (f i)) (List.replicate n a) =
      (List.range n).map f ++ List.replicate (n - n) a := by
    apply scanRange_induction
      (P := fun i (l : List α) => l = (List.range i).map f ++ List.replicate (n - i) a)
    · rfl
    · intro i hi l hl
      have hlength : ((List.range i).map f).length = i := by simp
      rw [hl, List.set_append_right i _ hlength.le, hlength, Nat.sub_self,
        show n - i = n - (i + 1) + 1 by omega, List.replicate_succ, List.set_cons_zero,
        List.range_succ, List.map_append, List.append_assoc]
      rfl
  rw [hscan, Nat.sub_self, List.replicate_zero, List.append_nil]

/-- The loop upwards, when a step may fail. -/
def tryScanRange : ℕ → (ℕ → σ → Option σ) → σ → Option σ
  | 0, _, s => some s
  | n + 1, f, s => (tryScanRange n f s).bind (f n)

/-- The loop downwards, when a step may fail. -/
def tryScanReverseRange : ℕ → (ℕ → σ → Option σ) → σ → Option σ
  | 0, _, s => some s
  | n + 1, f, s => (f n s).bind (tryScanReverseRange n f)

/-- No step fails, when each carries what holds to the next index. -/
theorem tryScanRange_induction {P : ℕ → σ → Prop} {n : ℕ} {f : ℕ → σ → Option σ} {s : σ}
    (start : P 0 s) (step : ∀ i < n, ∀ t, P i t → ∃ t', f i t = some t' ∧ P (i + 1) t') :
    ∃ t, tryScanRange n f s = some t ∧ P n t := by
  induction n with
  | zero => exact ⟨s, rfl, start⟩
  | succ n ih =>
      obtain ⟨t, ht, hP⟩ := ih fun i hi => step i (Nat.lt_succ_of_lt hi)
      obtain ⟨t', ht', hP'⟩ := step n (Nat.lt_succ_self n) t hP
      refine ⟨t', ?_, hP'⟩
      rw [tryScanRange, ht, Option.bind_some, ht']

/-- No step fails, and each does what that of a loop without failures does. -/
theorem tryScanRange_eq_scanRange {P : ℕ → σ → Prop} {n : ℕ} {f : ℕ → σ → Option σ}
    {g : ℕ → σ → σ} {s : σ} (start : P 0 s)
    (step : ∀ i < n, ∀ t, P i t → f i t = some (g i t) ∧ P (i + 1) (g i t)) :
    tryScanRange n f s = some (scanRange n g s) := by
  obtain ⟨t, ht, rfl, -⟩ := tryScanRange_induction (P := fun i t => t = scanRange i g s ∧ P i t)
    ⟨rfl, start⟩ fun i hi t hP => by
      obtain ⟨rfl, hP⟩ := hP
      obtain ⟨hf, hnext⟩ := step i hi _ hP
      exact ⟨_, hf, rfl, hnext⟩
  exact ht

/-- A loop whose first step fails. -/
theorem tryScanRange_none {n : ℕ} {f : ℕ → σ → Option σ} {s : σ} (hn : 0 < n) (h : f 0 s = none) :
    tryScanRange n f s = none := by
  induction n with
  | zero => exact absurd hn (lt_irrefl 0)
  | succ n ih =>
      rcases Nat.eq_zero_or_pos n with rfl | hpos
      · exact h
      · rw [tryScanRange, ih hpos, Option.bind_none]

theorem tryScanRange_keeps {β : Type} {φ : σ → β} {n : ℕ} {f : ℕ → σ → Option σ}
    (h : ∀ i s, ∀ s' ∈ f i s, φ s' = φ s) {s s' : σ} (hs : s' ∈ tryScanRange n f s) :
    φ s' = φ s := by
  induction n generalizing s' with
  | zero => exact congrArg φ (Option.some.inj hs).symm
  | succ n ih =>
      obtain ⟨t, ht, hs'⟩ := Option.bind_eq_some_iff.mp hs
      exact (h n t s' hs').trans (ih ht)

theorem tryScanReverseRange_induction {P : ℕ → σ → Prop} {n : ℕ} {f : ℕ → σ → Option σ} {s : σ}
    (start : P n s) (step : ∀ i < n, ∀ t, P (i + 1) t → ∃ t', f i t = some t' ∧ P i t') :
    ∃ t, tryScanReverseRange n f s = some t ∧ P 0 t := by
  induction n generalizing s with
  | zero => exact ⟨s, rfl, start⟩
  | succ n ih =>
      obtain ⟨t, ht, hP⟩ := step n (Nat.lt_succ_self n) s start
      obtain ⟨t', ht', hP'⟩ := ih hP fun i hi => step i (Nat.lt_succ_of_lt hi)
      refine ⟨t', ?_, hP'⟩
      rw [tryScanReverseRange, ht, Option.bind_some, ht']

/-- A loop whose steps do what those of another loop do. -/
theorem tryScanRange_map {τ : Type*} {n : ℕ} {f : ℕ → σ → Option σ} {g : ℕ → τ → τ} {r : τ → σ}
    (step : ∀ i < n, ∀ t, f i (r t) = some (r (g i t))) (t : τ) :
    tryScanRange n f (r t) = some (r (scanRange n g t)) := by
  induction n with
  | zero => rfl
  | succ n ih =>
      rw [tryScanRange, ih fun i hi => step i (Nat.lt_succ_of_lt hi), Option.bind_some,
        step n (Nat.lt_succ_self n), scanRange]

end Scan

end Hmpc.Lib.Loops
