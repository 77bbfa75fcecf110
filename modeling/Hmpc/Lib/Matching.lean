/-
# Hmpc.Lib.Matching -- two keyed lists matched by key

Requests and arrivals meet under a key. `matches` is the join of the two lists on the key, and
`unmatched` is what one list has under keys the other one lacks. Neither depends on the order of
the lists, and the join grows by exactly the new pairs when one entry is added on either side.

`Rendezvous` is the invariant of a component that matches two streams of events as they come: it
has handed out the join so far and keeps the unmatched entries of both sides in two maps. One
lemma says what a new entry on the left does; the right is the same lemma read the other way round.
-/
import Mathlib.Data.List.AList
import Mathlib.Data.List.Perm.Basic
import Mathlib.Data.List.Nodup

namespace Hmpc.Lib.Matching

variable {κ α β : Type*} [DecidableEq κ]

/-- The values a keyed list holds under one key. -/
def valuesAt (k : κ) (l : List (κ × α)) : List α := (l.filter fun e => e.1 = k).map Prod.snd

/-- The join of two keyed lists. -/
def matched (l : List (κ × α)) (r : List (κ × β)) : List (κ × α × β) :=
  l.flatMap fun e => (valuesAt e.1 r).map fun b => (e.1, e.2, b)

/-- The entries of the first list whose key the second one lacks. -/
def unmatched (l : List (κ × α)) (r : List (κ × β)) : List (κ × α) :=
  l.filter fun e => e.1 ∉ r.map Prod.fst

@[simp] theorem mem_valuesAt {k : κ} {v : α} {l : List (κ × α)} :
    v ∈ valuesAt k l ↔ (k, v) ∈ l := by
  simp [valuesAt]

theorem valuesAt_append (k : κ) (l m : List (κ × α)) :
    valuesAt k (l ++ m) = valuesAt k l ++ valuesAt k m := by
  simp [valuesAt]

theorem valuesAt_perm (k : κ) {l m : List (κ × α)} (h : l.Perm m) :
    (valuesAt k l).Perm (valuesAt k m) :=
  (h.filter _).map _

theorem valuesAt_eq_nil {k : κ} {l : List (κ × α)} (h : k ∉ l.map Prod.fst) :
    valuesAt k l = [] := by
  refine List.eq_nil_iff_forall_not_mem.mpr fun v hv => h ?_
  exact List.mem_map.mpr ⟨(k, v), mem_valuesAt.mp hv, rfl⟩

/-- Under keys that occur once there is one value. -/
theorem valuesAt_eq_singleton {k : κ} {v : α} {l : List (κ × α)} (hnodup : (l.map Prod.fst).Nodup)
    (h : (k, v) ∈ l) : valuesAt k l = [v] := by
  obtain ⟨front, back, rfl⟩ := List.append_of_mem h
  simp only [List.map_append, List.map_cons, List.nodup_append, List.nodup_cons,
    List.mem_cons] at hnodup
  have hfront : k ∉ front.map Prod.fst := fun hk => hnodup.2.2 k hk k (Or.inl rfl) rfl
  rw [valuesAt_append, valuesAt_eq_nil hfront, ← List.singleton_append, valuesAt_append,
    valuesAt_eq_nil hnodup.2.1.1]
  simp [valuesAt]

theorem matched_append_left (l l' : List (κ × α)) (r : List (κ × β)) :
    matched (l ++ l') r = matched l r ++ matched l' r :=
  List.flatMap_append

theorem matched_append_right (l : List (κ × α)) (r r' : List (κ × β)) :
    (matched l (r ++ r')).Perm (matched l r ++ matched l r') := by
  simp only [matched, valuesAt_append, List.map_append]
  exact (List.flatMap_append_perm l _ _).symm

theorem matched_singleton_left (k : κ) (a : α) (r : List (κ × β)) :
    matched [(k, a)] r = (valuesAt k r).map fun b => (k, a, b) := by
  simp [matched]

theorem matched_singleton_right (l : List (κ × α)) (k : κ) (b : β) :
    matched l [(k, b)] = (valuesAt k l).map fun a => (k, a, b) := by
  induction l with
  | nil => rfl
  | cons e l ih =>
      rw [← List.singleton_append, matched_append_left, ih, valuesAt_append, List.map_append]
      congr 1
      by_cases he : e.1 = k
      · simp [matched, valuesAt, he]
      · simp [matched, valuesAt, he, Ne.symm he]

theorem mem_matched {k : κ} {a : α} {b : β} {l : List (κ × α)} {r : List (κ × β)} :
    (k, a, b) ∈ matched l r ↔ (k, a) ∈ l ∧ (k, b) ∈ r := by
  simp only [matched, List.mem_flatMap, List.mem_map, mem_valuesAt, Prod.mk.injEq]
  constructor
  · rintro ⟨⟨k', a'⟩, ha, b', hb, rfl, rfl, rfl⟩
    exact ⟨ha, hb⟩
  · rintro ⟨ha, hb⟩
    exact ⟨(k, a), ha, b, hb, rfl, rfl, rfl⟩

/-- What the join holds under a key: every pairing of the values on the two sides. -/
theorem valuesAt_matched (k : κ) (l : List (κ × α)) (r : List (κ × β)) :
    valuesAt k (matched l r) =
      (valuesAt k l).flatMap fun a => (valuesAt k r).map fun b => (a, b) := by
  induction l with
  | nil => rfl
  | cons e l ih =>
      rw [← List.singleton_append, matched_append_left, valuesAt_append, ih, valuesAt_append,
        List.flatMap_append]
      congr 1
      by_cases he : e.1 = k
      · simp [matched, valuesAt, he, List.filter_map, Function.comp_def]
      · simp [matched, valuesAt, he, List.filter_map, Function.comp_def]

theorem matched_perm {l l' : List (κ × α)} {r r' : List (κ × β)} (hl : l.Perm l')
    (hr : r.Perm r') : (matched l r).Perm (matched l' r') :=
  (hl.flatMap_right _).trans (List.Perm.flatMap_left _ fun e _ => (valuesAt_perm e.1 hr).map _)

theorem mem_unmatched {e : κ × α} {l : List (κ × α)} {r : List (κ × β)} :
    e ∈ unmatched l r ↔ e ∈ l ∧ ∀ b, (e.1, b) ∉ r := by
  simp [unmatched]

theorem unmatched_perm {l l' : List (κ × α)} {r r' : List (κ × β)} (hl : l.Perm l')
    (hr : r.Perm r') : (unmatched l r).Perm (unmatched l' r') := by
  have hmem : ∀ k, k ∉ r.map Prod.fst ↔ k ∉ r'.map Prod.fst := fun k =>
    not_congr (hr.map Prod.fst).mem_iff
  simp only [unmatched, hmem]
  exact hl.filter _

theorem matched_swap (l : List (κ × α)) (r : List (κ × β)) :
    ((matched l r).map fun e => (e.1, e.2.2, e.2.1)).Perm (matched r l) := by
  induction l with
  | nil => simp [matched, valuesAt]
  | cons e l ih =>
      rw [← List.singleton_append, matched_append_left, List.map_append]
      refine List.Perm.trans (List.Perm.append ?_ ih) (matched_append_right r [e] l).symm
      obtain ⟨k, a⟩ := e
      rw [matched_singleton_left, matched_singleton_right, List.map_map]
      rfl

/-! ## Matching as the entries come -/

/-- After the entries `l` and `r` on the two sides, `pairs` is what has been handed out, and the
two maps hold what is unmatched on either side. -/
structure Rendezvous (l : List (κ × α)) (r : List (κ × β)) (pairs : List (κ × α × β))
    (left : AList fun _ : κ => α) (right : AList fun _ : κ => β) : Prop where
  met : pairs.Perm (matched l r)
  left_iff : ∀ k a, left.lookup k = some a ↔ (k, a) ∈ unmatched l r
  right_iff : ∀ k b, right.lookup k = some b ↔ (k, b) ∈ unmatched r l

namespace Rendezvous

variable {l : List (κ × α)} {r : List (κ × β)} {pairs : List (κ × α × β)}
  {left : AList fun _ : κ => α} {right : AList fun _ : κ => β}

theorem nil : Rendezvous ([] : List (κ × α)) ([] : List (κ × β)) [] ∅ ∅ := by
  constructor <;> simp [matched, unmatched, AList.lookup_empty]

theorem symm (h : Rendezvous l r pairs left right) :
    Rendezvous r l (pairs.map fun e => (e.1, e.2.2, e.2.1)) right left :=
  ⟨(h.met.map _).trans (matched_swap l r), h.right_iff, h.left_iff⟩

/-- No key waits on both sides. -/
theorem disjoint (h : Rendezvous l r pairs left right) (k : κ) : ¬ (k ∈ left ∧ k ∈ right) := by
  rintro ⟨hl, hr⟩
  obtain ⟨a, ha⟩ := Option.isSome_iff_exists.mp (AList.lookup_isSome.mpr hl)
  obtain ⟨b, hb⟩ := Option.isSome_iff_exists.mp (AList.lookup_isSome.mpr hr)
  have hleft := mem_unmatched.mp ((h.left_iff k a).mp ha)
  have hright := mem_unmatched.mp ((h.right_iff k b).mp hb)
  exact hleft.2 b hright.1

/-- A key without an entry on the left is not in the left map. -/
theorem lookup_left_eq_none (h : Rendezvous l r pairs left right) {k : κ}
    (hnew : k ∉ l.map Prod.fst) : left.lookup k = none := by
  refine Option.eq_none_iff_forall_not_mem.mpr fun a ha => hnew ?_
  exact List.mem_map.mpr ⟨(k, a), (mem_unmatched.mp ((h.left_iff k a).mp ha)).1, rfl⟩

/-- A new entry on the left whose partner waits on the right: the pair is handed out. -/
theorem push_left_of_some (h : Rendezvous l r pairs left right) {k : κ} {b : β} (a : α)
    (hr : (r.map Prod.fst).Nodup) (hb : right.lookup k = some b) :
    Rendezvous (l ++ [(k, a)]) r (pairs ++ [(k, a, b)]) left (right.erase k) := by
  have hmem : (k, b) ∈ r := (mem_unmatched.mp ((h.right_iff k b).mp hb)).1
  refine ⟨?_, fun k' a' => ?_, fun k' b' => ?_⟩
  · rw [matched_append_left, matched_singleton_left, valuesAt_eq_singleton hr hmem]
    exact h.met.append_right _
  · rw [h.left_iff, mem_unmatched, mem_unmatched, List.mem_append, List.mem_singleton]
    refine and_congr_left fun hno => ⟨Or.inl, ?_⟩
    rintro (hold | hnew)
    · exact hold
    · rw [Prod.mk.injEq] at hnew
      exact absurd (hnew.1 ▸ hmem) (hno b)
  · rw [mem_unmatched]
    by_cases hk : k' = k
    · subst hk
      rw [AList.lookup_erase]
      constructor
      · intro hfalse
        cases hfalse
      · rintro ⟨-, hno⟩
        exact absurd (List.mem_append_right l (List.mem_singleton.mpr rfl)) (hno a)
    · rw [AList.lookup_erase_ne hk, h.right_iff, mem_unmatched]
      simp [hk]

/-- A new entry on the left whose partner is not there: it waits. -/
theorem push_left_of_none (h : Rendezvous l r pairs left right) {k : κ} (a : α)
    (hnew : k ∉ l.map Prod.fst) (hb : right.lookup k = none) :
    Rendezvous (l ++ [(k, a)]) r pairs (left.insert k a) right := by
  have hl : ∀ a', (k, a') ∉ l := fun a' hmem => hnew (List.mem_map.mpr ⟨_, hmem, rfl⟩)
  have hr : ∀ b, (k, b) ∉ r := by
    intro b hmem
    have := (h.right_iff k b).mpr (mem_unmatched.mpr ⟨hmem, hl⟩)
    rw [hb] at this
    cases this
  refine ⟨?_, fun k' a' => ?_, fun k' b' => ?_⟩
  · have hnone : valuesAt k r = [] :=
      List.eq_nil_iff_forall_not_mem.mpr fun b hmem => hr b (mem_valuesAt.mp hmem)
    rw [matched_append_left, matched_singleton_left, hnone]
    simpa using h.met
  · rw [mem_unmatched, List.mem_append, List.mem_singleton]
    by_cases hk : k' = k
    · subst hk
      simp [AList.lookup_insert, hl, hr, eq_comm]
    · rw [AList.lookup_insert_ne hk, h.left_iff, mem_unmatched]
      simp [hk]
  · rw [h.right_iff, mem_unmatched, mem_unmatched]
    refine and_congr_right fun hmem => ?_
    have hk : k' ≠ k := fun heq => hr b' (heq ▸ hmem)
    simp [hk]

theorem push_right_of_some (h : Rendezvous l r pairs left right) {k : κ} {a : α} (b : β)
    (hl : (l.map Prod.fst).Nodup) (ha : left.lookup k = some a) :
    Rendezvous l (r ++ [(k, b)]) (pairs ++ [(k, a, b)]) (left.erase k) right := by
  have := (h.symm.push_left_of_some b hl ha).symm
  simpa [Function.comp_def] using this

theorem push_right_of_none (h : Rendezvous l r pairs left right) {k : κ} (b : β)
    (hnew : k ∉ r.map Prod.fst) (ha : left.lookup k = none) :
    Rendezvous l (r ++ [(k, b)]) pairs left (right.insert k b) := by
  have := (h.symm.push_left_of_none b hnew ha).symm
  simpa [Function.comp_def] using this

end Rendezvous

end Hmpc.Lib.Matching
