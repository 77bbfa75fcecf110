/-
# Hmpc.Lib.Map -- finite maps as association lists

A hash map is an `AList` with values of one type. Mathlib has its lookup lemmas for insertion and
removal; this module adds what a loop over keys does to a map (`ofKeys`, `insertMissing`,
`eraseKeys`), again as an equation for `lookup`, and the passage between a statement about all
entries and one about all lookups.
-/
import Mathlib.Data.List.AList

namespace Hmpc.Lib

abbrev Map (κ α : Type*) := AList fun _ : κ => α

namespace Map

variable {κ α : Type*} [DecidableEq κ]

theorem lookup_insert (m : Map κ α) (k k' : κ) (v : α) :
    (m.insert k v).lookup k' = if k' = k then some v else m.lookup k' := by
  split
  · rename_i h
    rw [h, AList.lookup_insert]
  · rename_i h
    rw [AList.lookup_insert_ne h]

theorem lookup_erase (m : Map κ α) (k k' : κ) :
    (m.erase k).lookup k' = if k' = k then none else m.lookup k' := by
  split
  · rename_i h
    rw [h, AList.lookup_erase]
  · rename_i h
    rw [AList.lookup_erase_ne h]

theorem mem_iff_exists {m : Map κ α} {k : κ} : k ∈ m ↔ ∃ v, m.lookup k = some v := by
  rw [← AList.lookup_isSome, Option.isSome_iff_exists]

theorem mem_entries_iff {m : Map κ α} {k : κ} {v : α} :
    (⟨k, v⟩ : Sigma fun _ : κ => α) ∈ m.entries ↔ m.lookup k = some v :=
  AList.mem_lookup_iff.symm

/-- What holds of every entry holds of every lookup, and back. -/
theorem forall_entries_iff {m : Map κ α} {p : κ → α → Prop} :
    (∀ e ∈ m.entries, p e.1 e.2) ↔ ∀ k v, m.lookup k = some v → p k v :=
  ⟨fun h k v hv => h ⟨k, v⟩ (mem_entries_iff.mpr hv),
    fun h ⟨k, v⟩ he => h k v (mem_entries_iff.mp he)⟩

theorem eq_empty_of_lookup {m : Map κ α} (h : ∀ k, m.lookup k = none) : m = ∅ := by
  apply AList.ext
  refine List.eq_nil_iff_forall_not_mem.mpr fun ⟨k, v⟩ he => ?_
  have := mem_entries_iff.mp he
  rw [h k] at this
  cases this

/-! ## Counting entries -/

theorem countP_erase (m : Map κ α) {k : κ} {v : α} (h : m.lookup k = some v)
    (p : (Sigma fun _ : κ => α) → Bool) :
    (m.erase k).entries.countP p + (if p ⟨k, v⟩ then 1 else 0) = m.entries.countP p := by
  have hmem : k ∈ m.entries.keys := AList.mem_keys.mp (AList.lookup_isSome.mp (by rw [h]; rfl))
  obtain ⟨v', front, back, -, hentries, herase⟩ := List.exists_of_kerase hmem
  have hv : v' = v := by
    have hlookup : m.lookup k = some v' :=
      AList.mem_lookup_iff.mpr (by rw [hentries]; simp)
    exact Option.some.inj (hlookup.symm.trans h)
  have hrest : (m.erase k).entries = front ++ back := herase
  rw [hrest, hentries, hv]
  simp only [List.countP_append, List.countP_cons]
  omega

theorem countP_insert_le (m : Map κ α) (k : κ) (v : α)
    (p : (Sigma fun _ : κ => α) → Bool) :
    (m.insert k v).entries.countP p ≤ m.entries.countP p + (if p ⟨k, v⟩ then 1 else 0) := by
  rw [AList.entries_insert, List.countP_cons]
  have := (List.kerase_sublist k m.entries).countP_le (p := p)
  omega

/-! ## Loops over keys -/

/-- One entry for each key of a list. -/
def ofKeys (keys : List κ) (h : keys.Nodup) (f : κ → α) : Map κ α :=
  ⟨keys.map fun k => ⟨k, f k⟩, by
    rw [List.NodupKeys, List.keys, List.map_map]
    simpa [Function.comp_def] using h⟩

theorem lookup_ofKeys (keys : List κ) (h : keys.Nodup) (f : κ → α) (k : κ) :
    (ofKeys keys h f).lookup k = if k ∈ keys then some (f k) else none := by
  split
  · rename_i hk
    refine mem_entries_iff.mp ?_
    exact List.mem_map.mpr ⟨k, hk, rfl⟩
  · rename_i hk
    rw [Option.eq_none_iff_forall_ne_some]
    intro v hv
    obtain ⟨k', hk', heq⟩ := List.mem_map.mp (mem_entries_iff.mpr hv)
    rw [Sigma.mk.injEq] at heq
    exact hk (heq.1 ▸ hk')

/-- `entry(k).or_insert(v)` for every key of a list. -/
def insertMissing (m : Map κ α) (v : α) : List κ → Map κ α
  | [] => m
  | k :: ks => insertMissing (if k ∈ m then m else m.insert k v) v ks

theorem lookup_insertMissing (m : Map κ α) (v : α) (ks : List κ) (k : κ) :
    (insertMissing m v ks).lookup k =
      if k ∈ ks then some ((m.lookup k).getD v) else m.lookup k := by
  induction ks generalizing m with
  | nil => rfl
  | cons k' ks ih =>
      rw [insertMissing, ih]
      by_cases hk' : k' ∈ m
      · simp only [hk', if_true, List.mem_cons]
        by_cases hk : k = k'
        · subst hk
          obtain ⟨x, hx⟩ := mem_iff_exists.mp hk'
          simp [hx]
        · simp [hk]
      · simp only [hk', if_false, List.mem_cons, lookup_insert]
        by_cases hk : k = k'
        · subst hk
          simp [AList.lookup_eq_none.mpr hk']
        · simp [hk]

/-- `remove(k)` for every key of a list. -/
def eraseKeys (m : Map κ α) : List κ → Map κ α
  | [] => m
  | k :: ks => eraseKeys (m.erase k) ks

theorem lookup_eraseKeys (m : Map κ α) (ks : List κ) (k : κ) :
    (eraseKeys m ks).lookup k = if k ∈ ks then none else m.lookup k := by
  induction ks generalizing m with
  | nil => rfl
  | cons k' ks ih =>
      rw [eraseKeys, ih, lookup_erase]
      by_cases hk : k = k'
      · simp [hk]
      · simp [hk]

end Map

end Hmpc.Lib
