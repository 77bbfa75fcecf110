/-
# Hmpc.Lib.Interleaving -- the accesses of work items, in any order

A work item loads two places, and stores two results. The items of a kernel run at the same time,
so that their accesses may happen in any order that keeps the order of each item. When no item
stores to a place that another one has to do with, all orders leave the same buffer:
`run_eq_parallelFor`. What each item finds is what was there at the beginning, and what it has
stored stays, whatever the others have done so far.
-/
import Mathlib.Data.List.Count
import Hmpc.Lib.Parallel

namespace Hmpc.Lib

variable {α : Type*}

/-! ## Kernels -/

/-- The places a work item loads and stores to, and what it stores. -/
structure WorkItem (α : Type*) where
  index : ℕ
  indexStep : ℕ
  writeIndex : ℕ
  writeIndexStep : ℕ
  first : α → α → α
  second : α → α → α

/-- The work items, and the buffer they load from when it is not the one they store to. -/
structure Kernel (α : Type*) where
  source : Option (ℕ → α)
  workItem : ℕ → WorkItem α

/-- How far a work item is, and what it has loaded. -/
inductive Progress (α : Type*)
  | idle
  | loaded (u : α)
  | ready (u v : α)
  | stored (u v : α)
  | done

def Progress.accesses : Progress α → ℕ
  | idle => 0
  | loaded _ => 1
  | ready _ _ => 2
  | stored _ _ => 3
  | done => 4

theorem Progress.accesses_le (progress : Progress α) : progress.accesses ≤ 4 := by
  cases progress <;> simp [accesses]

/-- The buffer that is written, and the work items. -/
structure Execution (α : Type*) where
  buffer : ℕ → α
  progress : ℕ → Progress α

/-- Before the first access. -/
def Execution.start (buffer : ℕ → α) : Execution α := ⟨buffer, fun _ => .idle⟩

namespace Kernel

variable (k : Kernel α)

def index (id : ℕ) : ℕ := (k.workItem id).index
def indexStep (id : ℕ) : ℕ := (k.workItem id).indexStep
def writeIndex (id : ℕ) : ℕ := (k.workItem id).writeIndex
def writeIndexStep (id : ℕ) : ℕ := (k.workItem id).writeIndexStep
def first (id : ℕ) : α → α → α := (k.workItem id).first
def second (id : ℕ) : α → α → α := (k.workItem id).second

def load (buffer : ℕ → α) (p : ℕ) : α := (k.source.getD buffer) p

/-- All accesses of a work item. -/
def item (id : ℕ) (buffer : ℕ → α) : ℕ → α :=
  let u := k.load buffer (k.index id)
  let v := k.load buffer (k.indexStep id)
  Function.update (Function.update buffer (k.writeIndex id) (k.first id u v))
    (k.writeIndexStep id) (k.second id u v)

/-- A work item of a kernel that loads from a buffer of its own, -/
theorem item_from (source : ℕ → α) (workItem : ℕ → WorkItem α) (id : ℕ) (buffer : ℕ → α) :
    (Kernel.mk (some source) workItem).item id buffer =
      Function.update (Function.update buffer (workItem id).writeIndex
          ((workItem id).first (source (workItem id).index) (source (workItem id).indexStep)))
        (workItem id).writeIndexStep
        ((workItem id).second (source (workItem id).index) (source (workItem id).indexStep)) :=
  rfl

/-- and of one that loads from the buffer it stores to. -/
theorem item_inPlace (workItem : ℕ → WorkItem α) (id : ℕ) (buffer : ℕ → α) :
    (Kernel.mk none workItem).item id buffer =
      Function.update (Function.update buffer (workItem id).writeIndex
          ((workItem id).first (buffer (workItem id).index) (buffer (workItem id).indexStep)))
        (workItem id).writeIndexStep
        ((workItem id).second (buffer (workItem id).index) (buffer (workItem id).indexStep)) :=
  rfl

/-- The next access of a work item. -/
def access (id : ℕ) (e : Execution α) : Execution α :=
  match e.progress id with
  | .idle =>
    ⟨e.buffer, Function.update e.progress id (.loaded (k.load e.buffer (k.index id)))⟩
  | .loaded u =>
    ⟨e.buffer, Function.update e.progress id (.ready u (k.load e.buffer (k.indexStep id)))⟩
  | .ready u v =>
    ⟨Function.update e.buffer (k.writeIndex id) (k.first id u v),
      Function.update e.progress id (.stored u v)⟩
  | .stored u v =>
    ⟨Function.update e.buffer (k.writeIndexStep id) (k.second id u v),
      Function.update e.progress id .done⟩
  | .done => e

/-- The work items whose accesses happen, one after the other. -/
def run (accesses : List ℕ) (e : Execution α) : Execution α :=
  accesses.foldl (fun e id => k.access id e) e

/-- The places that a work item stores to. -/
def Stores (id p : ℕ) : Prop := p = k.writeIndex id ∨ p = k.writeIndexStep id

/-- The places of the buffer that a work item loads. -/
def Loads (id p : ℕ) : Prop := k.source = none ∧ (p = k.index id ∨ p = k.indexStep id)

/-- No work item stores to a place that another one has to do with. -/
structure RaceFree (items : ℕ) : Prop where
  distinct : ∀ id < items, k.writeIndex id ≠ k.writeIndexStep id
  apart : ∀ id < items, ∀ id' < items, id ≠ id' → ∀ p, k.Stores id p →
    ¬ k.Stores id' p ∧ ¬ k.Loads id' p

/-- All accesses of each of the work items. -/
def Complete (items : ℕ) (accesses : List ℕ) : Prop :=
  (∀ id ∈ accesses, id < items) ∧ ∀ id < items, accesses.count id = 4

/-! ## What holds between two accesses -/

/-- What a work item is to store first, -/
def firstOf (buffer : ℕ → α) (id : ℕ) : α :=
  k.first id (k.load buffer (k.index id)) (k.load buffer (k.indexStep id))

/-- and second. -/
def secondOf (buffer : ℕ → α) (id : ℕ) : α :=
  k.second id (k.load buffer (k.index id)) (k.load buffer (k.indexStep id))

/-- What a work item has loaded is from the buffer before the kernel. -/
def Loaded (buffer : ℕ → α) (id : ℕ) : Progress α → Prop
  | .loaded u => u = k.load buffer (k.index id)
  | .ready u v | .stored u v =>
    u = k.load buffer (k.index id) ∧ v = k.load buffer (k.indexStep id)
  | _ => True

/-- The work items do not notice each other. -/
structure Invariant (items : ℕ) (before : ℕ → α) (e : Execution α) : Prop where
  loaded : ∀ id < items, k.Loaded before id (e.progress id)
  unread : ∀ id < items, (e.progress id).accesses ≤ 2 → ∀ p, k.Loads id p → e.buffer p = before p
  first : ∀ id < items, 3 ≤ (e.progress id).accesses →
    e.buffer (k.writeIndex id) = k.firstOf before id
  second : ∀ id < items, 4 ≤ (e.progress id).accesses →
    e.buffer (k.writeIndexStep id) = k.secondOf before id
  frame : ∀ p, (∀ id < items, ¬ k.Stores id p) → e.buffer p = before p

variable {k} {items id id' p : ℕ} {before : ℕ → α} {e : Execution α}

theorem access_progress_of_ne (h : id' ≠ id) : (k.access id e).progress id' = e.progress id' := by
  unfold access
  split <;> simp only [Function.update_of_ne h]

theorem access_accesses :
    ((k.access id e).progress id).accesses = min 4 ((e.progress id).accesses + 1) := by
  cases h : e.progress id <;> simp [access, h, Progress.accesses]

/-- Only the places of the work item change. -/
theorem access_buffer_of_not (h : ¬ k.Stores id p) : (k.access id e).buffer p = e.buffer p := by
  obtain ⟨hfirst, hsecond⟩ := not_or.mp h
  unfold access
  split
  · rfl
  · rfl
  · exact Function.update_of_ne hfirst _ _
  · exact Function.update_of_ne hsecond _ _
  · rfl

theorem access_buffer_of_le (h : (e.progress id).accesses ≤ 1) :
    (k.access id e).buffer = e.buffer := by
  cases hprogress : e.progress id <;> simp [access, hprogress, Progress.accesses] at h ⊢

/-- Loads find what was there at the beginning. -/
theorem Invariant.load_eq (h : k.Invariant items before e) (hid : id < items)
    (haccesses : (e.progress id).accesses ≤ 2) (hp : p = k.index id ∨ p = k.indexStep id) :
    k.load e.buffer p = k.load before p := by
  unfold load
  cases hsource : k.source with
  | none => exact h.unread id hid haccesses p ⟨hsource, hp⟩
  | some source => rfl

theorem Invariant.start (k : Kernel α) (items : ℕ) (before : ℕ → α) :
    k.Invariant items before (.start before) where
  loaded _ _ := trivial
  unread _ _ _ _ _ := rfl
  first _ _ h := absurd h (show ¬ 3 ≤ 0 by omega)
  second _ _ h := absurd h (show ¬ 4 ≤ 0 by omega)
  frame _ _ := rfl

/-- The item whose access it is finds its own accesses as they were. -/
theorem Invariant.access_self (h : k.Invariant items before e) (hid : id < items)
    (hdistinct : k.writeIndex id ≠ k.writeIndexStep id) :
    k.Loaded before id ((k.access id e).progress id) ∧
    (3 ≤ ((k.access id e).progress id).accesses →
      (k.access id e).buffer (k.writeIndex id) = k.firstOf before id) ∧
    (4 ≤ ((k.access id e).progress id).accesses →
      (k.access id e).buffer (k.writeIndexStep id) = k.secondOf before id) := by
  have hloaded := h.loaded id hid
  have hfirst := h.first id hid
  have hsecond := h.second id hid
  have hload (p : ℕ) := h.load_eq (p := p) hid
  -- one case for each access: both loads, then both stores
  cases hprogress : e.progress id with
  | idle =>
      simp only [hprogress] at hload
      simp only [access, hprogress, Function.update_self]
      exact ⟨hload _ (Nat.zero_le 2) (.inl rfl), fun h => absurd h (show ¬ 3 ≤ 1 by omega),
        fun h => absurd h (show ¬ 4 ≤ 1 by omega)⟩
  | loaded u =>
      simp only [hprogress] at hload hloaded
      simp only [access, hprogress, Function.update_self]
      exact ⟨⟨hloaded, hload _ (show 1 ≤ 2 by omega) (.inr rfl)⟩,
        fun h => absurd h (show ¬ 3 ≤ 2 by omega), fun h => absurd h (show ¬ 4 ≤ 2 by omega)⟩
  | ready u v =>
      simp only [hprogress] at hloaded
      simp only [access, hprogress, Function.update_self]
      obtain ⟨rfl, rfl⟩ := hloaded
      exact ⟨⟨rfl, rfl⟩, fun _ => rfl, fun h => absurd h (show ¬ 4 ≤ 3 by omega)⟩
  | stored u v =>
      simp only [hprogress] at hloaded hfirst
      simp only [access, hprogress, Function.update_self]
      obtain ⟨rfl, rfl⟩ := hloaded
      refine ⟨trivial, fun _ => ?_, fun _ => rfl⟩
      rw [Function.update_of_ne hdistinct]
      exact hfirst (show 3 ≤ 3 by omega)
  | done =>
      simp only [hprogress] at hfirst hsecond
      simp only [access, hprogress]
      exact ⟨trivial, fun _ => hfirst (show 3 ≤ 4 by omega), fun _ => hsecond (show 4 ≤ 4 by omega)⟩

/-- An access. -/
theorem Invariant.access (hrace : k.RaceFree items) (h : k.Invariant items before e)
    (hid : id < items) : k.Invariant items before (k.access id e) := by
  have hself := h.access_self hid (hrace.distinct id hid)
  have hother {id' p : ℕ} (hid' : id' < items) (hne : id' ≠ id)
      (hp : k.Stores id' p ∨ k.Loads id' p) : (k.access id e).buffer p = e.buffer p := by
    apply access_buffer_of_not
    intro hstores
    obtain ⟨hnot, hnot'⟩ := hrace.apart id hid id' hid' hne.symm p hstores
    exact hp.elim hnot hnot'
  -- the item itself has made the access; of the others nothing is touched
  refine ⟨?_, ?_, ?_, ?_, ?_⟩
  · intro id' hid'
    rcases eq_or_ne id' id with rfl | hne
    · exact hself.1
    · rw [access_progress_of_ne hne]
      exact h.loaded id' hid'
  · intro id' hid' haccesses p hp
    rcases eq_or_ne id' id with rfl | hne
    · rw [access_accesses] at haccesses
      rw [access_buffer_of_le (by omega)]
      exact h.unread id' hid' (by omega) p hp
    · rw [access_progress_of_ne hne] at haccesses
      rw [hother hid' hne (.inr hp)]
      exact h.unread id' hid' haccesses p hp
  · intro id' hid' haccesses
    rcases eq_or_ne id' id with rfl | hne
    · exact hself.2.1 haccesses
    · rw [access_progress_of_ne hne] at haccesses
      rw [hother hid' hne (.inl (.inl rfl))]
      exact h.first id' hid' haccesses
  · intro id' hid' haccesses
    rcases eq_or_ne id' id with rfl | hne
    · exact hself.2.2 haccesses
    · rw [access_progress_of_ne hne] at haccesses
      rw [hother hid' hne (.inl (.inr rfl))]
      exact h.second id' hid' haccesses
  · intro p hp
    rw [access_buffer_of_not (hp id hid)]
    exact h.frame p hp

/-- All accesses of a list. -/
theorem Invariant.run (hrace : k.RaceFree items) {accesses : List ℕ}
    (hlt : ∀ id ∈ accesses, id < items) (h : k.Invariant items before e) :
    k.Invariant items before (k.run accesses e) ∧
      ∀ id, ((k.run accesses e).progress id).accesses =
        min 4 ((e.progress id).accesses + accesses.count id) := by
  induction accesses generalizing e with
  | nil =>
      refine ⟨h, fun id => ?_⟩
      exact (Nat.min_eq_right (e.progress id).accesses_le).symm
  | cons first accesses ih =>
      obtain ⟨hinvariant, hcount⟩ := ih (fun id hid => hlt id (List.mem_cons_of_mem _ hid))
        (h.access hrace (hlt first List.mem_cons_self))
      refine ⟨hinvariant, fun id => ?_⟩
      refine (hcount id).trans ?_
      rcases eq_or_ne id first with rfl | hne
      · rw [access_accesses, List.count_cons_self]
        omega
      · rw [access_progress_of_ne hne, List.count_cons_of_ne hne.symm]

/-- A buffer after the kernel: what the work items store, and the rest as it was. -/
structure Finished (k : Kernel α) (items : ℕ) (before after : ℕ → α) : Prop where
  first : ∀ id < items, after (k.writeIndex id) = k.firstOf before id
  second : ∀ id < items, after (k.writeIndexStep id) = k.secondOf before id
  frame : ∀ p, (∀ id < items, ¬ k.Stores id p) → after p = before p

/-- There is only one. -/
theorem Finished.unique {after after' : ℕ → α} (h : k.Finished items before after)
    (h' : k.Finished items before after') : after = after' := by
  funext p
  by_cases hp : ∀ id < items, ¬ k.Stores id p
  · rw [h.frame p hp, h'.frame p hp]
  · push Not at hp
    obtain ⟨id, hid, rfl | rfl⟩ := hp
    · rw [h.first id hid, h'.first id hid]
    · rw [h.second id hid, h'.second id hid]

theorem finished_run (hrace : k.RaceFree items) {accesses : List ℕ}
    (hcomplete : Complete items accesses) (before : ℕ → α) :
    k.Finished items before (k.run accesses (.start before)).buffer := by
  obtain ⟨h, hcount⟩ := (Invariant.start k items before).run hrace hcomplete.1
  have hall (id : ℕ) (hid : id < items) :
      ((k.run accesses (.start before)).progress id).accesses = 4 := by
    rw [hcount id, hcomplete.2 id hid]
    rfl
  exact ⟨fun id hid => h.first id hid (by have := hall id hid; omega),
    fun id hid => h.second id hid (by have := hall id hid; omega), h.frame⟩

/-! ## Work items one after the other -/

/-- All accesses of an item that has not begun. -/
theorem run_item (h : e.progress id = .idle) : k.run (List.replicate 4 id) e =
    ⟨k.item id e.buffer, Function.update e.progress id .done⟩ := by
  show k.access id (k.access id (k.access id (k.access id e))) = _
  simp only [Kernel.access, h, Function.update_self, Function.update_idem]
  rfl

theorem run_append (accesses accesses' : List ℕ) (e : Execution α) :
    k.run (accesses ++ accesses') e = k.run accesses' (k.run accesses e) := List.foldl_append

/-- Whole items are accesses that are not interleaved. -/
theorem run_items {order : List ℕ} (hnodup : order.Nodup)
    (hidle : ∀ id ∈ order, e.progress id = .idle) :
    (k.run (order.flatMap (List.replicate 4)) e).buffer = parallelFor order k.item e.buffer := by
  induction order generalizing e with
  | nil => rfl
  | cons first order ih =>
      obtain ⟨hnot, hnodup⟩ := List.nodup_cons.mp hnodup
      rw [List.flatMap_cons, run_append, run_item (hidle first List.mem_cons_self)]
      refine ih hnodup fun id hid => ?_
      have hne : id ≠ first := fun h => hnot (h ▸ hid)
      exact (Function.update_of_ne hne _ _).trans (hidle id (List.mem_cons_of_mem _ hid))

theorem complete_items {order : List ℕ} (horder : order.Perm (List.range items)) :
    Complete items (order.flatMap (List.replicate 4)) := by
  have hmem {id : ℕ} : id ∈ order ↔ id < items := by rw [horder.mem_iff, List.mem_range]
  refine ⟨fun id hid => ?_, fun id hid => ?_⟩
  · obtain ⟨id', hid', hrep⟩ := List.mem_flatMap.mp hid
    rw [List.eq_of_mem_replicate hrep]
    exact hmem.mp hid'
  · have hcount : (order.flatMap (List.replicate 4)).count id = 4 * order.count id := by
      clear horder hmem
      induction order with
      | nil => rfl
      | cons first order ih =>
          rw [List.flatMap_cons, List.count_append, ih, List.count_replicate, List.count_cons]
          split_ifs <;> omega
    rw [hcount, List.count_eq_one_of_mem (horder.nodup_iff.mpr List.nodup_range) (hmem.mpr hid)]

/-- **Without races** the work items leave the same buffer in every order of their accesses. -/
theorem run_eq_parallelFor (hrace : k.RaceFree items) {accesses order : List ℕ}
    (hcomplete : Complete items accesses) (horder : order.Perm (List.range items))
    (before : ℕ → α) :
    (k.run accesses (.start before)).buffer = parallelFor order k.item before := by
  have hitems := run_items (k := k) (e := .start before) (horder.nodup_iff.mpr List.nodup_range)
    fun _ _ => rfl
  rw [← show (Execution.start before).buffer = before from rfl, ← hitems]
  exact (finished_run hrace hcomplete before).unique
    (finished_run hrace (complete_items horder) before)

end Kernel

/-! ## Places -/

/-- Two places of each work item, in a buffer of which every place belongs to one of them. -/
structure Pairing (size items : ℕ) (a b : ℕ → ℕ) : Prop where
  inside : ∀ id < items, a id < size ∧ b id < size
  apart : ∀ id < items, ∀ id' < items, id ≠ id' →
    a id ≠ a id' ∧ a id ≠ b id' ∧ b id ≠ a id' ∧ b id ≠ b id'
  once : ∀ p < size, ∃! x : ℕ × Bool, x.1 < items ∧ (if x.2 then b x.1 else a x.1) = p

section

variable {size items : ℕ} {a b : ℕ → ℕ}

theorem pairing_of_injective (hinside : ∀ id < items, a id < size ∧ b id < size)
    (ha : ∀ id < items, ∀ id' < items, a id = a id' → id = id')
    (hb : ∀ id < items, ∀ id' < items, b id = b id' → id = id')
    (hab : ∀ id < items, ∀ id' < items, a id ≠ b id')
    (honto : ∀ p < size, ∃ id < items, a id = p ∨ b id = p) : Pairing size items a b where
  inside := hinside
  apart id hid id' hid' hne := ⟨fun h => hne (ha id hid id' hid' h), hab id hid id' hid',
    (hab id' hid' id hid).symm, fun h => hne (hb id hid id' hid' h)⟩
  once p hp := by
    obtain ⟨id, hid, h | h⟩ := honto p hp
    · refine ⟨(id, false), ⟨hid, h⟩, ?_⟩
      rintro ⟨id', second⟩ ⟨hid', h'⟩
      cases second with
      | false => rw [ha id' hid' id hid (h'.trans h.symm)]
      | true => exact absurd (h.trans h'.symm) (hab id hid id' hid')
    · refine ⟨(id, true), ⟨hid, h⟩, ?_⟩
      rintro ⟨id', second⟩ ⟨hid', h'⟩
      cases second with
      | false => exact absurd (h'.trans h.symm) (hab id' hid' id hid)
      | true => rw [hb id' hid' id hid (h'.trans h.symm)]

/-- The two places of one work item differ. -/
theorem Pairing.ne (h : Pairing size items a b) {id : ℕ} (hid : id < items) : a id ≠ b id := by
  intro heq
  obtain ⟨x, -, hunique⟩ := h.once (a id) (h.inside id hid).1
  have hfirst := hunique (id, false) ⟨hid, rfl⟩
  have hsecond := hunique (id, true) ⟨hid, heq.symm⟩
  exact Bool.false_ne_true (congrArg Prod.snd (hfirst.trans hsecond.symm))

/-- Work items that store to places of their own, and load no others of this buffer. -/
theorem Kernel.raceFree_of_pairing {α : Type*} {k : Kernel α}
    (h : Pairing size items k.writeIndex k.writeIndexStep)
    (hloads : k.source = none → ∀ id < items,
      k.index id = k.writeIndex id ∧ k.indexStep id = k.writeIndexStep id) :
    k.RaceFree items where
  distinct _ hid := h.ne hid
  apart id hid id' hid' hne p hp := by
    obtain ⟨h₁, h₂, h₃, h₄⟩ := h.apart id hid id' hid' hne
    have hstores : ¬ k.Stores id' p := by
      rcases hp with rfl | rfl
      · rintro (h | h)
        · exact h₁ h
        · exact h₂ h
      · rintro (h | h)
        · exact h₃ h
        · exact h₄ h
    refine ⟨hstores, ?_⟩
    rintro ⟨hsource, hload⟩
    obtain ⟨hindex, hstep⟩ := hloads hsource id' hid'
    rw [hindex, hstep] at hload
    exact hstores hload

end

end Hmpc.Lib
