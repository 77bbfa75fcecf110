/-
# Hmpc.Net.QueueTotal -- when an operation of a queue returns

An operation panics in an assertion, in an iterator over chunks of size zero, or, in a build that
checks for it, in an overflow. Without overflow checks, and with a consistency task that answers
`Ok`, this module says exactly which arguments an operation returns for.
-/
import Hmpc.Net.QueueRun

namespace Hmpc.Net

open BaseMessageID

variable {δ : Type} {build : QueueBuild} {hash : List Byte → Hash} {p : PartyID}

theorem guard_bind {α : Type} {P : Prop} [Decidable P] (f : Unit → Option α) :
    (guard P : Option Unit).bind f = if P then f () else none := by
  by_cases h : P
  · rw [(Option.guard_eq_some' _).mpr h, if_pos h]
    rfl
  · have hnone : (guard P : Option Unit) = none := by simp [h]
    rw [hnone, if_neg h]
    rfl

/-- From a state of party `p`, a step returns another one. -/
def Returns (p : PartyID) (r : Option (QueueState δ)) : Prop := ∃ s', r = some s' ∧ s'.id = p

theorem Returns.isSome {r : Option (QueueState δ)} (h : Returns p r) : r.isSome = true := by
  obtain ⟨s', rfl, -⟩ := h
  rfl

theorem Returns.bind {r : Option (QueueState δ)} {f : QueueState δ → Option (QueueState δ)}
    (hr : Returns p r) (hf : ∀ s, s.id = p → Returns p (f s)) : Returns p (r.bind f) := by
  obtain ⟨s, rfl, hs⟩ := hr
  exact hf s hs

/-- A loop returns when its body does. -/
theorem returns_foldlM {α : Type} {f : QueueState δ → α → Option (QueueState δ)} {l : List α}
    (hf : ∀ a ∈ l, ∀ s, s.id = p → Returns p (f s a)) {s : QueueState δ} (hs : s.id = p) :
    Returns p (l.foldlM f s) := by
  induction l generalizing s with
  | nil => exact ⟨s, rfl, hs⟩
  | cons a l ih =>
      rw [List.foldlM_cons]
      exact (hf a List.mem_cons_self s hs).bind fun s' hs' =>
        ih (fun b hb => hf b (List.mem_cons_of_mem a hb)) hs'

section Steps

variable (hchecks : build.overflowChecks = false) {s : QueueState δ} (hs : s.id = p)

include hchecks

theorem QueueBuild.add_eq_of_unchecked (x y : BitVec 64) : build.add x y = some (x + y) := by
  rw [QueueBuild.add, hchecks]
  rfl

include hs

theorem returns_nextRound : Returns p (s.nextRound build) := by
  unfold QueueState.nextRound
  split
  · rw [QueueBuild.add_eq_of_unchecked hchecks]
    exact ⟨_, rfl, hs⟩
  · exact ⟨s, rfl, hs⟩

theorem returns_sendOn (message : Message) (data : δ) :
    Returns p (s.sendOn build message data) := by
  unfold QueueState.sendOn
  split
  · rw [QueueBuild.add_eq_of_unchecked hchecks]
    exact ⟨_, rfl, hs⟩
  · exact ⟨_, rfl, hs⟩

theorem returns_receiveOn (message : Message) (data : δ) :
    Returns p (s.receiveOn build message data) := by
  unfold QueueState.receiveOn
  split
  · rw [QueueBuild.add_eq_of_unchecked hchecks]
    exact ⟨_, rfl, hs⟩
  · exact ⟨_, rfl, hs⟩

/-- An ID is always allocated. -/
theorem returns_withID {kind : MessageKind} {datatype : MessageDatatype} {key : Hash}
    {f : MessageID × QueueState δ → Option (QueueState δ)}
    (hf : ∀ id s', s'.id = p → Returns p (f (id, s'))) :
    Returns p ((s.updateCounter build kind datatype key).bind f) := by
  have hcounter : ∃ counter, s.nextCounter build (kind, datatype, key) = some counter := by
    unfold QueueState.nextCounter
    split
    · exact ⟨_, QueueBuild.add_eq_of_unchecked hchecks _ _⟩
    · exact ⟨1, rfl⟩
  obtain ⟨counter, hcounter⟩ := hcounter
  have hupdate : s.updateCounter build kind datatype key =
      some (idOfKey key + counter,
        { s with counters := s.counters.insert (kind, datatype, key) counter }) := by
    rw [QueueState.updateCounter, hcounter]
    simp only [Option.bind_eq_bind, Option.bind_some, QueueBuild.add_eq_of_unchecked hchecks]
  rw [hupdate]
  exact hf _ _ hs

omit hchecks in
theorem returns_ensureConsistency (needed : Bool) :
    Returns p (s.ensureConsistency build needed true) := by
  unfold QueueState.ensureConsistency
  split
  · exact ⟨_, rfl, hs⟩
  · exact ⟨s, rfl, hs⟩

omit hchecks in
theorem id_checkConsistency (check : ConsistencyCheck) :
    (s.checkConsistency build check).id = p := by
  unfold QueueState.checkConsistency
  split <;> exact hs

theorem returns_broadcastOne (communicator : Communicator) (e : Broadcast × δ) :
    Returns p (s.broadcastOne build hash communicator e) := by
  apply returns_withID hchecks hs
  intro id s' hs'
  dsimp only
  split
  · exact returns_foldlM (fun _ _ s hs => returns_sendOn hchecks hs _ _) hs'
  · exact returns_receiveOn hchecks (id_checkConsistency hs' _) _ _

/-- A receiver needs data for each party, another party one. -/
theorem returns_gatherOne {communicator : Communicator} {e : Gather × List δ}
    (hreceiver : e.1.receiver = p → communicator.toList.length = e.2.length)
    (hsender : e.1.receiver ≠ p → e.2.length = 1) :
    Returns p (s.gatherOne build hash communicator e) := by
  apply returns_withID hchecks hs
  intro id s' hs'
  dsimp only
  split
  · rename_i h
    rw [Option.bind_eq_bind, guard_bind, if_pos (hreceiver (h.trans hs'))]
    exact returns_foldlM (fun _ _ s hs => returns_receiveOn hchecks hs _ _) hs'
  · rename_i h
    obtain ⟨data, hdata⟩ := List.length_eq_one_iff.mp (hsender fun he => h (he.trans hs'.symm))
    rw [hdata]
    exact returns_sendOn hchecks hs' _ _

theorem returns_allGatherOne (senders receivers : Communicator) (e : AllGather × List δ) :
    Returns p (s.allGatherOne build hash senders receivers e) := by
  apply returns_withID hchecks hs
  intro id s' hs'
  refine returns_foldlM (fun ⟨sender, data⟩ _ s hs => ?_) hs'
  rw [QueueState.allGatherFrom]
  split
  · exact returns_foldlM (fun _ _ s hs => returns_sendOn hchecks hs _ _) hs
  · exact returns_receiveOn hchecks (id_checkConsistency hs _) _ _

theorem returns_allToAllOne (communicator : Communicator) (e : AllToAll × List δ × List δ) :
    Returns p (s.allToAllOne build hash communicator e) := by
  apply returns_withID hchecks hs
  intro id s' hs'
  refine returns_foldlM (fun ⟨party, sendData, receiveData⟩ _ s hs => ?_) hs'
  rw [QueueState.allToAllWith]
  split
  · exact (returns_sendOn hchecks hs _ _).bind fun s hs => returns_receiveOn hchecks hs _ _
  · exact ⟨s, rfl, hs⟩

end Steps

/-! ## Operations -/

section Operations

variable (hchecks : build.overflowChecks = false) {s : QueueState δ}

theorem Vec2d.rows_isSome_iff {α : Type} {v : Vec2d α} :
    v.rows.isSome = true ↔ v.innerExtent ≠ 0 := by
  unfold Vec2d.rows
  split <;> simp_all

include hchecks

theorem multiBroadcast_isSome {messages : List Broadcast} {communicator : Communicator}
    {data : List δ} (hlength : messages.length = data.length) :
    (s.multiBroadcast build hash messages communicator data true).isSome = true := by
  unfold QueueState.multiBroadcast
  rw [Option.bind_eq_bind, guard_bind, if_pos hlength]
  refine Returns.isSome (p := s.id) ?_
  refine (returns_ensureConsistency rfl _).bind fun s₁ h₁ => ?_
  refine (returns_nextRound hchecks h₁).bind fun s₂ h₂ => ?_
  exact returns_foldlM (fun e _ s hs => returns_broadcastOne hchecks hs _ _) h₂

/-- What the wait and the new round do not decide. -/
theorem isSome_start {needed : Bool} {f : QueueState δ → Option (QueueState δ)} {P : Prop}
    (hf : ∀ s', s'.id = s.id → ((f s').isSome = true ↔ P)) :
    (((s.ensureConsistency build needed true).bind fun s =>
      (s.nextRound build).bind f).isSome = true ↔ P) := by
  have hreturns : Returns s.id (s.ensureConsistency build needed true) :=
    returns_ensureConsistency rfl needed
  obtain ⟨s₁, hensure, h₁⟩ := hreturns
  obtain ⟨s₂, hround, h₂⟩ := returns_nextRound hchecks h₁
  rw [hensure, Option.bind_some, hround]
  exact hf s₂ h₂

omit hchecks in
/-- The loops of the other operations run over the rows of their data. -/
theorem isSome_rows {α : Type} {data : Vec2d α} {f : List (List α) → Option (QueueState δ)}
    (hf : ∀ rows, data.rows = some rows → Returns p (f rows)) :
    (data.rows.bind f).isSome = true ↔ data.innerExtent ≠ 0 := by
  rw [← Vec2d.rows_isSome_iff]
  cases hrows : data.rows with
  | none => rfl
  | some rows => exact ⟨fun _ => rfl, fun _ => (hf rows hrows).isSome⟩

theorem multiGather_isSome_iff {messages : List Gather} {communicator : Communicator}
    {data : Vec2d δ} (houter : messages.length = data.outerExtent)
    (hreceiver : ∀ m ∈ messages, m.receiver = s.id →
      communicator.toList.length = data.innerExtent)
    (hsender : ∀ m ∈ messages, m.receiver ≠ s.id → data.innerExtent = 1) :
    (s.multiGather build hash messages communicator data true).isSome = true ↔
      data.innerExtent ≠ 0 := by
  unfold QueueState.multiGather
  rw [Option.bind_eq_bind, guard_bind, if_pos houter]
  refine isSome_start hchecks fun s' hs' => isSome_rows (p := s.id) fun rows hrows => ?_
  obtain ⟨-, hwidth⟩ := Vec2d.rows_length hrows
  refine returns_foldlM (fun e he s hs => returns_gatherOne hchecks hs ?_ ?_) hs'
  · intro h
    rw [hwidth _ (List.of_mem_zip he).2]
    exact hreceiver _ (List.of_mem_zip he).1 h
  · intro h
    rw [hwidth _ (List.of_mem_zip he).2]
    exact hsender _ (List.of_mem_zip he).1 h

theorem extendedMultiAllGather_isSome_iff {messages : List AllGather}
    {senders receivers : Communicator} {data : Vec2d δ}
    (hinner : senders.toList.length = data.innerExtent)
    (houter : messages.length = data.outerExtent) (hsubset : senders.isSubset receivers = true) :
    (s.extendedMultiAllGather build hash messages senders receivers data true).isSome = true ↔
      s.id ∈ receivers ∧ data.innerExtent ≠ 0 := by
  unfold QueueState.extendedMultiAllGather
  simp only [Option.bind_eq_bind, guard_bind, if_pos hinner, if_pos houter, if_pos hsubset]
  by_cases hmember : s.id ∈ receivers
  · rw [if_pos hmember, and_iff_right hmember]
    refine isSome_start hchecks fun s' hs' => isSome_rows (p := s.id) fun rows hrows => ?_
    exact returns_foldlM (fun e _ s hs => returns_allGatherOne hchecks hs _ _ _) hs'
  · rw [if_neg hmember]
    exact ⟨nofun, fun h => absurd h.1 hmember⟩

theorem multiAllToAll_isSome_iff {messages : List AllToAll} {communicator : Communicator}
    {sendData receiveData : Vec2d δ}
    (hsendInner : communicator.toList.length = sendData.innerExtent)
    (hreceiveInner : communicator.toList.length = receiveData.innerExtent)
    (hsendOuter : messages.length = sendData.outerExtent)
    (hreceiveOuter : messages.length = receiveData.outerExtent) :
    (s.multiAllToAll build hash messages communicator sendData receiveData true).isSome = true ↔
      s.id ∈ communicator := by
  unfold QueueState.multiAllToAll
  simp only [Option.bind_eq_bind, guard_bind, if_pos hsendInner, if_pos hreceiveInner,
    if_pos hsendOuter, if_pos hreceiveOuter]
  by_cases hmember : s.id ∈ communicator
  · have hpos : communicator.toList.length ≠ 0 := List.length_pos_iff.mpr
      (List.ne_nil_of_mem hmember) |>.ne'
    rw [if_pos hmember, iff_true_right hmember]
    have hsend : sendData.innerExtent ≠ 0 := hsendInner ▸ hpos
    have hreceive : receiveData.innerExtent ≠ 0 := hreceiveInner ▸ hpos
    refine (isSome_start hchecks (P := sendData.innerExtent ≠ 0) fun s' hs' => ?_).mpr hsend
    refine isSome_rows (p := s.id) fun sendRows _ => ?_
    obtain ⟨receiveRows, hrows⟩ := Option.isSome_iff_exists.mp (Vec2d.rows_isSome_iff.mpr hreceive)
    rw [hrows]
    exact returns_foldlM (fun e _ s hs => returns_allToAllOne hchecks hs _ _) hs'
  · rw [if_neg hmember]
    exact ⟨nofun, fun h => absurd h hmember⟩

end Operations

end Hmpc.Net
