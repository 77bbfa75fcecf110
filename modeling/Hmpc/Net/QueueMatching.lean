/-
# Hmpc.Net.QueueMatching -- what one party sends is what the other one requests

Parties that execute their common operations in the same order number the collectives of these
operations alike, because all collectives of one hash have the same parties; so their transfers
agree (`send_receive_matching`).
-/
import Hmpc.Net.QueueRun

namespace Hmpc.Net

open Hmpc.Lib Hmpc.Lib.Loops Hmpc.Lib.Numbering BaseMessageID

variable {δ : Type} {build : QueueBuild} {hash : List Byte → Hash}

/-! ## Parties that execute their common operations in the same order -/

def operations (program : List (Call δ × Bool)) : List Operation :=
  program.map fun e => e.1.operation

/-- The receivers of a broadcast and the senders of what is gathered are in the communicator, the
operations have no other parties, and any two parties execute the operations that both take part in
in the same order. -/
structure Coordinated (parties : Finset PartyID) (program : PartyID → List (Call δ × Bool)) :
    Prop where
  placed : ∀ p ∈ parties, ∀ i ∈ collectives (program p), i.party p = true
  closed : ∀ p ∈ parties, ∀ i ∈ collectives (program p), ∀ q ∈ i.parties, q ∈ parties
  order : ∀ p ∈ parties, ∀ q ∈ parties,
    (operations (program p)).filter (fun o => o.party q) =
      (operations (program q)).filter fun o => o.party p

/-- Parties that take their operations from one common sequence have the same order. -/
theorem order_of_history {parties : Finset PartyID} {program : PartyID → List (Call δ × Bool)}
    (history : List Operation)
    (h : ∀ p ∈ parties, operations (program p) = history.filter fun o => o.party p) :
    ∀ p ∈ parties, ∀ q ∈ parties, (operations (program p)).filter (fun o => o.party q) =
      (operations (program q)).filter fun o => o.party p := by
  intro p hp q hq
  rw [h p hp, h q hq, List.filter_filter, List.filter_filter]
  exact List.filter_congr fun o _ => Bool.and_comm _ _

/-- What `p` executes with `q` is what `q` executes with `p`, collective for collective. -/
theorem Coordinated.common {parties : Finset PartyID} {program : PartyID → List (Call δ × Bool)}
    (h : Coordinated parties program) {p q : PartyID} (hp : p ∈ parties) (hq : q ∈ parties) :
    (collectives (program p)).filter (fun i => i.party q) =
      (collectives (program q)).filter fun i => i.party p := by
  have hfilter (p q : PartyID) (hp : p ∈ parties) (hq : q ∈ parties) :
      (collectives (program p)).filter (fun i => i.party q) =
        ((operations (program p)).filter fun o => o.party q).flatMap Operation.collectives := by
    rw [collectives, ← List.flatMap_map (fun e : Call δ × Bool => e.1.operation)]
    refine filter_flatMap _ fun o ho => ?_
    by_cases hparty : o.party q = true
    · -- `q` executes the operation as well, so it has its place in each collective
      have hmem : o ∈ (operations (program q)).filter fun o => o.party p := by
        rw [← h.order p hp q hq]
        exact List.mem_filter.mpr ⟨ho, hparty⟩
      obtain ⟨e, he, hoperation⟩ := List.mem_map.mp (List.mem_filter.mp hmem).1
      refine .inl ⟨hparty, fun i hi => h.placed q hq i (List.mem_flatMap.mpr ⟨e, he, ?_⟩)⟩
      rwa [hoperation]
    · refine .inr ⟨by simpa using hparty, fun i hi => ?_⟩
      by_contra hi'
      exact hparty (List.any_eq_true.mpr ⟨i, hi, by simpa using hi'⟩)
  rw [hfilter p q hp hq, hfilter q p hq hp, h.order p hp q hq]

/-! ### Bytes -/

/-- The bytes sent are the sizes of the messages sent to the parties, if none goes elsewhere. -/
theorem bytesSent_eq_sum {s : QueueState δ} {parties : Finset PartyID}
    (h : ∀ q, q ∉ parties → s.sentTo q = []) :
    s.bytesSent = ∑ q ∈ parties, ((s.sentTo q).map fun m => m.size.toNat).sum := by
  refine sum_map_eq_sum_flatMap _ fun a ha => ?_
  cases a with
  | send m data =>
      have hreceiver : m.receiver ∈ parties := by
        by_contra hout
        have hnil := List.flatMap_eq_nil_iff.mp (h m.receiver hout) _ ha
        rw [Action.sentTo, if_pos rfl] at hnil
        cases hnil
      simp [Action.bytesSent, Action.sentTo, apply_ite, hreceiver]
  | ensureConsistency => exact (Finset.sum_const_zero).symm
  | checkConsistency check => exact (Finset.sum_const_zero).symm
  | receive m data => exact (Finset.sum_const_zero).symm

theorem bytesReceived_eq_sum {s : QueueState δ} {parties : Finset PartyID}
    (h : ∀ q, q ∉ parties → s.requestedFrom q = []) :
    s.bytesReceived = ∑ q ∈ parties, ((s.requestedFrom q).map fun m => m.size.toNat).sum := by
  refine sum_map_eq_sum_flatMap _ fun a ha => ?_
  cases a with
  | receive m data =>
      have hsender : m.sender ∈ parties := by
        by_contra hout
        have hnil := List.flatMap_eq_nil_iff.mp (h m.sender hout) _ ha
        rw [Action.requestedFrom, if_pos rfl] at hnil
        cases hnil
      simp [Action.bytesReceived, Action.requestedFrom, apply_ite, hsender]
  | ensureConsistency => exact (Finset.sum_const_zero).symm
  | checkConsistency check => exact (Finset.sum_const_zero).symm
  | send m data => exact (Finset.sum_const_zero).symm

/-- No collective transfers anything to or from a party that takes part in none. -/
theorem transfers_eq_nil {p q r : PartyID} {is : List Collective} (hr : r = p ∨ r = q)
    (h : ∀ i ∈ is, r ∉ i.parties) : Collective.transfers hash p q is = [] := by
  refine List.flatMap_eq_nil_iff.mpr fun e he => if_neg fun hsends => ?_
  obtain ⟨hp, hq⟩ := Collective.party_of_sends hsends
  have hout := h e.1 (mem_of_mem_number _ he)
  rcases hr with rfl | rfl
  · exact hout (of_decide_eq_true hp)
  · exact hout (of_decide_eq_true hq)

/-- **What one party sends to another is what the other one requests from it**, message for
message and in the same order, after any operations that all parties have executed, if the common
operations of any two parties are in the same order at both. So all parties together send as many
bytes as they receive; the statistics count these bytes. -/
theorem send_receive_matching (build : QueueBuild) (hash : List Byte → Hash)
    (parties : Finset PartyID) (program : PartyID → List (Call δ × Bool))
    (states : PartyID → QueueState δ) (hprogram : Coordinated parties program)
    (hhash : ∀ p ∈ parties, Collective.CollisionFree hash (collectives (program p)))
    (hrun : ∀ p ∈ parties,
      (QueueState.initial δ p).calls build hash (program p) = some (states p)) :
    (∀ p ∈ parties, ∀ q ∈ parties, p ≠ q →
      (states p).sentTo q = (states q).requestedFrom p) ∧
    ∑ p ∈ parties, (states p).bytesSent = ∑ p ∈ parties, (states p).bytesReceived ∧
    ∀ p ∈ parties, (states p).Counted build := by
  have hexecuted (p : PartyID) (hp : p ∈ parties) :
      Executed build hash p (collectives (program p)) (states p) :=
    executed_calls (executed_initial p) (hrun p hp) (hprogram.placed p hp)
  have hmatch (p : PartyID) (hp : p ∈ parties) (q : PartyID) (hq : q ∈ parties) :
      (states p).sentTo q = (states q).requestedFrom p := by
    rw [(hexecuted p hp).sent q, (hexecuted q hq).requested p,
      ← Collective.transfers_filter (.inr rfl) (hhash p hp),
      ← Collective.transfers_filter (.inl rfl) (hhash q hq), hprogram.common hp hq]
  refine ⟨fun p hp q hq _ => hmatch p hp q hq, ?_, fun p hp => (hexecuted p hp).counted⟩
  -- nobody outside the parties is sent to or received from, so the sums are over pairs
  have hclosed (p : PartyID) (hp : p ∈ parties) (q : PartyID) (hq : q ∉ parties) :
      ∀ i ∈ collectives (program p), q ∉ i.parties :=
    fun i hi hout => hq (hprogram.closed p hp i hi q hout)
  have hsent : ∀ p ∈ parties, (states p).bytesSent =
      ∑ q ∈ parties, (((states p).sentTo q).map fun m => m.size.toNat).sum := by
    refine fun p hp => bytesSent_eq_sum fun q hq => ?_
    rw [(hexecuted p hp).sent q]
    exact transfers_eq_nil (.inr rfl) (hclosed p hp q hq)
  have hreceived : ∀ q ∈ parties, (states q).bytesReceived =
      ∑ p ∈ parties, (((states q).requestedFrom p).map fun m => m.size.toNat).sum := by
    refine fun q hq => bytesReceived_eq_sum fun p hp => ?_
    rw [(hexecuted q hq).requested p]
    exact transfers_eq_nil (.inl rfl) (hclosed q hq p hp)
  rw [Finset.sum_congr rfl hsent, Finset.sum_congr rfl hreceived, Finset.sum_comm]
  refine Finset.sum_congr rfl fun q hq => Finset.sum_congr rfl fun p hp => ?_
  rw [hmatch p hp q hq]

/-! ### Three parties -/

namespace Recorded

def everyone : Communicator := ⟨[0, 1, 2], by decide⟩

theorem sorted_firstTwo : List.Pairwise (· < ·) ([0, 1] : List PartyID) := by decide

def firstTwo : Communicator := ⟨[0, 1], sorted_firstTwo⟩
def outerTwo : Communicator := ⟨[0, 2], by decide⟩

/-- Two broadcasts, party 2 gathers from the others, these publish something, parties 0 and 2
exchange messages, and party 0 broadcasts again. -/
def history : List Operation :=
  [ .broadcast [⟨6, 0, 8⟩, ⟨6, 1, 16⟩] everyone,
    .gather [⟨6, 2, 4⟩] firstTwo,
    .allGather [⟨7, 32⟩] firstTwo everyone,
    .allToAll [⟨6, 2⟩, ⟨6, 3⟩] outerTwo,
    .broadcast [⟨6, 0, 8⟩] everyone ]

def units (outerExtent innerExtent : ℕ) : Vec2d Unit :=
  ⟨List.replicate (outerExtent * innerExtent) (), outerExtent, innerExtent, List.length_replicate⟩

/-- How a party calls an operation. -/
def callOf (party : PartyID) : Operation → Call Unit
  | .broadcast messages communicator =>
      .multiBroadcast messages communicator (messages.map fun _ => ())
  | .gather messages communicator =>
      .multiGather messages communicator (units messages.length
        (if party ∈ communicator then 1 else communicator.toList.length))
  | .allGather messages senders receivers =>
      .extendedMultiAllGather messages senders receivers
        (units messages.length senders.toList.length)
  | .allToAll messages communicator =>
      .multiAllToAll messages communicator (units messages.length communicator.toList.length)
        (units messages.length communicator.toList.length)

def program (party : PartyID) : List (Call Unit × Bool) :=
  (history.filter fun o => o.party party).map fun o => (callOf party o, true)

/-- SHA-256 on the digests of the history. -/
def digestHash (input : List Byte) : Hash :=
  let broadcastOf (sender : PartyID) : List Byte :=
    digestInput (⟨6, sender, 0⟩ : Broadcast) everyone everyone
  if input = broadcastOf 0 then
    bytesOf 32 0x97d3ae2ba4a15d47193ab74ac735b5c4bffde5f0413d688d2868168c2202213a
  else if input = broadcastOf 1 then
    bytesOf 32 0x7c5dd492c184a6c79c02bc80ccf6d8b7909f115767f492e9cae0875e3fca488e
  else if input = digestInput (⟨6, 2, 0⟩ : Gather) firstTwo firstTwo then
    bytesOf 32 0x13c699f7bb3ba3a07d6969632b335ced1ad4b40948211e7c0cba1c70d1a0a170
  else if input = digestInput (⟨7, 0⟩ : AllGather) firstTwo everyone then
    bytesOf 32 0xbf406de050b569b992ebcd34f46773c1e90fed72e10f25809e1123e152fd60b
  else
    bytesOf 32 0xca1c31ce0a38b7415c30cc53ee9cebaa76082cf9dab508de7a7e0c2e71a994f0

def checkedBuild : QueueBuild := ⟨true, true, true⟩

def states (party : PartyID) : QueueState Unit :=
  ((QueueState.initial Unit party).calls checkedBuild digestHash (program party)).getD
    (QueueState.initial Unit party)

/-- What holds of each of the three parties. -/
theorem forall_three {P : PartyID → Prop} (h₀ : P 0) (h₁ : P 1) (h₂ : P 2) :
    ∀ p ∈ ({0, 1, 2} : Finset PartyID), P p := by
  intro p hp
  simp only [Finset.mem_insert, Finset.mem_singleton] at hp
  rcases hp with rfl | rfl | rfl
  · exact h₀
  · exact h₁
  · exact h₂

theorem closed_of_all {p : PartyID} (h : (collectives (program p)).all (fun i =>
    i.parties.all fun q => q == 0 || q == 1 || q == 2) = true) :
    ∀ i ∈ collectives (program p), ∀ q ∈ i.parties, q ∈ ({0, 1, 2} : Finset PartyID) := by
  intro i hi q hq
  have hone := List.all_eq_true.mp (List.all_eq_true.mp h i hi) q hq
  simpa [or_assoc] using hone

theorem coordinated : Coordinated {0, 1, 2} program where
  placed := forall_three (by decide +kernel) (by decide +kernel) (by decide +kernel)
  closed := forall_three (closed_of_all (by decide +kernel)) (closed_of_all (by decide +kernel))
    (closed_of_all (by decide +kernel))
  order := order_of_history history (forall_three rfl rfl rfl)

end Recorded

theorem send_receive_matching_three :
    let s := Recorded.states
    (∀ p ∈ ({0, 1, 2} : Finset PartyID), ∀ q ∈ ({0, 1, 2} : Finset PartyID), p ≠ q →
      (s p).sentTo q = (s q).requestedFrom p) ∧
    ∑ p ∈ {0, 1, 2}, (s p).bytesSent = ∑ p ∈ {0, 1, 2}, (s p).bytesReceived ∧
    ∀ p ∈ ({0, 1, 2} : Finset PartyID), (s p).Counted Recorded.checkedBuild := by
  have hhash := Recorded.forall_three
    (P := fun p => Collective.CollisionFree Recorded.digestHash (collectives (Recorded.program p)))
    (by decide +kernel) (by decide +kernel) (by decide +kernel)
  have hsome := Recorded.forall_three
    (P := fun p => ((QueueState.initial Unit p).calls Recorded.checkedBuild Recorded.digestHash
      (Recorded.program p)).isSome = true)
    (by decide +kernel) (by decide +kernel) (by decide +kernel)
  refine send_receive_matching Recorded.checkedBuild Recorded.digestHash {0, 1, 2}
    Recorded.program Recorded.states Recorded.coordinated hhash fun p hp => ?_
  obtain ⟨s, hs⟩ := Option.isSome_iff_exists.mp (hsome p hp)
  rw [Recorded.states, hs, Option.getD_some]

end Hmpc.Net
