/-
# Hmpc.Net.MessageIDs -- the IDs a queue allocates

A queue numbers its messages with one counter for each kind, datatype and hash of the
communication pattern. What is hashed determines the pattern (`digestInput_eq_iff`), and the IDs of
a counter start at a number taken from the hash and do not repeat before the counter has used all
of them. The two additions behind an ID are those of `u64`: a build that checks for overflows
panics once the start and the counter pass the largest ID (`allocates_iff`).
-/
import Hmpc.Net.QueueRun

namespace Hmpc.Net

open Hmpc.Lib Hmpc.Lib.Numbering BaseMessageID

/-! ## What is hashed -/

/-- A message of one of the kinds for which `message!` implements `hash`. -/
inductive HashedMessage where
  | broadcast (message : Broadcast)
  | gather (message : Gather)
  | allGather (message : AllGather)
  | allToAll (message : AllToAll)

namespace HashedMessage

def kind : HashedMessage → MessageKind
  | broadcast _ => BaseMessageID.kind Broadcast
  | gather _ => BaseMessageID.kind Gather
  | allGather _ => BaseMessageID.kind AllGather
  | allToAll _ => BaseMessageID.kind AllToAll

def datatype : HashedMessage → MessageDatatype
  | broadcast m => m.datatype
  | gather m => m.datatype
  | allGather m => m.datatype
  | allToAll m => m.datatype

/-- The sender of a broadcast and the receiver of a gather; the other kinds hash no party. -/
def member : HashedMessage → Option PartyID
  | broadcast m => some m.sender
  | gather m => some m.receiver
  | allGather _ => none
  | allToAll _ => none

def digestInput (m : HashedMessage) (senders receivers : Communicator) : List Byte :=
  match m with
  | broadcast m => BaseMessageID.digestInput m senders receivers
  | gather m => BaseMessageID.digestInput m senders receivers
  | allGather m => BaseMessageID.digestInput m senders receivers
  | allToAll m => BaseMessageID.digestInput m senders receivers

/-- The message as a collective, whose size is not hashed. -/
def toCollective (m : HashedMessage) (senders receivers : Communicator) : Collective where
  kind := m.kind
  datatype := m.datatype
  members := m.member.toList
  size := 0
  senders := senders
  receivers := receivers
  arity := by cases m <;> rfl

theorem digest_toCollective (m : HashedMessage) (senders receivers : Communicator) :
    (m.toCollective senders receivers).digest = m.digestInput senders receivers := by
  cases m <;> rfl

/-- **The input of the hash determines the communication pattern**, for all communicators. -/
theorem digestInput_eq_iff (m m' : HashedMessage) (senders receivers senders' receivers' :
    Communicator) :
    m.digestInput senders receivers = m'.digestInput senders' receivers' ↔
      m.kind = m'.kind ∧ m.datatype = m'.datatype ∧ m.member = m'.member ∧
        (∀ party, party ∈ senders ↔ party ∈ senders') ∧
        (∀ party, party ∈ receivers ↔ party ∈ receivers') := by
  rw [← digest_toCollective, ← digest_toCollective]
  constructor
  · intro h
    obtain ⟨hkind, hdatatype, hmembers, hsenders, hreceivers⟩ := Collective.digest_injective h
    have hmember : m.member = m'.member := by
      have hhead := congrArg List.head? hmembers
      simpa [toCollective] using hhead
    have hsenders' : senders = senders' := hsenders
    have hreceivers' : receivers = receivers' := hreceivers
    subst hsenders' hreceivers'
    exact ⟨hkind, hdatatype, hmember, fun _ => Iff.rfl, fun _ => Iff.rfl⟩
  · rintro ⟨hkind, hdatatype, hmember, hsenders, hreceivers⟩
    obtain rfl := Communicator.ext_mem hsenders
    obtain rfl := Communicator.ext_mem hreceivers
    simp only [Collective.digest, toCollective, hkind, hdatatype, hmember]

end HashedMessage

/-! ## Runs of `update_counter` -/

variable {δ : Type}

/-- The kind, the datatype and the key of a call of `update_counter`. -/
abbrev CounterCall := MessageKind × MessageDatatype × Hash

/-- Calls of `update_counter`, one after the other, and what they return. -/
def QueueState.updateCounters (build : QueueBuild) (self : QueueState δ) :
    List CounterCall → Option (List MessageID × QueueState δ)
  | [] => some ([], self)
  | (kind, datatype, key) :: calls => do
    let (id, self) ← self.updateCounter build kind datatype key
    let (ids, self) ← self.updateCounters build calls
    return (id :: ids, self)

/-- The number of calls with the same arguments as the one at `j`, up to it. -/
def callNumber (calls : List CounterCall) (call : CounterCall) (j : ℕ) : ℕ :=
  occurrences id call (calls.take (j + 1))

/-- The calls return, the `n`-th one of some arguments with the first bytes of the key plus `n`, and
IDs for the same arguments differ until there are none left. -/
def Allocates (δ : Type) (build : QueueBuild) (party : PartyID) (calls : List CounterCall) : Prop :=
  ∃ ids self, (QueueState.initial δ party).updateCounters build calls = some (ids, self) ∧
    ids.length = calls.length ∧
    (∀ j call, calls[j]? = some call →
      ids[j]? = some (BitVec.ofNat 64 ((idOfKey call.2.2).toNat + callNumber calls call j))) ∧
    ∀ j j' call, calls[j]? = some call → calls[j']? = some call → j ≠ j' →
      callNumber calls call j ≤ 2 ^ 64 - 1 → callNumber calls call j' ≤ 2 ^ 64 - 1 →
      ids[j]? ≠ ids[j']?

variable {build : QueueBuild}

/-- The counters after the calls `seen`. -/
structure Counts (build : QueueBuild) (s : QueueState δ) (seen : List CounterCall) : Prop where
  lookup : ∀ k, s.counters.lookup k =
    if occurrences id k seen = 0 then none else some (BitVec.ofNat 64 (occurrences id k seen))
  lt : build.overflowChecks = true → ∀ k, occurrences id k seen < 2 ^ 64

theorem counts_initial (party : PartyID) : Counts build (QueueState.initial δ party) [] where
  lookup _ := rfl
  lt _ _ := Nat.two_pow_pos 64

/-- The call does not overflow, as far as the build checks. -/
def Fits (build : QueueBuild) (e : CounterCall × ℕ) : Prop :=
  build.overflowChecks = true → (idOfKey e.1.2.2).toNat + (e.2 + 1) < 2 ^ 64

instance (build : QueueBuild) (e : CounterCall × ℕ) : Decidable (Fits build e) :=
  inferInstanceAs (Decidable (_ → _))

theorem QueueBuild.add_eq (build : QueueBuild) (x y : BitVec 64) :
    build.add x y =
      if build.overflowChecks = true → x.toNat + y.toNat < 2 ^ 64 then some (x + y) else none := by
  unfold QueueBuild.add
  by_cases hlt : x.toNat + y.toNat < 2 ^ 64
  · rw [if_pos fun _ => hlt, if_neg]
    rw [Bool.and_eq_true, decide_eq_true_eq]
    omega
  · cases build.overflowChecks
    · rfl
    · rw [if_pos (by simpa using hlt), if_neg fun h => hlt (h rfl)]

/-- The next counter. -/
theorem Counts.nextCounter {self : QueueState δ} {seen : List CounterCall}
    (h : Counts build self seen) (call : CounterCall) :
    self.nextCounter build call =
      if build.overflowChecks = true → occurrences id call seen + 1 < 2 ^ 64 then
        some (BitVec.ofNat 64 (occurrences id call seen + 1))
      else none := by
  have hlt := h.lt
  unfold QueueState.nextCounter
  rw [h.lookup]
  generalize hn : occurrences id call seen = n
  by_cases hzero : n = 0
  · subst hzero
    simp
  · rw [if_neg hzero]
    show build.add (BitVec.ofNat 64 n) 1 = _
    rw [QueueBuild.add_eq, BitVec.ofNat_add]
    have hcond : (build.overflowChecks = true →
        (BitVec.ofNat 64 n).toNat + (1 : BitVec 64).toNat < 2 ^ 64) ↔
          (build.overflowChecks = true → n + 1 < 2 ^ 64) := by
      refine imp_congr_right fun hchecks => ?_
      have hn' := hlt hchecks call
      rw [hn] at hn'
      rw [BitVec.toNat_ofNat, Nat.mod_eq_of_lt hn']
      rfl
    simp only [hcond]
    rfl

/-- **One call.** It returns the ID of its number, or panics when that does not fit. -/
theorem Counts.updateCounter {self : QueueState δ} {seen : List CounterCall}
    (h : Counts build self seen) (call : CounterCall) :
    (Fits build (call, occurrences id call seen) →
      ∃ self', self.updateCounter build call.1 call.2.1 call.2.2 =
        some (BitVec.ofNat 64 ((idOfKey call.2.2).toNat + (occurrences id call seen + 1)), self') ∧
        Counts build self' (seen ++ [call])) ∧
    (¬ Fits build (call, occurrences id call seen) →
      self.updateCounter build call.1 call.2.1 call.2.2 = none) := by
  have hlt := h.lt
  have hnext := h.nextCounter call
  have hlookup := h.lookup
  generalize hn : occurrences id call seen = n at hnext ⊢
  -- the counter overflows only after the ID does
  have hcounter (hfits : Fits build (call, n)) : build.overflowChecks = true → n + 1 < 2 ^ 64 := by
    intro hchecks
    have := hfits hchecks
    dsimp only at this
    omega
  have hadd (hroom : build.overflowChecks = true → n + 1 < 2 ^ 64) :
      build.add (idOfKey call.2.2) (BitVec.ofNat 64 (n + 1)) =
        if Fits build (call, n) then
          some (BitVec.ofNat 64 ((idOfKey call.2.2).toNat + (n + 1))) else none := by
    have hcond : (build.overflowChecks = true →
        (idOfKey call.2.2).toNat + (BitVec.ofNat 64 (n + 1)).toNat < 2 ^ 64) ↔
          Fits build (call, n) := by
      refine imp_congr_right fun hchecks => ?_
      rw [BitVec.toNat_ofNat, Nat.mod_eq_of_lt (hroom hchecks)]
    rw [QueueBuild.add_eq, BitVec.ofNat_add (idOfKey call.2.2).toNat, BitVec.ofNat_toNat,
      BitVec.setWidth_eq]
    simp only [hcond]
  have hupdate : self.updateCounter build call.1 call.2.1 call.2.2 =
      (self.nextCounter build call).bind fun counter =>
        (build.add (idOfKey call.2.2) counter).bind fun messageID =>
          some (messageID, { self with counters := self.counters.insert call counter }) := rfl
  rw [hupdate, hnext]
  constructor
  · intro hfits
    rw [if_pos (hcounter hfits), Option.bind_some, hadd (hcounter hfits), if_pos hfits,
      Option.bind_some]
    refine ⟨_, rfl, ⟨fun k => ?_, fun hchecks k => ?_⟩⟩
    · show (AList.insert call _ self.counters).lookup k = _
      rw [Map.lookup_insert, occurrences_concat]
      by_cases hk : k = call
      · subst hk
        rw [if_pos rfl, id_eq, if_pos rfl, hn, if_neg (Nat.succ_ne_zero _)]
      · rw [if_neg hk, id_eq, if_neg (Ne.symm hk), hlookup]
        rfl
    · rw [occurrences_concat]
      have hk := hlt hchecks k
      have hroom := hcounter hfits hchecks
      by_cases hcall : id call = k
      · rw [if_pos hcall, ← hcall, id_eq, hn]
        exact hroom
      · rw [if_neg hcall]
        exact hk
  · intro hfits
    by_cases hroom : build.overflowChecks = true → n + 1 < 2 ^ 64
    · rw [if_pos hroom, Option.bind_some, hadd hroom, if_neg hfits]
      rfl
    · rw [if_neg hroom]
      rfl

/-- **A run.** It returns the IDs of the numbers, when all of them fit. -/
theorem Counts.updateCounters {self : QueueState δ} {seen calls : List CounterCall}
    (h : Counts build self seen) :
    ((∀ e ∈ numberFrom id seen calls, Fits build e) →
      ∃ self', self.updateCounters build calls = some ((numberFrom id seen calls).map (fun e =>
        BitVec.ofNat 64 ((idOfKey e.1.2.2).toNat + (e.2 + 1))), self')) ∧
    ((¬ ∀ e ∈ numberFrom id seen calls, Fits build e) →
      self.updateCounters build calls = none) := by
  induction calls generalizing self seen with
  | nil => exact ⟨fun _ => ⟨self, rfl⟩, fun hnot => absurd (fun _ he => nomatch he) hnot⟩
  | cons call calls ih =>
      obtain ⟨hone, hpanics⟩ := h.updateCounter call
      have hnumber : numberFrom id seen (call :: calls) =
          (call, occurrences id call seen) :: numberFrom id (seen ++ [call]) calls := rfl
      have hrun : self.updateCounters build (call :: calls) =
          (self.updateCounter build call.1 call.2.1 call.2.2).bind fun r =>
            (r.2.updateCounters build calls).bind fun r' => some (r.1 :: r'.1, r'.2) := rfl
      rw [hnumber, hrun, List.forall_mem_cons]
      -- the first ID that does not fit ends the run
      by_cases hfits : Fits build (call, occurrences id call seen)
      · obtain ⟨self', hcall, hcounts⟩ := hone hfits
        obtain ⟨hrest, hrest'⟩ := ih hcounts
        rw [hcall, Option.bind_some]
        constructor
        · rintro ⟨-, hall⟩
          obtain ⟨self'', hcalls⟩ := hrest hall
          rw [hcalls, Option.bind_some]
          exact ⟨self'', rfl⟩
        · intro hnot
          rw [hrest' fun hall => hnot ⟨hfits, hall⟩]
          rfl
      · rw [hpanics hfits]
        exact ⟨fun hall => absurd hall.1 hfits, fun _ => rfl⟩

theorem number_getElem?_eq_some {calls : List CounterCall} {j : ℕ} {call : CounterCall}
    (h : calls[j]? = some call) :
    (number id calls)[j]? = some (call, occurrences id call (calls.take j)) ∧
      callNumber calls call j = occurrences id call (calls.take j) + 1 := by
  constructor
  · rw [number, getElem?_numberFrom, h]
    rfl
  · rw [callNumber, List.take_add_one, h, Option.toList_some, occurrences_concat, id_eq, if_pos rfl]

/-- **Message IDs.** They are allocated as stated in every run whose IDs fit `u64`, and in a build
that does not check for overflows in all runs. -/
theorem allocates_iff (δ : Type) (build : QueueBuild) (party : PartyID)
    (calls : List CounterCall) :
    Allocates δ build party calls ↔
      (build.overflowChecks = true → ∀ j call, calls[j]? = some call →
        (idOfKey call.2.2).toNat + callNumber calls call j < 2 ^ 64) := by
  have hinitial : Counts build (QueueState.initial δ party) [] := counts_initial party
  obtain ⟨hreturns, hpanics⟩ := @Counts.updateCounters δ build _ _ calls hinitial
  have hfits : (∀ e ∈ numberFrom id [] calls, Fits build e) ↔
      (build.overflowChecks = true → ∀ j call, calls[j]? = some call →
        (idOfKey call.2.2).toNat + callNumber calls call j < 2 ^ 64) := by
    constructor
    · intro hall hchecks j call hcall
      obtain ⟨hmem, hnumber⟩ := number_getElem?_eq_some hcall
      rw [hnumber]
      exact hall _ (List.mem_of_getElem? hmem) hchecks
    · intro hall e he hchecks
      obtain ⟨j, hj⟩ := List.mem_iff_getElem?.mp he
      have hindex := hj
      rw [getElem?_numberFrom] at hindex
      obtain ⟨call, hcall, -⟩ := Option.map_eq_some_iff.mp hindex
      obtain ⟨hmem, hnumber⟩ := number_getElem?_eq_some hcall
      clear hindex
      obtain rfl := Option.some.inj (hj.symm.trans hmem)
      have := hall hchecks j call hcall
      rwa [hnumber] at this
  rw [← hfits]
  constructor
  · rintro ⟨ids, self, hrun, -⟩
    by_contra hnot
    rw [hpanics hnot] at hrun
    cases hrun
  · intro hall
    obtain ⟨self, hrun⟩ := hreturns hall
    have hvalue (j : ℕ) (call : CounterCall) (hcall : calls[j]? = some call) :
        ((numberFrom id [] calls).map (fun e =>
          BitVec.ofNat 64 ((idOfKey e.1.2.2).toNat + (e.2 + 1))))[j]? =
            some (BitVec.ofNat 64 ((idOfKey call.2.2).toNat + callNumber calls call j)) := by
      obtain ⟨hmem, hnumber⟩ := number_getElem?_eq_some hcall
      rw [number] at hmem
      rw [List.getElem?_map, hmem, hnumber]
      rfl
    refine ⟨_, self, hrun, ?_, hvalue, ?_⟩
    · rw [List.length_map, length_numberFrom]
    · intro j j' call hcall hcall' hne hle hle'
      rw [hvalue j call hcall, hvalue j' call hcall']
      intro hequal
      -- of one key the later call has the greater number, and both fit
      have hnumbers : callNumber calls call j ≠ callNumber calls call j' := by
        rcases Nat.lt_or_gt_of_ne hne with hlt | hlt
        · exact (occurrences_take_lt id hlt hcall').ne
        · exact (occurrences_take_lt id hlt hcall).ne'
      have htoNat := congrArg BitVec.toNat (Option.some.inj hequal)
      rw [BitVec.toNat_ofNat, BitVec.toNat_ofNat] at htoNat
      generalize callNumber calls call j = n at *
      generalize callNumber calls call j' = n' at *
      omega

/-- A key whose first eight bytes are the largest ID. -/
def lastKey : Hash := ⟨List.replicate 32 0xFF, rfl⟩

theorem last_key_panics :
    (QueueState.initial Unit 0).updateCounters ⟨true, true, true⟩ [(.broadcast, 0, lastKey)] =
        none ∧
      ¬ Allocates Unit ⟨true, true, true⟩ 0 [(.broadcast, 0, lastKey)] := by
  have hpanics : ((QueueState.initial Unit 0).updateCounters ⟨true, true, true⟩
      [(.broadcast, 0, lastKey)]).isNone = true := by decide +kernel
  rw [Option.isNone_iff_eq_none] at hpanics
  refine ⟨hpanics, ?_⟩
  rintro ⟨ids, self, hrun, -⟩
  rw [hpanics] at hrun
  cases hrun

end Hmpc.Net
