/-
# Hmpc.Net.SystemHistory -- the logs of the queues, read off the common history

All parties number the collectives of the history alike. So the log of a queue that has started the
operations of a part of the history says the same as the numbered collectives of that part do:
what it sends, what it wants to receive and which checks it requests (`Says`).
-/
import Hmpc.Net.SystemQueue

namespace Hmpc.Net

open Hmpc.Lib Hmpc.Lib.Loops Hmpc.Lib.Numbering

variable {sessions : Bool} {δ : Type}

/-! ## Lists without repetition -/

/-- Elements that are told apart within each class are told apart. -/
theorem nodup_map_of_classes {α β κ : Type} [DecidableEq β] {l : List α} {key : α → κ}
    (cls : α → β) (hcls : ∀ a b, key a = key b → cls a = cls b)
    (h : ∀ c, ((l.filter fun a => decide (cls a = c)).map key).Nodup) : (l.map key).Nodup := by
  rw [List.Nodup, List.pairwise_map, List.pairwise_iff_forall_sublist]
  intro a b hsub hkey
  have hclass := hcls a b hkey
  have hfilter := hsub.filter fun x => decide (cls x = cls b)
  simp only [List.filter_cons, hclass, decide_true, if_true, List.filter_nil] at hfilter
  have hnodup := (hfilter.map key).nodup (h (cls b))
  simp [hkey] at hnodup

/-- Lists of at most one entry each, whose entries tell where they come from. -/
theorem nodup_flatMap_of_origin {α β κ κ' : Type} {l : List α} {f : α → List β} {key : β → κ}
    {origin : α → κ'} (horigin : (l.map origin).Nodup) (hone : ∀ a, (f a).length ≤ 1)
    (h : ∀ a a', ∀ b ∈ f a, ∀ b' ∈ f a', key b = key b' → origin a = origin a') :
    ((l.flatMap f).map key).Nodup := by
  rw [List.map_flatMap, List.nodup_flatMap]
  refine ⟨fun a _ => ?_, ?_⟩
  · have hlength := hone a
    match f a, hlength with
    | [], _ => exact List.nodup_nil
    | [b], _ => exact List.nodup_singleton _
  · rw [List.Nodup, List.pairwise_map] at horigin
    refine horigin.imp fun {a a'} hne k hk hk' => ?_
    obtain ⟨b, hb, rfl⟩ := List.mem_map.mp hk
    obtain ⟨b', hb', heq⟩ := List.mem_map.mp hk'
    exact hne (h a a' b hb b' hb' heq.symm)

/-! ## The numbered collectives of a history -/

/-- A collective with the number of collectives of its key before it. -/
abbrev Numbered := Collective × ℕ

variable {hash : List Byte → Hash}

def Numbered.id (hash : List Byte → Hash) (e : Numbered) : MessageID := e.1.messageID hash e.2

def Numbered.message (hash : List Byte → Hash) (e : Numbered) (p q : PartyID) : Message :=
  e.1.message p q (e.id hash)

/-- What the ID of a collective is unique for. -/
def Numbered.triple (hash : List Byte → Hash) (e : Numbered) :
    MessageKind × MessageDatatype × MessageID :=
  (e.1.kind, e.1.datatype, e.id hash)

def numbered (hash : List Byte → Hash) (history : List Operation) : List Numbered :=
  number (Collective.key hash) (history.flatMap Operation.collectives)

theorem numbered_initial {h history : List Operation} (hpre : h <+: history) :
    numbered hash h <+: numbered hash history := by
  obtain ⟨rest, rfl⟩ := hpre
  rw [numbered, numbered, List.flatMap_append, number, number, numberFrom_append]
  exact List.prefix_append _ _

theorem exists_operation {history : List Operation} {e : Numbered}
    (he : e ∈ numbered hash history) : ∃ o ∈ history, e.1 ∈ o.collectives :=
  List.mem_flatMap.mp (mem_of_mem_number _ he)

/-- The operations have the four kinds of data. -/
theorem kind_of_collectives {o : Operation} {i : Collective} (hi : i ∈ o.collectives) :
    i.kind.isConsistencyCheck = false := by
  cases o with
  | broadcast messages communicator => obtain ⟨m, -, rfl⟩ := List.mem_map.mp hi; rfl
  | gather messages communicator => obtain ⟨m, -, rfl⟩ := List.mem_map.mp hi; rfl
  | allGather messages senders receivers => obtain ⟨m, -, rfl⟩ := List.mem_map.mp hi; rfl
  | allToAll messages communicator => obtain ⟨m, -, rfl⟩ := List.mem_map.mp hi; rfl

theorem receiver_of_sends {i : Collective} {p q : PartyID} (hkind : i.kind.needsCheck = true)
    (h : i.sends p q = true) : q ∈ i.receivers := by
  obtain ⟨kind, datatype, members, size, senders, receivers, harity⟩ := i
  cases kind <;> simp_all [Collective.sends, MessageKind.needsCheck]

/-- In a collective of a checked kind, a sender sends to every other receiver. -/
theorem sends_of_receiver {i : Collective} {p q r : PartyID} (hkind : i.kind.needsCheck = true)
    (h : i.sends p q = true) (hr : r ∈ i.receivers) (hne : r ≠ p) : i.sends p r = true := by
  obtain ⟨kind, datatype, members, size, senders, receivers, harity⟩ := i
  cases kind <;> simp_all [Collective.sends, MessageKind.needsCheck] <;> exact fun h => hne h.symm

/-! ## What a log says -/

/-- The log of party `p` after the operations `h` of the history in which it takes part. -/
structure Says (hash : List Byte → Hash) (p : PartyID) (h : List Operation)
    (log : List (Action δ)) : Prop where
  sends : ∀ m, (∃ data, .send m data ∈ log) ↔ ∃ e ∈ numbered hash h,
    e.1.sends p m.receiver = true ∧ m = e.message hash p m.receiver
  wants : ∀ m, m ∈ log.flatMap Action.receiveOf ↔ ∃ e ∈ numbered hash h,
    e.1.sends m.sender p = true ∧ m = e.message hash m.sender p
  requests : ∀ check, check ∈ log.flatMap Action.requestOf ↔ ∃ e ∈ numbered hash h,
    e.1.sends check.sender p = true ∧ check ∈ e.1.checks check.sender p (e.id hash)
  shared : ∀ m data m' data', .send m data ∈ log → .send m' data' ∈ log →
    m.kind.needsCheck = true → (m.kind, m.datatype, m.id) = (m'.kind, m'.datatype, m'.id) →
    data = data'
  wantsOnce : ((log.flatMap Action.receiveOf).map fun m =>
    (m.kind, m.datatype, m.sender, m.id)).Nodup
  requestsOnce : ((log.flatMap Action.requestOf).map requestKey).Nodup

/-- The entry of a sender among the wanted messages, in the two ways of listing them. -/
theorem filter_receiveOf (log : List (Action δ)) (q : PartyID) :
    ((log.flatMap Action.receiveOf).filter fun m => decide (m.sender = q)) =
      log.flatMap (Action.requestedFrom q) := by
  rw [List.filter_flatMap]
  refine List.flatMap_congr fun a _ => ?_
  cases a with
  | receive m data =>
      simp only [Action.receiveOf, Action.requestedFrom, List.filter_cons, List.filter_nil,
        decide_eq_true_eq]
  | _ => rfl

theorem filter_requestOf (log : List (Action δ)) (q : PartyID) :
    ((log.flatMap Action.requestOf).filter fun check => decide (check.sender = q)) =
      log.flatMap (Action.checkOf q) := by
  rw [List.filter_flatMap]
  refine List.flatMap_congr fun a _ => ?_
  cases a with
  | checkConsistency check =>
      simp only [Action.requestOf, Action.checkOf, List.filter_cons, List.filter_nil,
        decide_eq_true_eq]
  | _ => rfl

theorem exists_send_iff {log : List (Action δ)} {m : Message} :
    (∃ data, .send m data ∈ log) ↔ m ∈ log.flatMap (Action.sentTo m.receiver) := by
  rw [List.mem_flatMap]
  constructor
  · rintro ⟨data, hsend⟩
    exact ⟨_, hsend, by rw [Action.sentTo, if_pos rfl]; exact List.mem_singleton.mpr rfl⟩
  · rintro ⟨a, ha, hm⟩
    cases a with
    | send m' data =>
        simp only [Action.sentTo] at hm
        split at hm
        · obtain rfl := List.mem_singleton.mp hm
          exact ⟨data, ha⟩
        · cases hm
    | _ => cases hm

variable {setup : Setup sessions δ} {history : List Operation}

section Valid

variable (hvalid : setup.Valid history) {p : PartyID} (hp : p ∈ setup.parties)
  {h : List Operation} (hpre : h <+: history)
include hvalid hpre

theorem Setup.Valid.hashes_prefix :
    Collective.CollisionFree setup.cfg.crypto.hash (h.flatMap Operation.collectives) := by
  obtain ⟨rest, rfl⟩ := hpre
  intro i hi j hj
  exact hvalid.hashes i (by rw [List.flatMap_append]; exact List.mem_append_left _ hi)
    j (by rw [List.flatMap_append]; exact List.mem_append_left _ hj)

theorem Setup.Valid.triples :
    ((numbered setup.cfg.crypto.hash h).map (Numbered.triple setup.cfg.crypto.hash)).Nodup :=
  ((numbered_initial hpre).sublist.map _).nodup hvalid.ids

include hp

/-- The collectives of the started operations of a party are its part of the history. -/
theorem Setup.Valid.collectives_filter :
    (h.filter fun o => o.party p).flatMap Operation.collectives =
      (h.flatMap Operation.collectives).filter fun i => i.party p := by
  refine (filter_flatMap _ fun o ho => ?_).symm
  by_cases hparty : o.party p = true
  · exact .inl ⟨hparty, hvalid.placed p hp o (hpre.subset ho) hparty⟩
  · refine .inr ⟨by simpa using hparty, fun i hi hi' => ?_⟩
    exact hparty (List.any_eq_true.mpr ⟨i, hi, hi'⟩)

theorem Setup.Valid.number_filter :
    (numbered setup.cfg.crypto.hash h).filter (fun e => e.1.party p) =
      number (Collective.key setup.cfg.crypto.hash)
        ((h.filter fun o => o.party p).flatMap Operation.collectives) := by
  rw [hvalid.collectives_filter hp hpre]
  exact Numbering.number_filter _ _ _ fun i hi j hj hkey =>
    Collective.party_of_key (hvalid.hashes_prefix hpre) hi hj hkey p

/-- What the numbered collectives of the own calls list about transfers of the own party. -/
theorem Setup.Valid.mem_number {β : Type} {x y : PartyID} (hown : x = p ∨ y = p)
    {f : Numbered → List β} {b : β} :
    (b ∈ (number (Collective.key setup.cfg.crypto.hash)
        ((h.filter fun o => o.party p).flatMap Operation.collectives)).flatMap
          fun e => if e.1.sends x y then f e else []) ↔
      ∃ e ∈ numbered setup.cfg.crypto.hash h, e.1.sends x y = true ∧ b ∈ f e := by
  rw [← hvalid.number_filter hp hpre, List.mem_flatMap]
  constructor
  · rintro ⟨e, he, hb⟩
    split at hb
    · rename_i hsends
      exact ⟨e, (List.mem_filter.mp he).1, hsends, hb⟩
    · cases hb
  · rintro ⟨e, he, hsends, hb⟩
    refine ⟨e, List.mem_filter.mpr ⟨he, ?_⟩, by rwa [if_pos hsends]⟩
    obtain ⟨hx, hy⟩ := Collective.party_of_sends hsends
    rcases hown with rfl | rfl
    · exact hx
    · exact hy

/-- **The log of a queue**, in terms of the history. -/
theorem Setup.Valid.says_of_calls {calls : List (Call δ)} {queue : QueueState δ}
    (hcalls : (QueueState.initial δ p).calls setup.build setup.cfg.crypto.hash
      (calls.map fun call => (call, true)) = some queue)
    (hoperations : calls.map Call.operation = h.filter fun o => o.party p) :
    Says setup.cfg.crypto.hash p h queue.log := by
  have hcollectives : collectives (calls.map fun call => (call, true)) =
      (h.filter fun o => o.party p).flatMap Operation.collectives := by
    rw [collectives, List.flatMap_map, ← hoperations, List.flatMap_map]
  have hplaced : ∀ i ∈ collectives (calls.map fun call => (call, true)), i.party p = true := by
    rw [hcollectives, hvalid.collectives_filter hp hpre]
    exact fun i hi => (List.mem_filter.mp hi).2
  have hann := announced_calls (announced_initial p) hcalls hplaced
  rw [List.nil_append, hcollectives] at hann
  have htriples : ((number (Collective.key setup.cfg.crypto.hash)
      ((h.filter fun o => o.party p).flatMap Operation.collectives)).map
        (Numbered.triple setup.cfg.crypto.hash)).Nodup := by
    rw [← hvalid.number_filter hp hpre]
    exact (List.filter_sublist.map _).nodup (hvalid.triples hpre)
  refine ⟨fun m => ?_, fun m => ?_, fun check => ?_, hann.shared htriples, ?_, ?_⟩
  · rw [exists_send_iff]
    show m ∈ queue.sentTo m.receiver ↔ _
    rw [hann.executed.sent, Collective.transfers, hvalid.mem_number hp hpre (.inl rfl)]
    simp only [List.mem_singleton]
    rfl
  · have hclass : m ∈ queue.log.flatMap Action.receiveOf ↔ m ∈ queue.requestedFrom m.sender := by
      rw [QueueState.requestedFrom, ← filter_receiveOf, List.mem_filter]
      simp
    rw [hclass, hann.executed.requested, Collective.transfers,
      hvalid.mem_number hp hpre (.inr rfl)]
    simp only [List.mem_singleton]
    rfl
  · have hclass : check ∈ queue.log.flatMap Action.requestOf ↔
        check ∈ queue.checksOf check.sender := by
      rw [QueueState.checksOf, ← filter_requestOf, List.mem_filter]
      simp
    rw [hclass, hann.checks hvalid.checked, Collective.checksFrom,
      hvalid.mem_number hp hpre (.inr rfl)]
    rfl
  · refine nodup_map_of_classes Message.sender (fun m m' hkey => ?_) fun q => ?_
    · exact congrArg (fun k => k.2.2.1) hkey
    · rw [filter_receiveOf]
      show ((queue.requestedFrom q).map _).Nodup
      rw [hann.executed.requested, Collective.transfers]
      refine nodup_flatMap_of_origin htriples (fun e => ?_) fun e e' m hm m' hm' hkey => ?_
      · split <;> simp
      · have hentry {e : Numbered} {m : Message} (hm : m ∈ if e.1.sends q p then
            [e.1.message q p (e.1.messageID setup.cfg.crypto.hash e.2)] else []) :
            e.triple setup.cfg.crypto.hash = (m.kind, m.datatype, m.id) := by
          split at hm
          · rw [List.mem_singleton.mp hm]
            rfl
          · cases hm
        obtain ⟨hkind, hrest⟩ := Prod.mk.inj hkey
        obtain ⟨hdatatype, hrest⟩ := Prod.mk.inj hrest
        rw [hentry hm, hentry hm', hkind, hdatatype, (Prod.mk.inj hrest).2]
  · refine nodup_map_of_classes ConsistencyCheck.sender (fun c c' hkey => ?_) fun q => ?_
    · exact congrArg Consistency.Key.sender hkey
    · rw [filter_requestOf]
      show ((queue.checksOf q).map _).Nodup
      rw [hann.checks hvalid.checked, Collective.checksFrom]
      refine nodup_flatMap_of_origin htriples (fun e => ?_) fun e e' c hc c' hc' hkey => ?_
      · split
        · unfold Collective.checks
          split <;> simp
        · simp
      · have hentry {e : Numbered} {c : ConsistencyCheck} (hc : c ∈ if e.1.sends q p then
            e.1.checks q p (e.1.messageID setup.cfg.crypto.hash e.2) else []) :
            e.triple setup.cfg.crypto.hash = (c.kind.1, c.datatype, c.id) := by
          split at hc
          · unfold Collective.checks at hc
            split at hc
            · rw [List.mem_singleton.mp hc]
              rfl
            · cases hc
          · cases hc
        rw [hentry hc, hentry hc']
        simp only [requestKey, Consistency.Key.mk.injEq] at hkey
        rw [hkey.1, hkey.2.1, hkey.2.2.2]

end Valid

end Hmpc.Net
