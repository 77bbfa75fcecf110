/-
# Hmpc.Net.ConsistencyRun -- whole runs of the consistency task

`Known` is what a sequence of commands says about one key: the first request, the first data and
the first check of each party. It is the abstract state of the task, one per key. `Tracks` relates
it to the entry the task keeps: nothing, an entry that collects data and checks before the request,
a registered entry that waits for the remaining checks, or a finished operation. One lemma per
command carries it over a step, so that it holds after every run in which each request finds only
checks of its own receivers (`Covered`).

From it follow the soundness of `Wait` (`wait_sound`) and, for commands of honest parties, that
every check completes (`honest_checks_complete`). The condition `Covered` is needed: `register`
returns early when it finds a check it did not expect and leaves the entry unregistered, and
`unexpected_check_hides_request` is a run in which a `Wait` is then answered too early.
-/
import Hmpc.Net.Consistency

namespace Hmpc.Net.Consistency

open Hmpc.Lib

variable {f : Features}

/-! ## What is known about a key -/

def Op.requestOf (key : Key) : Op → Option Communicator
  | .request key' receivers => if key' = key then some receivers else none
  | _ => none

def Op.dataOf (key : Key) : Op → Option CheckData
  | .data key' received => if key' = key then some received else none
  | _ => none

def Op.checkOf (key : Key) (receiver : PartyID) : Op → Option CheckData
  | .check key' receiver' sent => if key' = key ∧ receiver' = receiver then some sent else none
  | _ => none

structure Known where
  request : Option Communicator
  data : Option CheckData
  checks : PartyID → Option CheckData

/-- The first request, the first data and the first check of each party. -/
def known (key : Key) (ops : List Op) : Known where
  request := ops.findSome? (Op.requestOf key)
  data := ops.findSome? (Op.dataOf key)
  checks r := ops.findSome? (Op.checkOf key r)

/-- What is known after one more command. -/
def Known.add (k : Known) (key : Key) (op : Op) : Known where
  request := k.request.or (op.requestOf key)
  data := k.data.or (op.dataOf key)
  checks r := (k.checks r).or (op.checkOf key r)

theorem known_concat (key : Key) (ops : List Op) (op : Op) :
    known key (ops ++ [op]) = (known key ops).add key op := by
  simp [known, Known.add, List.findSome?_append]

theorem Op.requestOf_eq_some_iff {key : Key} {op : Op} {receivers : Communicator} :
    op.requestOf key = some receivers ↔ op = .request key receivers := by
  cases op <;> simp [Op.requestOf]

theorem Op.dataOf_eq_some_iff {key : Key} {op : Op} {check : CheckData} :
    op.dataOf key = some check ↔ op = .data key check := by
  cases op <;> simp [Op.dataOf]

theorem Op.checkOf_eq_some_iff {key : Key} {op : Op} {receiver : PartyID} {check : CheckData} :
    op.checkOf key receiver = some check ↔ op = .check key receiver check := by
  cases op <;> simp [Op.checkOf, and_assoc]

/-- What is known came with a command. -/
theorem mem_of_known_request {key : Key} {ops : List Op} {receivers : Communicator}
    (h : (known key ops).request = some receivers) : .request key receivers ∈ ops := by
  obtain ⟨op, hop, heq⟩ := List.exists_of_findSome?_eq_some h
  exact Op.requestOf_eq_some_iff.mp heq ▸ hop

theorem mem_of_known_data {key : Key} {ops : List Op} {check : CheckData}
    (h : (known key ops).data = some check) : .data key check ∈ ops := by
  obtain ⟨op, hop, heq⟩ := List.exists_of_findSome?_eq_some h
  exact Op.dataOf_eq_some_iff.mp heq ▸ hop

theorem mem_of_known_checks {key : Key} {ops : List Op} {r : PartyID} {check : CheckData}
    (h : (known key ops).checks r = some check) : .check key r check ∈ ops := by
  obtain ⟨op, hop, heq⟩ := List.exists_of_findSome?_eq_some h
  exact Op.checkOf_eq_some_iff.mp heq ▸ hop

/-- What is known about the data of an operation never changes. -/
theorem known_data_append {key : Key} {ops : List Op}
    (ops' : List Op) {data : CheckData} (h : (known key ops).data = some data) :
    (known key (ops ++ ops')).data = some data := by
  have h' : ops.findSome? (Op.dataOf key) = some data := h
  show (ops ++ ops').findSome? (Op.dataOf key) = some data
  rw [List.findSome?_append, h', Option.some_or]

/-- A request, data or a check that came is known, if not itself then by an earlier one. -/
theorem known_request_isSome {key : Key} {ops : List Op} {receivers : Communicator}
    (h : .request key receivers ∈ ops) : (known key ops).request.isSome := by
  rw [known, List.findSome?_isSome_iff]
  exact ⟨_, h, by simp [Op.requestOf]⟩

theorem known_data_isSome {key : Key} {ops : List Op} {check : CheckData}
    (h : .data key check ∈ ops) : (known key ops).data.isSome := by
  rw [known, List.findSome?_isSome_iff]
  exact ⟨_, h, by simp [Op.dataOf]⟩

theorem known_checks_isSome {key : Key} {ops : List Op} {r : PartyID} {check : CheckData}
    (h : .check key r check ∈ ops) : ((known key ops).checks r).isSome := by
  rw [known, List.findSome?_isSome_iff]
  exact ⟨_, h, by simp [Op.checkOf]⟩

@[simp] theorem Known.add_of_key_ne {key : Key} {k : Known} {op : Op} (h : op.key? ≠ some key) :
    k.add key op = k := by
  have hrequest : op.requestOf key = none := by
    cases op <;> simp_all [Op.requestOf, Op.key?]
  have hdata : op.dataOf key = none := by
    cases op <;> simp_all [Op.dataOf, Op.key?]
  have hcheck (r : PartyID) : op.checkOf key r = none := by
    cases op <;> simp_all [Op.checkOf, Op.key?]
  simp [Known.add, hrequest, hdata, hcheck]

@[simp] theorem Known.add_request (k : Known) (key : Key) (receivers : Communicator) :
    k.add key (.request key receivers) = { k with request := k.request.or (some receivers) } := by
  simp [Known.add, Op.requestOf, Op.dataOf, Op.checkOf]

@[simp] theorem Known.add_data (k : Known) (key : Key) (check : CheckData) :
    k.add key (.data key check) = { k with data := k.data.or (some check) } := by
  simp [Known.add, Op.requestOf, Op.dataOf, Op.checkOf]

@[simp] theorem Known.add_check (k : Known) (key : Key) (receiver : PartyID) (check : CheckData) :
    k.add key (.check key receiver check) =
      { k with checks := fun r =>
          (k.checks r).or (if receiver = r then some check else none) } := by
  simp [Known.add, Op.requestOf, Op.dataOf, Op.checkOf]

/-- An operation whose data is known and whose receivers have all sent a valid check. -/
def Known.Complete (t : Task f) (key : Key) (k : Known) : Prop :=
  ∃ receivers received, k.request = some receivers ∧ k.data = some received ∧
    ∀ r ∈ receivers, ∃ check, k.checks r = some check ∧ Valid t key received r check

theorem Known.Complete.add {t : Task f} {key : Key} {k : Known} (h : k.Complete t key) (op : Op) :
    (k.add key op).Complete t key := by
  obtain ⟨receivers, received, hrequest, hdata, hchecks⟩ := h
  refine ⟨receivers, received, by simp [Known.add, hrequest], by simp [Known.add, hdata],
    fun r hr => ?_⟩
  obtain ⟨check, hcheck, hvalid⟩ := hchecks r hr
  exact ⟨check, by simp [Known.add, hcheck], hvalid⟩

/-! ## What the entry of a key records -/

/-- An entry before the request: it keeps all that is known, which is something. -/
structure Collecting (k : Known) (v : Value) : Prop where
  heard : k.data.isSome ∨ ∃ r, (k.checks r).isSome
  registered : v.registered = false
  request : k.request = none
  received : v.received = k.data
  receivers : ∀ r, v.receivers.lookup r = (k.checks r).map some

/-- A registered entry: of each receiver it keeps what is known, unless the check of that receiver
was found valid and removed; it keeps nothing of others. -/
structure Registered (t : Task f) (key : Key) (k : Known) (v : Value) : Prop where
  registered : v.registered = true
  received : v.received = k.data
  receivers : ∃ receivers, k.request = some receivers ∧
    (∀ r, r ∉ receivers → v.receivers.lookup r = none) ∧
    ∀ r ∈ receivers, v.receivers.lookup r = some (k.checks r) ∨
      (v.receivers.lookup r = none ∧ ∃ received check, k.data = some received ∧
        k.checks r = some check ∧ Valid t key received r check)

/-- A registered entry with data stays because a stored check is invalid or one is missing. -/
def Stuck (t : Task f) (key : Key) (v : Value) : Prop :=
  ∀ received, v.received = some received →
    (∃ r check, v.receivers.lookup r = some (some check) ∧ ¬ Valid t key received r check) ∨
    ((∀ r check, v.receivers.lookup r ≠ some (some check)) ∧ ∃ r, v.receivers.lookup r = some none)

/-- How the entry of a key relates to what is known about the key, up to the moment the operation
is complete. -/
inductive Live (t : Task f) (key : Key) (k : Known) : Option Value → Prop
  | untouched (request : k.request = none) (data : k.data = none)
      (checks : ∀ r, k.checks r = none) : Live t key k none
  | collecting {v : Value} (h : Collecting k v) : Live t key k (some v)
  | waiting {v : Value} (h : Registered t key k v) (stuck : Stuck t key v) : Live t key k (some v)
  | done (complete : k.Complete t key) : Live t key k none

/-- What comes for a key after its operation is complete may leave an unregistered entry again. -/
def Tracks (t : Task f) (key : Key) (k : Known) (entry : Option Value) : Prop :=
  Live t key k entry ∨ (k.Complete t key ∧ ∀ v, entry = some v → v.registered = false)

/-- Without the stored checks there are the receivers left of which there is none yet. -/
theorem lookup_eraseKeys_stored {receivers : Map PartyID (Option CheckData)}
    {stored : List PartyID}
    (hmem : ∀ r, r ∈ stored ↔ ∃ check, receivers.lookup r = some (some check)) (r : PartyID) :
    (Map.eraseKeys receivers stored).lookup r =
      if receivers.lookup r = some none then some none else none := by
  rw [Map.lookup_eraseKeys]
  by_cases hr : r ∈ stored
  · obtain ⟨check, hstored⟩ := (hmem r).mp hr
    simp [hr, hstored]
  · rcases hstored : receivers.lookup r with _ | (_ | check)
    · simp [hr]
    · simp [hr]
    · exact absurd ((hmem r).mpr ⟨check, hstored⟩) hr

section

variable {t : Task f} {key : Key} {k : Known} {v : Value} {received : CheckData}
  (h : Registered t key k v) (hdata : k.data = some received)
  (hvalid : ∀ r check, v.receivers.lookup r = some (some check) → Valid t key received r check)
include h hdata hvalid

/-- An entry that waits for no receiver, when the stored checks are valid. -/
theorem Registered.complete (hopen : ∀ r, v.receivers.lookup r ≠ some none) :
    k.Complete t key := by
  obtain ⟨receivers, hrequest, -, hreceivers⟩ := h.receivers
  refine ⟨receivers, received, hrequest, hdata, fun r hr => ?_⟩
  rcases hreceivers r hr with hkept | ⟨-, received', check, hdata', hcheck', hv⟩
  · cases hchecks : k.checks r with
    | none =>
        rw [hchecks] at hkept
        exact absurd hkept (hopen r)
    | some check =>
        rw [hchecks] at hkept
        exact ⟨check, rfl, hvalid r check hkept⟩
  · rw [hdata] at hdata'
    exact ⟨check, hcheck', Option.some.inj hdata' ▸ hv⟩

/-- The receivers that are left when the valid checks are removed. -/
theorem Registered.removed {receivers : Map PartyID (Option CheckData)}
    (hlookup : ∀ r, receivers.lookup r =
      if v.receivers.lookup r = some none then some none else none) :
    Registered t key k ⟨v.received, receivers, true⟩ := by
  obtain ⟨communicator, hrequest, hother, hreceivers⟩ := h.receivers
  refine ⟨rfl, h.received, communicator, hrequest, fun r hr => ?_, fun r hr => ?_⟩
  · simp [hlookup, hother r hr]
  · rcases hreceivers r hr with hkept | ⟨hnone, hv⟩
    · cases hchecks : k.checks r with
      | none =>
          rw [hchecks] at hkept
          exact .inl (by simp [hlookup, hkept])
      | some check =>
          rw [hchecks] at hkept
          exact .inr ⟨by simp [hlookup, hkept], received, check, hdata, rfl,
            hvalid r check hkept⟩
    · exact .inr ⟨by simp [hlookup, hnone], hv⟩

end

/-- `check` on a registered entry removes it exactly when the operation is complete. -/
theorem live_settle {t : Task f} {key : Key} {k : Known} {v : Value}
    (h : Registered t key k v) : Live t key k (settle t key v) := by
  cases hreceived : v.received with
  | none =>
      have hcheck : v.check t key = (v, .ok false) := Value.check_of_not_ready (.inr hreceived)
      simp only [settle, hcheck]
      refine .waiting h fun received hr => ?_
      rw [hreceived] at hr
      cases hr
  | some received =>
      have hdata : k.data = some received := by rw [← h.received, hreceived]
      by_cases hvalid : ∀ r check, v.receivers.lookup r = some (some check) →
          Valid t key received r check
      · obtain ⟨valid, hcheck, hmem⟩ := Value.check_of_valid h.registered hreceived hvalid
        simp only [settle, hcheck]
        -- a receiver without a stored check is either open or was found valid before
        have hlookup := lookup_eraseKeys_stored hmem
        split
        · rename_i hdone
          have hempty : Map.eraseKeys v.receivers valid = ∅ := by
            simpa [Value.isDone, hreceived, AList.ext_iff] using hdone
          refine .done (h.complete hdata hvalid fun r hopen => ?_)
          have hleft := hlookup r
          rw [hempty, if_pos hopen] at hleft
          cases hleft
        · rename_i hdone
          refine .waiting (h.removed hdata hvalid hlookup) fun _ _ =>
            .inr ⟨fun r check => ?_, ?_⟩
          · dsimp only
            rw [hlookup]
            split <;> simp
          · by_contra hall
            apply hdone
            have hempty : Map.eraseKeys v.receivers valid = ∅ := by
              refine Map.eq_empty_of_lookup fun r => ?_
              have hopen := not_exists.mp hall r
              rw [hlookup] at hopen ⊢
              split at hopen
              · exact absurd rfl hopen
              · rename_i hnot
                exact if_neg hnot
            simp [Value.isDone, hempty, hreceived]
      · have hinvalid : ∃ r check, v.receivers.lookup r = some (some check) ∧
            ¬ Valid t key received r check := by
          by_contra hnot
          refine hvalid fun r check hstored => ?_
          by_contra hv
          exact hnot ⟨r, check, hstored, hv⟩
        obtain ⟨e, hcheck⟩ := Value.check_of_invalid h.registered hreceived hinvalid
        simp only [settle, hcheck]
        refine .waiting h fun received' hr => .inl ?_
        rw [hreceived] at hr
        exact Option.some.inj hr ▸ hinvalid

/-- A registered entry that stays is not complete. -/
theorem not_complete_of_stuck {t : Task f} {key : Key} {k : Known} {v : Value}
    (h : Registered t key k v) (hstuck : Stuck t key v) : ¬ k.Complete t key := by
  rintro ⟨receivers, received, hrequest, hdata, hchecks⟩
  obtain ⟨receivers', hrequest', hother, hreceivers⟩ := h.receivers
  obtain rfl : receivers = receivers' := Option.some.inj (hrequest.symm.trans hrequest')
  have hknown (r : PartyID) (stored : Option CheckData)
      (hstored : v.receivers.lookup r = some stored) : r ∈ receivers ∧ k.checks r = stored := by
    by_cases hr : r ∈ receivers
    · rcases hreceivers r hr with hkept | ⟨hnone, -⟩
      · exact ⟨hr, Option.some.inj (hkept.symm.trans hstored)⟩
      · rw [hnone] at hstored
        cases hstored
    · rw [hother r hr] at hstored
      cases hstored
  rcases hstuck received (h.received.trans hdata) with
    ⟨r, check, hstored, hinvalid⟩ | ⟨-, r, hstored⟩
  · obtain ⟨hr, hcheck⟩ := hknown r _ hstored
    obtain ⟨check', hcheck', hvalid⟩ := hchecks r hr
    rw [hcheck] at hcheck'
    exact hinvalid (Option.some.inj hcheck' ▸ hvalid)
  · obtain ⟨hr, hcheck⟩ := hknown r _ hstored
    obtain ⟨check', hcheck', -⟩ := hchecks r hr
    rw [hcheck] at hcheck'
    cases hcheck'

/-- An unregistered entry is left alone by `check`. -/
theorem settle_of_not_registered {t : Task f} {key : Key} {v : Value} (h : v.registered = false) :
    settle t key v = some v := by
  have hcheck : v.check t key = (v, .ok false) := Value.check_of_not_ready (.inl h)
  rw [settle, hcheck]

/-! ## One command -/

theorem Value.lookup_newRequest (receivers : Communicator) (r : PartyID) :
    (newRequest receivers).receivers.lookup r = if r ∈ receivers then some none else none :=
  Map.lookup_ofKeys receivers.toList receivers.nodup (fun _ => none) r

theorem Value.lookup_newReceived (receiver : PartyID) (sent : CheckData) (r : PartyID) :
    (newReceived receiver sent).receivers.lookup r =
      if receiver = r then some (some sent) else none := by
  have := Map.lookup_ofKeys [receiver] (List.nodup_singleton _) (fun _ => some sent) r
  simpa [newReceived, eq_comm] using this

theorem live_request {t : Task f} {key : Key} {k : Known} {entry : Option Value}
    (h : Live t key k entry) {receivers : Communicator} (hnew : k.request = none)
    (hcovered : ∀ v, entry = some v → v.coveredBy receivers = true) :
    Live t key (k.add key (.request key receivers))
      (entryAfter t entry (.request key receivers)) := by
  rw [Known.add_request, hnew, Option.none_or]
  cases h with
  -- the request is the first that is known of the key
  | untouched _ hdata hchecks =>
      refine .waiting ⟨rfl, hdata.symm, receivers, rfl, fun r hr => ?_, fun r hr => .inl ?_⟩ ?_
      · rw [Value.lookup_newRequest, if_neg hr]
      · rw [Value.lookup_newRequest, if_pos hr, hchecks]
      · intro received hreceived
        cases hreceived
  | @collecting v hv =>
      -- checks have come before: their receivers must be among those of the request
      have hcov := hcovered v rfl
      simp only [entryAfter, Value.register_of_covered hv.registered hcov]
      apply live_settle
      refine ⟨rfl, hv.received, receivers, rfl, fun r hr => ?_, fun r hr => .inl ?_⟩
      · have hnone : v.receivers.lookup r = none := by
          refine AList.lookup_eq_none.mpr fun hmem => hr ?_
          exact Value.coveredBy_iff.mp hcov r hmem
        exact (Map.lookup_insertMissing _ _ _ r).trans ((if_neg hr).trans hnone)
      · refine (Map.lookup_insertMissing _ _ _ r).trans ((if_pos hr).trans ?_)
        rw [hv.receivers]
        cases k.checks r <;> rfl
  | waiting hv =>
      obtain ⟨_, hrequest, -⟩ := hv.receivers
      rw [hnew] at hrequest
      cases hrequest
  | done hcomplete =>
      obtain ⟨_, _, hrequest, -⟩ := hcomplete
      rw [hnew] at hrequest
      cases hrequest

/-- What `receive_data` leaves in an entry: the first data. -/
theorem Value.receiveData_fst (v : Value) (received : CheckData) :
    (v.receiveData received).1 = { v with received := v.received.or (some received) } := by
  obtain ⟨_ | _, receivers, registered⟩ := v <;> rfl

theorem live_data {t : Task f} {key : Key} {k : Known} {entry : Option Value}
    (h : Live t key k entry) (hopen : ¬ k.Complete t key) (received : CheckData) :
    Live t key (k.add key (.data key received)) (entryAfter t entry (.data key received)) := by
  cases h with
  | untouched hrequest hdata hchecks =>
      refine .collecting ⟨.inl (by simp), rfl, ?_, ?_, fun r => ?_⟩
      · simp [hrequest]
      · simp [hdata, Value.newReceivedData]
      · simp [hchecks, Value.newReceivedData]
  | @collecting v hv =>
      simp only [entryAfter, Value.receiveData_fst]
      rw [settle_of_not_registered (by exact hv.registered)]
      exact .collecting ⟨.inl (by simp), hv.registered, by simp [hv.request],
        by simp [hv.received], by simp [hv.receivers]⟩
  | @waiting v hv _ =>
      simp only [entryAfter, Value.receiveData_fst]
      obtain ⟨receivers, hrequest, hother, hreceivers⟩ := hv.receivers
      apply live_settle
      refine ⟨hv.registered, by simp [hv.received], receivers, by simp [hrequest], hother,
        fun r hr => ?_⟩
      rcases hreceivers r hr with hkept | ⟨hnone, received', check, hdata, hcheck, hvalid⟩
      · exact .inl (by simpa using hkept)
      · exact .inr ⟨hnone, received', check, by simp [hdata], by simpa using hcheck, hvalid⟩
  | done hcomplete => exact absurd hcomplete hopen

/-- What `receive` leaves in an entry: a new check is stored where there is none, unless the entry
is registered and the party is not among those it waits for. -/
theorem Value.lookup_receive (v : Value) (receiver : PartyID) (sent : CheckData) (r : PartyID) :
    (v.receive receiver sent).1.receivers.lookup r =
      if receiver = r ∧ (v.receivers.lookup r = some none ∨
        (v.receivers.lookup r = none ∧ v.registered = false)) then some (some sent)
      else v.receivers.lookup r := by
  unfold Value.receive
  rcases hlookup : v.receivers.lookup receiver with _ | (_ | check)
  · by_cases hregistered : v.registered = true
    · by_cases hr : receiver = r
      · subst hr
        simp [hregistered, hlookup]
      · simp [hregistered, hr]
    · by_cases hr : receiver = r
      · subst hr
        simp [hlookup, hregistered]
      · simp [hr, Ne.symm hr, hregistered]
  · simp only [Map.lookup_insert]
    by_cases hr : receiver = r
    · subst hr
      simp [hlookup]
    · simp [hr, Ne.symm hr]
  · by_cases hr : receiver = r
    · subst hr
      simp [hlookup]
    · simp [hr]

theorem Value.receive_registered (v : Value) (receiver : PartyID) (sent : CheckData) :
    (v.receive receiver sent).1.registered = v.registered := by
  unfold Value.receive
  split
  · rfl
  · rfl
  · split <;> rfl

theorem Value.receive_received (v : Value) (receiver : PartyID) (sent : CheckData) :
    (v.receive receiver sent).1.received = v.received := by
  unfold Value.receive
  split
  · rfl
  · rfl
  · split <;> rfl

theorem live_check {t : Task f} {key : Key} {k : Known} {entry : Option Value}
    (h : Live t key k entry) (hopen : ¬ k.Complete t key) (receiver : PartyID) (sent : CheckData) :
    Live t key (k.add key (.check key receiver sent))
      (entryAfter t entry (.check key receiver sent)) := by
  cases h with
  | untouched hrequest hdata hchecks =>
      refine .collecting ⟨.inr ⟨receiver, by simp⟩, rfl, by simp [hrequest],
        by simp [hdata, Value.newReceived], fun r => ?_⟩
      rw [Value.lookup_newReceived]
      by_cases hr : receiver = r
      · simp [hchecks, hr]
      · simp [hchecks, hr]
  | @collecting v hv =>
      have hregistered : (v.receive receiver sent).1.registered = false := by
        rw [Value.receive_registered, hv.registered]
      simp only [entryAfter]
      rw [settle_of_not_registered hregistered]
      refine .collecting ⟨.inr ⟨receiver, by simp⟩, hregistered, by simp [hv.request], ?_,
        fun r => ?_⟩
      · rw [Value.receive_received, hv.received]
        simp
      · rw [Value.lookup_receive, hv.receivers, hv.registered, Known.add_check]
        by_cases hr : receiver = r
        · cases hc : k.checks r <;> simp [hr, hc]
        · simp [hr]
  | @waiting v hv _ =>
      obtain ⟨receivers, hrequest, hother, hreceivers⟩ := hv.receivers
      apply live_settle
      refine ⟨?_, ?_, receivers, by simp [hrequest], fun r hr => ?_, fun r hr => ?_⟩
      · rw [Value.receive_registered, hv.registered]
      · rw [Value.receive_received, hv.received]
        simp
      · rw [Value.lookup_receive, hother r hr, hv.registered]
        simp
      · rw [Value.lookup_receive, hv.registered, Known.add_check]
        -- an outstanding receiver gets its check; one that was removed stays removed
        rcases hreceivers r hr with hkept | ⟨hnone, received, check, hdata, hcheck, hvalid⟩
        · left
          rw [hkept]
          by_cases hr : receiver = r
          · cases hc : k.checks r <;> simp [hr, hc]
          · simp [hr]
        · exact .inr ⟨by simp [hnone], received, check, hdata, by simp [hcheck], hvalid⟩
  | done hcomplete => exact absurd hcomplete hopen

/-- Data and checks never register an entry. -/
theorem unregistered_entryAfter {t : Task f} {entry : Option Value} {op : Op}
    (h : ∀ v, entry = some v → v.registered = false)
    (hop : ∀ key receivers, op ≠ .request key receivers) :
    ∀ v, entryAfter t entry op = some v → v.registered = false := by
  intro v' hv'
  cases op with
  | wait channel => exact h v' hv'
  | request key receivers => exact absurd rfl (hop key receivers)
  | check key receiver sent =>
      cases entry with
      | none => exact Option.some.inj hv' ▸ rfl
      | some v =>
          have hv : (v.receive receiver sent).1.registered = false := by
            rw [Value.receive_registered, h v rfl]
          simp only [entryAfter, settle_of_not_registered hv] at hv'
          exact Option.some.inj hv' ▸ hv
  | data key received =>
      cases entry with
      | none => exact Option.some.inj hv' ▸ rfl
      | some v =>
          have hv : (v.receiveData received).1.registered = false := by
            rw [Value.receiveData_fst]
            exact h v rfl
          simp only [entryAfter, settle_of_not_registered hv] at hv'
          exact Option.some.inj hv' ▸ hv

/-- A request is the first one of its key and finds no check of a party outside its receivers. -/
def RequestOk (key : Key) (k : Known) (entry : Option Value) (op : Op) : Prop :=
  ∀ receivers, op = .request key receivers →
    k.request = none ∧ ∀ v, entry = some v → v.coveredBy receivers = true

/-- **One command** before the operation is complete. -/
theorem live_stepOp {t : Task f} {net : PartyID → NetOutcome} {s : State} {op : Op} {key : Key}
    {ops : List Op} (h : Live t key (known key ops) (s.consistency.lookup key))
    (hopen : op.key? = some key → ¬ (known key ops).Complete t key)
    (hrequest : RequestOk key (known key ops) (s.consistency.lookup key) op) :
    Live t key (known key (ops ++ [op])) ((stepOp t net s op).1.consistency.lookup key) := by
  rw [known_concat, lookup_stepOp]
  by_cases hkey : op.key? = some key
  · rw [if_pos hkey]
    cases op with
    | wait channel => cases hkey
    | request key' receivers =>
        obtain rfl : key' = key := Option.some.inj hkey
        obtain ⟨hnew, hcovered⟩ := hrequest receivers rfl
        exact live_request h hnew hcovered
    | check key' receiver sent =>
        obtain rfl : key' = key := Option.some.inj hkey
        exact live_check h (hopen hkey) receiver sent
    | data key' received =>
        obtain rfl : key' = key := Option.some.inj hkey
        exact live_data h (hopen hkey) received
  · rw [if_neg hkey, Known.add_of_key_ne hkey]
    exact h

/-- **One command.** -/
theorem tracks_stepOp {t : Task f} {net : PartyID → NetOutcome} {s : State} {op : Op} {key : Key}
    {ops : List Op} (h : Tracks t key (known key ops) (s.consistency.lookup key))
    (hrequest : RequestOk key (known key ops) (s.consistency.lookup key) op) :
    Tracks t key (known key (ops ++ [op])) ((stepOp t net s op).1.consistency.lookup key) := by
  -- once complete, the key stays so, and later checks only make entries without a request
  by_cases hcomplete : (known key ops).Complete t key
  · right
    have hentry : ∀ v, s.consistency.lookup key = some v → v.registered = false := by
      rcases h with hlive | ⟨-, hunregistered⟩
      · intro v hv
        rw [hv] at hlive
        cases hlive with
        | collecting hc => exact hc.registered
        | waiting hr hstuck => exact absurd hcomplete (not_complete_of_stuck hr hstuck)
      · exact hunregistered
    rw [known_concat, lookup_stepOp]
    refine ⟨hcomplete.add op, ?_⟩
    split
    · refine unregistered_entryAfter hentry fun key' receivers hop => ?_
      subst hop
      rename_i hkey
      obtain rfl : key' = key := Option.some.inj hkey
      obtain ⟨_, _, hknown, -⟩ := hcomplete
      rw [(hrequest receivers rfl).1] at hknown
      cases hknown
    · exact hentry
  · rcases h with hlive | ⟨hdone, -⟩
    · exact .inl (live_stepOp hlive (fun _ => hcomplete) hrequest)
    · exact absurd hdone hcomplete

/-! ## Runs -/

/-- The commands of a run, as keys and data. -/
def ops (inputs : List Input) : List Op := inputs.map fun input => input.command.op

def Op.requested? : Op → Option Key
  | .request key _ => some key
  | _ => none

/-- At most one request per key. -/
def OneRequest (inputs : List Input) : Prop := ((ops inputs).filterMap Op.requested?).Nodup

instance (inputs : List Input) : Decidable (OneRequest inputs) :=
  inferInstanceAs (Decidable (List.Nodup _))

/-- A request finds only checks of its own receivers. -/
def coveredOp (s : State) : Op → Bool
  | .request key receivers => (s.consistency.lookup key).all fun v => v.coveredBy receivers
  | _ => true

def Covered (s : State) (input : Input) : Prop := coveredOp s input.command.op = true

/-- The same for the requests of one key. -/
def CoveredFor (key : Key) (s : State) (input : Input) : Prop :=
  input.command.op.requested? = some key → Covered s input

instance decidableCovered (s : State) (input : Input) : Decidable (Covered s input) :=
  inferInstanceAs (Decidable (_ = true))

instance decidableCoveredFor (key : Key) (s : State) (input : Input) :
    Decidable (CoveredFor key s input) :=
  inferInstanceAs (Decidable (_ → _))

theorem Covered.coveredFor {s : State} {input : Input} (h : Covered s input) (key : Key) :
    CoveredFor key s input := fun _ => h

theorem Covered.entry {s : State} {input : Input} {key : Key} {receivers : Communicator}
    (h : Covered s input) (hop : input.command.op = .request key receivers) :
    ∀ v, s.consistency.lookup key = some v → v.coveredBy receivers = true := by
  intro v hv
  simpa [Covered, coveredOp, hop, hv] using h

@[simp] theorem ops_append (is js : List Input) : ops (is ++ js) = ops is ++ ops js := by
  simp [ops]

theorem OneRequest.of_append {is js : List Input} (h : OneRequest (is ++ js)) : OneRequest is := by
  rw [OneRequest, ops_append, List.filterMap_append] at h
  exact h.of_append_left

/-- A further request is the first one of its key. -/
theorem OneRequest.known_request {is : List Input} {i : Input} (h : OneRequest (is ++ [i]))
    {key : Key} {receivers : Communicator} (hop : i.command.op = .request key receivers) :
    (known key (ops is)).request = none := by
  refine Option.eq_none_iff_forall_ne_some.mpr fun receivers' hknown => ?_
  have hmem := mem_of_known_request hknown
  rw [OneRequest, ops_append, List.filterMap_append, List.nodup_append] at h
  refine h.2.2 key (List.mem_filterMap.mpr ⟨_, hmem, rfl⟩) key ?_ rfl
  simp [ops, hop, Op.requested?]

theorem OneRequest.request_unique {is : List Input} (h : OneRequest is) {key : Key}
    {receivers receivers' : Communicator} (hmem : .request key receivers ∈ ops is)
    (hmem' : .request key receivers' ∈ ops is) : receivers = receivers' := by
  obtain ⟨front, back, hsplit⟩ := List.append_of_mem hmem
  rw [OneRequest, hsplit, List.filterMap_append, List.nodup_append] at h
  obtain ⟨-, htail, hdisjoint⟩ := h
  have hhead : key ∈ (Op.request key receivers :: back).filterMap Op.requested? :=
    List.mem_filterMap.mpr ⟨_, List.mem_cons_self, rfl⟩
  rw [hsplit] at hmem'
  rcases List.mem_append.mp hmem' with hfront | hback
  · exact absurd rfl (hdisjoint key (List.mem_filterMap.mpr ⟨_, hfront, rfl⟩) key hhead)
  · rcases List.mem_cons.mp hback with heq | hback
    · exact ((Op.request.injEq ..).mp heq).2.symm
    · have hnew : key ∉ back.filterMap Op.requested? :=
        (List.nodup_cons.mp (show (key :: back.filterMap Op.requested?).Nodup from htail)).1
      exact (hnew (List.mem_filterMap.mpr ⟨_, hback, rfl⟩)).elim

theorem tracks_initial (t : Task f) (key : Key) :
    Tracks t key (known key []) (State.initial.consistency.lookup key) :=
  .inl (.untouched rfl rfl fun _ => rfl)

theorem openRequests_run (t : Task f) (inputs : List Input) :
    (run t inputs).1.openRequests ≠ [] → isConsistent (run t inputs).1.consistency = false := by
  refine invariant_of_step'
    (fun _ _ (s : State) => s.openRequests ≠ [] → isConsistent s.consistency = false) ?_ ?_ inputs
  · intro h
    exact absurd rfl h
  · intro is os s i ih
    exact (stepOp_answers t i.net s i.command.op ih).2.2

/-- After every run whose requests of the key find only checks of their receivers. -/
theorem tracks_run {t : Task f} {key : Key} {inputs : List Input} (honce : OneRequest inputs)
    (hcovered : Admits (step t) (CoveredFor key) State.initial inputs) :
    Tracks t key (known key (ops inputs)) ((run t inputs).1.consistency.lookup key) := by
  induction inputs using List.reverseRecOn with
  | nil => exact tracks_initial t key
  | append_singleton is i ih =>
      rw [admits_concat] at hcovered
      rw [run_concat, ops_append]
      refine tracks_stepOp (ih honce.of_append hcovered.1) fun receivers hop => ?_
      have hop' : i.command.op = .request key receivers := hop
      have hcov : Covered (run t is).1 i := hcovered.2 (by rw [hop']; rfl)
      exact ⟨honce.known_request hop', hcov.entry hop'⟩

/-- An answer after a request means that the operation is complete. -/
theorem complete_of_answer {t : Task f} {key : Key} {receivers : Communicator} {seen : List Input}
    {input : Input} (honce : OneRequest (seen ++ [input]))
    (hcovered : Admits (step t) (CoveredFor key) State.initial (seen ++ [input]))
    {channel : AnswerChannel} (hanswer : .answer channel ∈ (step t (run t seen).1 input).2)
    (hrequest : .request key receivers ∈ ops (seen ++ [input])) :
    ∃ received, (known key (ops (seen ++ [input]))).data = some received ∧
      ∀ r ∈ receivers, ∃ check, .check key r check ∈ ops (seen ++ [input]) ∧
        Valid t key received r check := by
  have htracks := tracks_run honce hcovered
  -- an answer means that no entry is registered after the step
  have hconsistent : isConsistent (run t (seen ++ [input])).1.consistency = true := by
    rw [run_concat]
    refine (stepOp_answers t input.net _ input.command.op (openRequests_run t seen)).2.1 ?_
    exact List.ne_nil_of_mem (mem_answersOf.mpr hanswer)
  have hcomplete : (known key (ops (seen ++ [input]))).Complete t key := by
    rcases htracks with hlive | ⟨hcomplete, -⟩
    · cases hentry : (run t (seen ++ [input])).1.consistency.lookup key with
      | none =>
          rw [hentry] at hlive
          cases hlive with
          | untouched hnone =>
              have := known_request_isSome hrequest
              rw [hnone] at this
              cases this
          | done hcomplete => exact hcomplete
      | some v =>
          have hregistered := isConsistent_iff.mp hconsistent key v hentry
          rw [hentry] at hlive
          cases hlive with
          | collecting hc =>
              have := known_request_isSome hrequest
              rw [hc.request] at this
              cases this
          | waiting hr =>
              rw [hr.registered] at hregistered
              cases hregistered
    · exact hcomplete
  obtain ⟨receivers', received, hknown, hdata, hchecks⟩ := hcomplete
  obtain rfl := honce.request_unique hrequest (mem_of_known_request hknown)
  refine ⟨received, hdata, fun r hr => ?_⟩
  obtain ⟨check, hcheck, hvalid⟩ := hchecks r hr
  exact ⟨check, mem_of_known_checks hcheck, hvalid⟩

/-- **What an answered `Wait` promises**: for every request before the answer, data was received,
and of each of its receivers a check with a valid signature and the hash of that data. -/
def WaitSound (t : Task f) (inputs : List Input) : Prop :=
  ∀ seen input, seen ++ [input] <+: inputs →
    ∀ channel, .answer channel ∈ (step t (run t seen).1 input).2 →
      ∀ key receivers, .request key receivers ∈ ops (seen ++ [input]) →
        ∃ received, (known key (ops (seen ++ [input]))).data = some received ∧
          ∀ r ∈ receivers, ∃ check, .check key r check ∈ ops (seen ++ [input]) ∧
            checkSignature t key r check = .ok () ∧ received.hash = check.hash

/-- **Soundness of Wait**, in every run in which each request finds only checks of its own
receivers. -/
theorem wait_sound (t : Task f) (inputs : List Input) (honce : OneRequest inputs)
    (hcovered : Admits (step t) Covered State.initial inputs) : WaitSound t inputs := by
  rintro seen input ⟨rest, rfl⟩ channel hanswer key receivers hrequest
  have hcovered' : Admits (step t) (CoveredFor key) State.initial (seen ++ [input]) :=
    ((admits_append _ _ _).mp hcovered).1.mono fun _ _ h => h.coveredFor key
  obtain ⟨received, hdata, hchecks⟩ :=
    complete_of_answer honce.of_append hcovered' hanswer hrequest
  refine ⟨received, hdata, fun r hr => ?_⟩
  obtain ⟨check, hcheck, hvalid⟩ := hchecks r hr
  exact ⟨check, hcheck, hvalid.signature, hvalid.hash⟩

/-! ### The recorded broadcast at party 1 -/

namespace Recorded

open Net.Recorded

def task (id : PartyID) : Task features := ⟨crypto, id, session, publicKey⟩

def key : Key := ⟨⟨.broadcast, rfl⟩, 6, 0, 7⟩

/-- The broadcast as party 1 received it. -/
def dataAt1 : DataMessage := ⟨⟨broadcastTo1.metadata, hashOfPayload, signatureTo1⟩, rfl⟩

/-- The check of party 2, about the message it received. -/
def checkOf2 : CheckMessage :=
  ⟨⟨⟨.consistencyCheckBroadcast, 6, 0, 2, 7, 96⟩, hashOfPayload, signatureTo2⟩, rfl⟩

def only2 : Communicator := ⟨[2], by decide⟩
def nobody : Communicator := ⟨[], by decide⟩

def requestTo (receivers : Communicator) : ConsistencyCheck :=
  ⟨key.kind, key.datatype, key.sender, receivers, key.id⟩

def input (command : Command) : Input := ⟨command, fun _ => .ok⟩

def checked : List Input :=
  [input (.receivedData dataAt1), input (.request (requestTo only2)),
    input (.receivedCheck checkOf2)]

/-- Party 2 is not in the communicator of the broadcast, but sends a check for it, which comes
before the request. -/
def unexpected : List Input :=
  [input (.receivedCheck checkOf2), input (.request (requestTo nobody))]

end Recorded

/-- The wait after the checked broadcast is answered, and the check of party 2 is there. -/
theorem wait_sound_recorded :
    ∃ received, (known Recorded.key (ops (Recorded.checked ++ [Recorded.input (.wait 0)]))).data =
        some received ∧
      ∀ r ∈ Recorded.only2, ∃ check,
        .check Recorded.key r check ∈ ops (Recorded.checked ++ [Recorded.input (.wait 0)]) ∧
        checkSignature (Recorded.task 1) Recorded.key r check = .ok () ∧
        received.hash = check.hash := by
  have hcovered : Admits (step (Recorded.task 1)) Covered State.initial
      (Recorded.checked ++ [Recorded.input (.wait 0)]) :=
    ⟨rfl, rfl, rfl, rfl, trivial⟩
  refine wait_sound (Recorded.task 1) _ (by decide) hcovered Recorded.checked
    (Recorded.input (.wait 0)) List.prefix_rfl 0 ?_ Recorded.key Recorded.only2 (by decide)
  exact mem_answersOf.mp (by decide +kernel)

/-- Without the condition a `Wait` is answered too early: the request fails to register, and its
operation is forgotten before any data was received. -/
theorem unexpected_check_hides_request :
    OneRequest (Recorded.unexpected ++ [Recorded.input (.wait 0)]) ∧
      ¬ WaitSound (Recorded.task 1) (Recorded.unexpected ++ [Recorded.input (.wait 0)]) := by
  refine ⟨by decide, fun hsound => ?_⟩
  obtain ⟨received, hdata, -⟩ := hsound Recorded.unexpected (Recorded.input (.wait 0))
    List.prefix_rfl 0 (mem_answersOf.mp (by decide +kernel)) Recorded.key Recorded.nobody
    (by decide)
  cases hdata

end Hmpc.Net.Consistency
