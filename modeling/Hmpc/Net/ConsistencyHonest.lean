/-
# Hmpc.Net.ConsistencyHonest -- checks sent, and the completion of honest checks

Which check messages a run sends: none for a key before both its request and its data are there,
then one to each receiver (`due`), when no message fails on its way. With that and the relation of
`ConsistencyRun` the commands of honest parties leave nothing behind, in whatever order they come:
`Plan` is one operation with everything the task is told about it, and
`honest_checks_complete` is about any interleaving of any number of plans and waits.
-/
import Hmpc.Net.ConsistencyRun

namespace Hmpc.Net.Consistency

open Hmpc.Lib

variable {f : Features}

/-! ## The check messages of a key -/

/-- A check message about the operation of this key. -/
def isCheckOf (key : Key) (m : SendMessage) : Bool :=
  decide (m.metadata.kind = MessageKind.toCheck key.kind ∧ m.metadata.datatype = key.datatype ∧
    m.metadata.sender = key.sender ∧ m.metadata.id = key.id)

theorem isCheckOf_checkMessage (id : PartyID) (key key' : Key) (data : CheckData) :
    isCheckOf key (checkMessage id key' data) = decide (key' = key) := by
  obtain ⟨kind, datatype, sender, mid⟩ := key
  obtain ⟨kind', datatype', sender', mid'⟩ := key'
  rw [isCheckOf, decide_eq_decide]
  simp [checkMessage, MessageKind.toCheck_injective.eq_iff]

def sentFor (key : Key) (events : List Event) : List (SendMessage × PartyID) :=
  (checksSent events).filter fun e => isCheckOf key e.1

@[simp] theorem sentFor_append (key : Key) (es es' : List Event) :
    sentFor key (es ++ es') = sentFor key es ++ sentFor key es' := by
  simp [sentFor]

/-- What a command sends, from the entry of its key. -/
def notified (t : Task f) (net : PartyID → NetOutcome) (entry : Option Value) : Op → List Event
  | .request key receivers => entry.elim [] fun v => (onRequest t net key receivers v).2
  | .data key received => entry.elim [] fun v => (onData t net key received v).2
  | _ => []

theorem checksSent_onEntry (t : Task f) (s : State) (key : Key)
    (occupied : Value → Value × List Event) (vacant : Value) :
    checksSent (onEntry t s key occupied vacant).2 =
      checksSent ((s.consistency.lookup key).elim [] fun v => (occupied v).2) := by
  unfold onEntry
  cases s.consistency.lookup key with
  | none => rfl
  | some v => simp [checksSent_finish]

theorem checksSent_onCheck (key : Key) (receiver : PartyID) (sent : CheckData) (v : Value) :
    checksSent (onCheck key receiver sent v).2 = [] := by
  unfold onCheck
  split <;> rfl

theorem checksSent_stepOp (t : Task f) (net : PartyID → NetOutcome) (s : State) {op : Op}
    {key : Key} (hkey : op.key? = some key) :
    checksSent (stepOp t net s op).2 =
      checksSent (notified t net (s.consistency.lookup key) op) := by
  cases op with
  | wait channel => cases hkey
  | request key' receivers =>
      obtain rfl : key' = key := Option.some.inj hkey
      exact checksSent_onEntry t s key' _ _
  | data key' received =>
      obtain rfl : key' = key := Option.some.inj hkey
      exact checksSent_onEntry t s key' _ _
  | check key' receiver sent =>
      obtain rfl : key' = key := Option.some.inj hkey
      refine (checksSent_onEntry t s key' _ _).trans ?_
      cases s.consistency.lookup key' with
      | none => rfl
      | some v =>
          simp only [Option.elim_some, notified]
          exact checksSent_onCheck key' receiver sent v

/-- A check message comes from the entry of the key of the command. -/
theorem notified_of_checksSent {t : Task f} {net : PartyID → NetOutcome} {s : State} {op : Op}
    {m : SendMessage} {r : PartyID} (h : (m, r) ∈ checksSent (stepOp t net s op).2) :
    ∃ key, op.key? = some key ∧ .sendCheck m r ∈ notified t net (s.consistency.lookup key) op := by
  cases hkey : op.key? with
  | none =>
      cases op with
      | wait channel =>
          simp only [stepOp] at h
          split at h <;> simp [checksSent] at h
      | _ => cases hkey
  | some key =>
      rw [checksSent_stepOp t net s hkey] at h
      exact ⟨key, rfl, mem_checksSent.mp h⟩

/-- **Every check message is about recorded data of its own key**, in an entry with a request. -/
theorem mem_notified {t : Task f} {net : PartyID → NetOutcome} {entry : Option Value} {op : Op}
    {m : SendMessage} {r : PartyID} (h : .sendCheck m r ∈ notified t net entry op) :
    ∃ key data, op.key? = some key ∧ m = checkMessage t.id key data ∧
      ((∃ receivers v, op = .request key receivers ∧ entry = some v ∧ v.registered = false ∧
          v.received = some data ∧ r ∈ receivers) ∨
        (∃ v, op = .data key data ∧ entry = some v ∧ v.registered = true ∧
          v.received = none ∧ r ∈ v.receivers)) := by
  cases op with
  | wait channel => cases h
  | check key receiver sent => cases h
  | request key receivers =>
      cases entry with
      | none => cases h
      | some v =>
          simp only [notified, Option.elim_some, onRequest] at h
          -- a request notifies when it is the first one and the data is already there
          by_cases hregistered : v.registered = true
          · simp [Value.register, hregistered] at h
          · by_cases hcovered : v.coveredBy receivers = true
            · rw [Value.register_of_covered (by simpa using hregistered) hcovered] at h
              cases hreceived : v.received with
              | none => simp [hreceived] at h
              | some data =>
                  simp only [hreceived, Option.isSome_some, Option.elim_some] at h
                  obtain ⟨rfl, hr⟩ := eq_of_sendCheck_mem_notifyParties h
                  exact ⟨key, data, rfl, rfl, .inl ⟨receivers, v, rfl, rfl,
                    by simpa using hregistered, hreceived, hr⟩⟩
            · simp [Value.register, hregistered, hcovered] at h
  | data key received =>
      cases entry with
      | none => cases h
      | some v =>
          simp only [notified, Option.elim_some, onData] at h
          -- data notifies when it is the first and a request is already there
          cases hreceived : v.received with
          | some data => simp [Value.receiveData, hreceived] at h
          | none =>
              cases hregistered : v.registered with
              | false => simp [Value.receiveData, hreceived, hregistered] at h
              | true =>
                  simp only [Value.receiveData, hreceived, hregistered, Option.elim_some] at h
                  obtain ⟨rfl, hr⟩ := eq_of_sendCheck_mem_notifyParties h
                  exact ⟨key, received, rfl, rfl, .inr ⟨v, rfl, rfl, hregistered, hreceived, hr⟩⟩

/-- What holds of the data of an entry in every run, also when a request failed to register: before
the request the entry has the known data, and while it is registered. -/
structure KeepsData (k : Known) (entry : Option Value) : Prop where
  before : k.request = none → k.data = entry.bind Value.received ∧
    ∀ v, entry = some v → v.registered = false
  registered : ∀ v, entry = some v → v.registered = true → v.received = k.data

theorem settle_eq_some {t : Task f} {key : Key} {v v' : Value} (h : settle t key v = some v') :
    v'.registered = v.registered ∧ v'.received = v.received := by
  by_cases hready : v.registered = false ∨ v.received = none
  · rw [settle, Value.check_of_not_ready hready] at h
    obtain rfl := Option.some.inj h
    exact ⟨rfl, rfl⟩
  · rw [not_or, Bool.not_eq_false] at hready
    obtain ⟨received, hreceived⟩ := Option.ne_none_iff_exists'.mp hready.2
    by_cases hvalid : ∀ r check, v.receivers.lookup r = some (some check) →
        Valid t key received r check
    · obtain ⟨valid, hcheck, -⟩ := Value.check_of_valid hready.1 hreceived hvalid
      rw [settle, hcheck] at h
      dsimp only at h
      split at h
      · cases h
      · obtain rfl := Option.some.inj h
        exact ⟨hready.1.symm, rfl⟩
    · obtain ⟨e, hcheck⟩ := Value.check_of_invalid hready.1 hreceived (by
        by_contra hnot
        exact hvalid fun r check hstored => by_contra fun hv => hnot ⟨r, check, hstored, hv⟩)
      rw [settle, hcheck] at h
      obtain rfl := Option.some.inj h
      exact ⟨rfl, rfl⟩

theorem Value.register_fst (v : Value) (receivers : Communicator) :
    (v.register receivers).1.received = v.received ∧
      (v.registered = true → (v.register receivers).1.registered = true) := by
  unfold Value.register
  split
  · exact ⟨rfl, id⟩
  · split
    · exact ⟨rfl, id⟩
    · exact ⟨rfl, fun _ => rfl⟩

theorem keepsData_entryAfter {t : Task f} {key : Key} {k : Known} {entry : Option Value} {op : Op}
    (h : KeepsData k entry) (hkey : op.key? = some key)
    (hnew : op.requested? = some key → k.request = none) :
    KeepsData (k.add key op) (entryAfter t entry op) := by
  cases op with
  | wait channel => cases hkey
  | request key' receivers =>
      obtain rfl : key' = key := Option.some.inj hkey
      have hfirst := hnew rfl
      obtain ⟨hdata, hunregistered⟩ := h.before hfirst
      rw [Known.add_request]
      refine ⟨fun hnone => by simp [hfirst] at hnone, fun v' hv' _ => ?_⟩
      cases entry with
      -- a new entry takes its data from the command; an old one keeps its first data
      | none =>
          obtain rfl := Option.some.inj hv'
          exact hdata.symm
      | some v =>
          rw [(settle_eq_some hv').2, (v.register_fst receivers).1]
          exact hdata.symm
  | data key' received =>
      obtain rfl : key' = key := Option.some.inj hkey
      rw [Known.add_data]
      cases entry with
      | none =>
          refine ⟨fun hnone => ⟨?_, fun v' hv' => Option.some.inj hv' ▸ rfl⟩, fun v' hv' hr => ?_⟩
          · rw [(h.before hnone).1]
            rfl
          · obtain rfl := Option.some.inj hv'
            cases hr
      | some v =>
          simp only [entryAfter, Value.receiveData_fst]
          refine ⟨fun hnone => ?_, fun v' hv' hr => ?_⟩
          · obtain ⟨hdata, hunregistered⟩ := h.before hnone
            rw [settle_of_not_registered (by exact hunregistered v rfl), hdata]
            exact ⟨rfl, fun v' hv' => Option.some.inj hv' ▸ hunregistered v rfl⟩
          · obtain ⟨hregistered, hreceived⟩ := settle_eq_some hv'
            rw [hreceived, ← h.registered v rfl (hregistered.symm.trans hr)]
  | check key' receiver sent =>
      obtain rfl : key' = key := Option.some.inj hkey
      rw [Known.add_check]
      cases entry with
      | none =>
          refine ⟨fun hnone => ⟨?_, fun v' hv' => Option.some.inj hv' ▸ rfl⟩, fun v' hv' hr => ?_⟩
          · rw [(h.before hnone).1]
            rfl
          · obtain rfl := Option.some.inj hv'
            cases hr
      | some v =>
          simp only [entryAfter]
          refine ⟨fun hnone => ?_, fun v' hv' hr => ?_⟩
          · obtain ⟨hdata, hunregistered⟩ := h.before hnone
            have hv : (v.receive receiver sent).1.registered = false := by
              rw [Value.receive_registered, hunregistered v rfl]
            rw [settle_of_not_registered hv, hdata]
            refine ⟨?_, fun v' hv' => Option.some.inj hv' ▸ hv⟩
            exact (Value.receive_received v receiver sent).symm
          · obtain ⟨hregistered, hreceived⟩ := settle_eq_some hv'
            rw [hregistered, Value.receive_registered] at hr
            rw [hreceived, Value.receive_received, h.registered v rfl hr]

theorem keepsData_run {t : Task f} {inputs : List Input} (honce : OneRequest inputs) (key : Key) :
    KeepsData (known key (ops inputs)) ((run t inputs).1.consistency.lookup key) := by
  induction inputs using List.reverseRecOn with
  | nil =>
      refine ⟨fun _ => ⟨rfl, fun v hv => ?_⟩, fun v hv => ?_⟩ <;> cases hv
  | append_singleton is i ih =>
      have hold := ih honce.of_append
      rw [run_concat, ops_append, show ops [i] = [i.command.op] from rfl, known_concat,
        lookup_stepOp]
      by_cases hkey : i.command.op.key? = some key
      · rw [if_pos hkey]
        refine keepsData_entryAfter hold hkey fun hrequested => ?_
        cases hop : i.command.op with
        | request key' receivers =>
            rw [hop] at hrequested
            obtain rfl : key' = key := Option.some.inj hrequested
            exact honce.known_request hop
        | _ =>
            rw [hop] at hrequested
            cases hrequested
      · rw [if_neg hkey, Known.add_of_key_ne hkey]
        exact hold

/-- **Every check message of a run is about the first data of its key**, also after a request that
failed to register. -/
theorem data_of_checksSent {t : Task f} {inputs : List Input} {input : Input}
    (honce : OneRequest (inputs ++ [input])) {m : SendMessage} {r : PartyID}
    (h : (m, r) ∈ checksSent (step t (run t inputs).1 input).2) :
    ∃ key data, m = checkMessage t.id key data ∧
      (known key (ops (inputs ++ [input]))).data = some data := by
  obtain ⟨key, hkey, hnotified⟩ := notified_of_checksSent h
  obtain ⟨key', data, hkey', rfl, hcase⟩ := mem_notified hnotified
  obtain rfl := Option.some.inj (hkey.symm.trans hkey')
  refine ⟨key, data, rfl, ?_⟩
  have hkeeps := keepsData_run (t := t) honce.of_append key
  rw [ops_append, show ops [input] = [input.command.op] from rfl, known_concat]
  rcases hcase with ⟨receivers, v, hop, hentry, -, hreceived, -⟩ |
    ⟨v, hop, hentry, hregistered, hreceived, -⟩
  · rw [hop, Known.add_request, (hkeeps.before (honce.known_request hop)).1, hentry]
    exact hreceived
  · rw [hop, Known.add_data, ← hkeeps.registered v hentry hregistered, hreceived]
    rfl

/-- The check messages of a key once its request and its data are known. -/
def due (t : Task f) (key : Key) (k : Known) : List (SendMessage × PartyID) :=
  match k.request, k.data with
  | some receivers, some data =>
      receivers.toList.map fun r => (checkMessage t.id key data, r)
  | _, _ => []

theorem checksSent_notifyParties {id : PartyID} {key : Key} {data : CheckData}
    {net : PartyID → NetOutcome} (hnet : ∀ r, net r = .ok) (receivers : List PartyID) :
    checksSent (notifyParties id key data net receivers) =
      receivers.map fun r => (checkMessage id key data, r) := by
  rw [notifyParties_of_ok fun r _ => hnet r, checksSent, List.filterMap_map]
  exact congrFun List.filterMap_eq_map receivers

/-- The parties a registered entry without data waits for are the receivers. -/
theorem Registered.keys_perm {t : Task f} {key : Key} {k : Known} {v : Value}
    (h : Registered t key k v) {receivers : Communicator} (hrequest : k.request = some receivers)
    (hdata : k.data = none) : v.receivers.keys.Perm receivers.toList := by
  obtain ⟨receivers', hrequest', hother, hreceivers⟩ := h.receivers
  obtain rfl : receivers = receivers' := Option.some.inj (hrequest.symm.trans hrequest')
  refine (List.perm_ext_iff_of_nodup v.receivers.keys_nodup receivers.nodup).mpr fun r => ?_
  rw [← AList.mem_keys, ← Communicator.mem_def, Map.mem_iff_exists]
  constructor
  · rintro ⟨stored, hstored⟩
    by_contra hr
    rw [hother r hr] at hstored
    cases hstored
  · intro hr
    rcases hreceivers r hr with hkept | ⟨-, _, _, hdata', -⟩
    · exact ⟨_, hkept⟩
    · rw [hdata] at hdata'
      cases hdata'

/-- **One command sends what becomes due with it**, when nothing fails on the way. -/
theorem notified_perm {t : Task f} {net : PartyID → NetOutcome} {key : Key} {k : Known}
    {entry : Option Value} {op : Op} (h : Live t key k entry) (hnet : ∀ r, net r = .ok)
    (hkey : op.key? = some key) (hrequest : RequestOk key k entry op) :
    (due t key k ++ checksSent (notified t net entry op)).Perm (due t key (k.add key op)) := by
  cases op with
  | wait channel => cases hkey
  | check key' receiver sent =>
      obtain rfl : key' = key := Option.some.inj hkey
      simp [notified, due, checksSent]
  | request key' receivers =>
      obtain rfl : key' = key := Option.some.inj hkey
      obtain ⟨hnew, hcovered⟩ := hrequest receivers rfl
      have hbefore : due t key' k = [] := by simp [due, hnew]
      rw [hbefore, List.nil_append, Known.add_request, hnew, Option.none_or]
      cases h with
      | untouched _ hdata => simp [notified, due, hdata, checksSent]
      | @collecting v hv =>
          simp only [notified, Option.elim_some, onRequest,
            Value.register_of_covered hv.registered (hcovered v rfl), due]
          cases hreceived : v.received with
          | none => simp [← hv.received, hreceived, checksSent]
          | some data =>
              rw [← hv.received, hreceived]
              simp only [Option.isSome_some, Option.elim_some]
              exact .of_eq (checksSent_notifyParties hnet receivers.toList)
      | waiting hv =>
          obtain ⟨_, hknown, -⟩ := hv.receivers
          rw [hnew] at hknown
          cases hknown
      | done hcomplete =>
          obtain ⟨_, _, hknown, -⟩ := hcomplete
          rw [hnew] at hknown
          cases hknown
  | data key' received =>
      obtain rfl : key' = key := Option.some.inj hkey
      rw [Known.add_data]
      cases hdata : k.data with
      | some data =>
          -- later data is refused, in whatever state the entry is
          have hquiet : checksSent (notified t net entry (.data key' received)) = [] := by
            cases h with
            | untouched _ hnone =>
                rw [hdata] at hnone
                cases hnone
            | collecting hv =>
                have hreceived := hv.received.trans hdata
                simp [notified, onData, Value.receiveData, hreceived, checksSent]
            | waiting hv =>
                have hreceived := hv.received.trans hdata
                simp [notified, onData, Value.receiveData, hreceived, checksSent]
            | done => rfl
          rw [hquiet, List.append_nil]
          simp [due, hdata]
      | none =>
          have hbefore : due t key' k = [] := by simp [due, hdata]
          rw [hbefore, List.nil_append, Option.none_or]
          cases h with
          | untouched hnone => simp [notified, due, hnone, checksSent]
          | collecting hv =>
              have hreceived := hv.received.trans hdata
              simp [notified, onData, Value.receiveData, hreceived, hv.registered, checksSent, due,
                hv.request]
          | @waiting v hv =>
              obtain ⟨receivers, hknown, -⟩ := hv.receivers
              have hreceived := hv.received.trans hdata
              simp only [notified, Option.elim_some, onData, Value.receiveData, hreceived,
                hv.registered, due, hknown]
              rw [checksSent_notifyParties hnet]
              exact (hv.keys_perm hknown hdata).map _
          | done hcomplete =>
              obtain ⟨_, _, -, hknown, -⟩ := hcomplete
              rw [hdata] at hknown
              cases hknown

/-- A command of one key sends nothing about another. -/
theorem sentFor_stepOp_of_ne {t : Task f} {net : PartyID → NetOutcome} {s : State} {op : Op}
    {key : Key} (hkey : op.key? ≠ some key) : sentFor key (stepOp t net s op).2 = [] := by
  rw [sentFor, List.filter_eq_nil_iff]
  rintro ⟨m, r⟩ hmem
  obtain ⟨key', hkey', hnotified⟩ := notified_of_checksSent hmem
  obtain ⟨key'', data, hkey'', rfl, -⟩ := mem_notified hnotified
  obtain rfl := Option.some.inj (hkey'.symm.trans hkey'')
  rw [isCheckOf_checkMessage, decide_eq_true_eq]
  rintro rfl
  exact hkey hkey'

theorem sentFor_stepOp {t : Task f} {net : PartyID → NetOutcome} {s : State} {op : Op} {key : Key}
    (hkey : op.key? = some key) : sentFor key (stepOp t net s op).2 =
      checksSent (notified t net (s.consistency.lookup key) op) := by
  rw [sentFor, checksSent_stepOp t net s hkey, List.filter_eq_self]
  rintro ⟨m, r⟩ hmem
  obtain ⟨key', data, hop, rfl, -⟩ := mem_notified (mem_checksSent.mp hmem)
  rw [isCheckOf_checkMessage, decide_eq_true_eq]
  exact Option.some.inj (hop.symm.trans hkey)

/-! ## Operations of honest parties -/

/-- One operation: its request, its data and the check each receiver sends about it. -/
structure Plan where
  key : Key
  receivers : Communicator
  data : CheckData
  checks : PartyID → CheckData

/-- The commands of an operation: one request, one data and one check per receiver. -/
def Plan.ops (p : Plan) : List Op :=
  .request p.key p.receivers :: .data p.key p.data ::
    p.receivers.toList.map fun r => .check p.key r (p.checks r)

/-- The checks have the hash of the data and a valid signature. -/
def Plan.Honest (t : Task f) (p : Plan) : Prop :=
  ∀ r ∈ p.receivers, Valid t p.key p.data r (p.checks r)

theorem Plan.mem_ops {p : Plan} {op : Op} : op ∈ p.ops ↔
    op = .request p.key p.receivers ∨ op = .data p.key p.data ∨
      ∃ r ∈ p.receivers, op = .check p.key r (p.checks r) := by
  simp [Plan.ops, Communicator.mem_def, eq_comm]

theorem Plan.key?_of_mem {p : Plan} {op : Op} (h : op ∈ p.ops) : op.key? = some p.key := by
  rcases Plan.mem_ops.mp h with rfl | rfl | ⟨r, -, rfl⟩ <;> rfl

theorem Plan.nodup_ops (p : Plan) : p.ops.Nodup := by
  have hchecks : (p.receivers.toList.map fun r => Op.check p.key r (p.checks r)).Nodup := by
    refine p.receivers.nodup.map fun r r' h => ?_
    simpa using ((Op.check.injEq ..).mp h).2.1
  simp [Plan.ops, hchecks]

/-- The commands are those of the plans, one plan per key, and any waits, in any order. -/
structure Schedule (plans : List Plan) (waits : List AnswerChannel) (inputs : List Input) :
    Prop where
  keys : (plans.map Plan.key).Nodup
  perm : (ops inputs).Perm (plans.flatMap Plan.ops ++ waits.map Op.wait)

namespace Schedule

variable {plans : List Plan} {waits : List AnswerChannel} {inputs : List Input}

theorem plan_unique (h : Schedule plans waits inputs) {p q : Plan} (hp : p ∈ plans)
    (hq : q ∈ plans) (hkey : p.key = q.key) : p = q :=
  List.inj_on_of_nodup_map h.keys hp hq hkey

theorem exists_plan (h : Schedule plans waits inputs) {op : Op} {key : Key} (hop : op ∈ ops inputs)
    (hkey : op.key? = some key) : ∃ p ∈ plans, p.key = key ∧ op ∈ p.ops := by
  rcases List.mem_append.mp (h.perm.mem_iff.mp hop) with hplan | hwait
  · obtain ⟨p, hp, hmem⟩ := List.mem_flatMap.mp hplan
    exact ⟨p, hp, Option.some.inj ((Plan.key?_of_mem hmem).symm.trans hkey), hmem⟩
  · obtain ⟨channel, -, rfl⟩ := List.mem_map.mp hwait
    cases hkey

/-- A command with the key of a plan is one of the plan. -/
theorem mem_plan_ops (h : Schedule plans waits inputs) {p : Plan} (hp : p ∈ plans) {op : Op}
    (hop : op ∈ ops inputs) (hkey : op.key? = some p.key) : op ∈ p.ops := by
  obtain ⟨q, hq, hqkey, hmem⟩ := h.exists_plan hop hkey
  exact h.plan_unique hq hp hqkey ▸ hmem

theorem mem_of_plan (h : Schedule plans waits inputs) {p : Plan} (hp : p ∈ plans) {op : Op}
    (hop : op ∈ p.ops) : op ∈ ops inputs :=
  h.perm.mem_iff.mpr (List.mem_append_left _ (List.mem_flatMap.mpr ⟨p, hp, hop⟩))

theorem nodup_keyed (h : Schedule plans waits inputs) :
    ((ops inputs).filter fun op => op.key?.isSome).Nodup := by
  refine (h.perm.filter _).nodup_iff.mpr ?_
  have hwaits : (waits.map Op.wait).filter (fun op => op.key?.isSome) = [] := by
    simp [List.filter_eq_nil_iff, Op.key?]
  rw [List.filter_append, hwaits, List.append_nil]
  refine List.Nodup.filter _ (List.nodup_flatMap.mpr ⟨fun p _ => p.nodup_ops, ?_⟩)
  -- commands of different plans have different keys
  refine (List.pairwise_map.mp h.keys).imp fun hne => ?_
  intro op hp hq
  exact hne (Option.some.inj ((Plan.key?_of_mem hp).symm.trans (Plan.key?_of_mem hq)))

/-- A command of a plan comes only once. -/
theorem not_seen (h : Schedule plans waits inputs) {seen : List Input} {i : Input} {key : Key}
    (hpre : seen ++ [i] <+: inputs) (hkey : i.command.op.key? = some key) :
    i.command.op ∉ ops seen := by
  intro hmem
  obtain ⟨rest, rfl⟩ := hpre
  have hnodup := h.nodup_keyed
  rw [ops_append, ops_append, List.filter_append, List.filter_append] at hnodup
  have hdisjoint := (List.nodup_append.mp hnodup.of_append_left).2.2
  refine hdisjoint _ (List.mem_filter.mpr ⟨hmem, by rw [hkey]; rfl⟩) i.command.op ?_ rfl
  exact List.mem_filter.mpr ⟨List.mem_singleton.mpr rfl, by rw [hkey]; rfl⟩

/-- What is known about the key of a plan is what the plan says. -/
theorem known_of_seen (h : Schedule plans waits inputs) {seen : List Input}
    (hpre : seen <+: inputs) {p : Plan} (hp : p ∈ plans) :
    (∀ receivers, (known p.key (ops seen)).request = some receivers → receivers = p.receivers) ∧
      (∀ data, (known p.key (ops seen)).data = some data → data = p.data) ∧
      (∀ r check, (known p.key (ops seen)).checks r = some check →
        r ∈ p.receivers ∧ check = p.checks r) := by
  obtain ⟨rest, rfl⟩ := hpre
  have hops {op : Op} (hop : op ∈ ops seen) (hkey : op.key? = some p.key) :=
    Plan.mem_ops.mp (h.mem_plan_ops hp (by rw [ops_append]; exact List.mem_append_left _ hop) hkey)
  refine ⟨fun receivers hk => ?_, fun data hk => ?_, fun r check hk => ?_⟩
  · have := hops (mem_of_known_request hk) rfl
    simpa using this
  · have := hops (mem_of_known_data hk) rfl
    simpa using this
  · have := hops (mem_of_known_checks hk) rfl
    simp only [reduceCtorEq, Op.check.injEq, true_and, false_or] at this
    obtain ⟨r', hr', rfl, rfl⟩ := this
    exact ⟨hr', rfl⟩

/-- As long as a command of a plan is to come, its operation is not complete. -/
theorem not_complete (h : Schedule plans waits inputs) {t : Task f} {seen : List Input} {i : Input}
    {key : Key} (hpre : seen ++ [i] <+: inputs) (hkey : i.command.op.key? = some key) :
    ¬ (known key (ops seen)).Complete t key := by
  rintro ⟨receivers, data, hrequest, hdata, hchecks⟩
  have hseen : seen <+: inputs := (List.prefix_append _ _).trans hpre
  have hmem : i.command.op ∈ ops inputs := by
    obtain ⟨rest, rfl⟩ := hpre
    simp [ops]
  obtain ⟨p, hp, rfl, hop⟩ := h.exists_plan hmem hkey
  obtain ⟨hknownR, hknownD, hknownC⟩ := h.known_of_seen hseen hp
  obtain rfl := hknownR _ hrequest
  obtain rfl := hknownD _ hdata
  refine h.not_seen hpre hkey ?_
  rcases Plan.mem_ops.mp hop with heq | heq | ⟨r, hr, heq⟩
  · exact heq ▸ mem_of_known_request hrequest
  · exact heq ▸ mem_of_known_data hdata
  · obtain ⟨check, hcheck, -⟩ := hchecks r hr
    obtain ⟨-, rfl⟩ := hknownC r check hcheck
    exact heq ▸ mem_of_known_checks hcheck

/-- A request comes first and finds only checks of its receivers. -/
theorem requestOk (h : Schedule plans waits inputs) {t : Task f} {seen : List Input} {i : Input}
    {key : Key} {entry : Option Value} (hpre : seen ++ [i] <+: inputs)
    (hlive : Live t key (known key (ops seen)) entry) :
    RequestOk key (known key (ops seen)) entry i.command.op := by
  intro receivers hop
  have hseen : seen <+: inputs := (List.prefix_append _ _).trans hpre
  have hmem : i.command.op ∈ ops inputs := by
    obtain ⟨rest, rfl⟩ := hpre
    simp [ops]
  have hkey : i.command.op.key? = some key := by
    rw [hop]
    rfl
  obtain ⟨p, hp, rfl, hplan⟩ := h.exists_plan hmem hkey
  obtain ⟨hknownR, -, hknownC⟩ := h.known_of_seen hseen hp
  have hreceivers : receivers = p.receivers := by
    rw [hop, Plan.mem_ops] at hplan
    simpa using hplan
  -- a second request of the key would stand in the plans twice
  have hnew : (known p.key (ops seen)).request = none := by
    refine Option.eq_none_iff_forall_ne_some.mpr fun receivers' hk => ?_
    refine h.not_seen hpre hkey ?_
    rw [hop, hreceivers, ← hknownR _ hk]
    exact mem_of_known_request hk
  refine ⟨hnew, fun v hv => Value.coveredBy_iff.mpr fun r hr => ?_⟩
  subst hv
  cases hlive with
  | collecting hc =>
      obtain ⟨stored, hstored⟩ := Map.mem_iff_exists.mp hr
      rw [hc.receivers, Option.map_eq_some_iff] at hstored
      obtain ⟨check, hcheck, -⟩ := hstored
      exact hreceivers ▸ (hknownC r check hcheck).1
  | waiting hv =>
      obtain ⟨_, hrequest, -⟩ := hv.receivers
      rw [hnew] at hrequest
      cases hrequest

/-- **Every prefix of the run.** Each key is live: nothing was ever left over. -/
theorem live_run (h : Schedule plans waits inputs) (t : Task f) {seen : List Input}
    (hpre : seen <+: inputs) (key : Key) :
    Live t key (known key (ops seen)) ((run t seen).1.consistency.lookup key) := by
  induction seen using List.reverseRecOn with
  | nil => exact .untouched rfl rfl fun _ => rfl
  | append_singleton seen i ih =>
      have hlive := ih ((List.prefix_append _ _).trans hpre)
      rw [run_concat, ops_append]
      exact live_stepOp hlive (fun hkey => h.not_complete hpre hkey) (h.requestOk hpre hlive)

/-- When all commands are processed, the operation of each plan is complete. -/
theorem complete (h : Schedule plans waits inputs) {t : Task f} {p : Plan} (hp : p ∈ plans)
    (hhonest : p.Honest t) : (known p.key (ops inputs)).Complete t p.key := by
  obtain ⟨hknownR, hknownD, hknownC⟩ := h.known_of_seen List.prefix_rfl hp
  obtain ⟨receivers, hrequest⟩ := Option.isSome_iff_exists.mp
    (known_request_isSome (h.mem_of_plan hp (Plan.mem_ops.mpr (.inl rfl))))
  obtain ⟨data, hdata⟩ := Option.isSome_iff_exists.mp
    (known_data_isSome (h.mem_of_plan hp (Plan.mem_ops.mpr (.inr (.inl rfl)))))
  obtain rfl := hknownR _ hrequest
  obtain rfl := hknownD _ hdata
  refine ⟨_, _, hrequest, hdata, fun r hr => ?_⟩
  obtain ⟨check, hcheck⟩ := Option.isSome_iff_exists.mp
    (known_checks_isSome (h.mem_of_plan hp (Plan.mem_ops.mpr (.inr (.inr ⟨r, hr, rfl⟩)))))
  obtain ⟨-, rfl⟩ := hknownC r check hcheck
  exact ⟨_, hcheck, hhonest r hr⟩

/-- When all commands are processed, the map is empty. -/
theorem consistency_eq_empty (h : Schedule plans waits inputs) {t : Task f}
    (hhonest : ∀ p ∈ plans, p.Honest t) : (run t inputs).1.consistency = ∅ := by
  refine Map.eq_empty_of_lookup fun key => ?_
  have hlive := h.live_run t List.prefix_rfl key
  cases hentry : (run t inputs).1.consistency.lookup key with
  | none => rfl
  | some v =>
      exfalso
      rw [hentry] at hlive
      -- an entry means that some command had its key, so that the key is that of a plan
      have hplan : ∃ p ∈ plans, p.key = key := by
        have hfind {op : Op} (hop : op ∈ ops inputs) (hkey : op.key? = some key) :
            ∃ p ∈ plans, p.key = key := by
          obtain ⟨p, hp, hpkey, -⟩ := h.exists_plan hop hkey
          exact ⟨p, hp, hpkey⟩
        cases hlive with
        | collecting hc =>
            rcases hc.heard with hdata | ⟨r, hcheck⟩
            · obtain ⟨data, hdata⟩ := Option.isSome_iff_exists.mp hdata
              exact hfind (mem_of_known_data hdata) rfl
            · obtain ⟨check, hcheck⟩ := Option.isSome_iff_exists.mp hcheck
              exact hfind (mem_of_known_checks hcheck) rfl
        | waiting hr =>
            obtain ⟨_, hrequest, -⟩ := hr.receivers
            exact hfind (mem_of_known_request hrequest) rfl
      obtain ⟨p, hp, rfl⟩ := hplan
      have hcomplete := h.complete hp (hhonest p hp)
      cases hlive with
      | collecting hc =>
          obtain ⟨_, _, hrequest, -⟩ := hcomplete
          rw [hc.request] at hrequest
          cases hrequest
      | waiting hr hstuck => exact not_complete_of_stuck hr hstuck hcomplete

end Schedule

def Op.wait? : Op → Option AnswerChannel
  | .wait channel => some channel
  | _ => none

/-- Every wait is answered or still open, in the order of the commands. -/
theorem answers_run (t : Task f) (inputs : List Input) :
    answersOf (run t inputs).2 ++ (run t inputs).1.openRequests =
      (ops inputs).filterMap Op.wait? := by
  induction inputs using List.reverseRecOn with
  | nil => rfl
  | append_singleton is i ih =>
      have hstep := (stepOp_answers t i.net (run t is).1 i.command.op (openRequests_run t is)).1
      have hwait : (ops [i]).filterMap Op.wait? =
          (match i.command.op with | .wait channel => [channel] | _ => []) := by
        simp only [ops, List.map_cons, List.map_nil]
        cases i.command.op <;> rfl
      rw [run_concat, answersOf_append, ops_append, List.filterMap_append, ← ih, hwait,
        List.append_assoc, List.append_assoc]
      exact congrArg _ hstep

/-- The check messages of a run, per key: those that are due by then. -/
theorem Schedule.sentFor_run {plans : List Plan} {waits : List AnswerChannel} {inputs : List Input}
    (h : Schedule plans waits inputs) (t : Task f) (hnet : ∀ i ∈ inputs, ∀ r, i.net r = .ok)
    {seen : List Input} (hpre : seen <+: inputs) (key : Key) :
    (sentFor key (run t seen).2).Perm (due t key (known key (ops seen))) := by
  induction seen using List.reverseRecOn with
  | nil => exact List.Perm.refl _
  | append_singleton seen i ih =>
      have hseen : seen <+: inputs := (List.prefix_append _ _).trans hpre
      have hmem : i ∈ inputs := hpre.subset (by simp)
      have hlive := h.live_run t hseen key
      rw [run_concat, ops_append, sentFor_append]
      by_cases hkey : i.command.op.key? = some key
      · refine ((ih hseen).append_right _).trans ?_
        rw [sentFor_stepOp hkey]
        refine (notified_perm hlive (hnet i hmem) hkey (h.requestOk hpre hlive)).trans ?_
        exact .of_eq (by rw [← known_concat]; rfl)
      · rw [sentFor_stepOp_of_ne hkey, List.append_nil]
        refine (ih hseen).trans (.of_eq ?_)
        rw [show ops [i] = [i.command.op] from rfl, known_concat, Known.add_of_key_ne hkey]

/-- Every check message of a run is about a key with a request. -/
theorem exists_key_of_checksSent (t : Task f) (inputs : List Input) {m : SendMessage} {r : PartyID}
    (h : (m, r) ∈ checksSent (run t inputs).2) :
    ∃ key, (∃ op ∈ ops inputs, op.key? = some key) ∧ isCheckOf key m = true := by
  induction inputs using List.reverseRecOn with
  | nil => cases h
  | append_singleton is i ih =>
      rw [run_concat, checksSent_append] at h
      rw [ops_append]
      rcases List.mem_append.mp h with hold | hnow
      · obtain ⟨key, ⟨op, hop, hkey⟩, hm⟩ := ih hold
        exact ⟨key, ⟨op, List.mem_append_left _ hop, hkey⟩, hm⟩
      · obtain ⟨key, hkey, hnotified⟩ := notified_of_checksSent hnow
        obtain ⟨key', data, hkey', rfl, -⟩ := mem_notified hnotified
        refine ⟨key', ⟨i.command.op, List.mem_append_right _ (by simp [ops]), hkey'⟩, ?_⟩
        rw [isCheckOf_checkMessage, decide_eq_true_eq]

/-- **Completion of honest checks.** For any plans with honest checks and any interleaving of their
commands with any waits: at the end the map and the open requests are empty, every wait was
answered once, and, unless a check message fails on its way, exactly one check message about each
operation went to each of its receivers and none to anybody else. -/
theorem honest_checks_complete (t : Task f) (plans : List Plan) (waits : List AnswerChannel)
    (inputs : List Input) (hschedule : Schedule plans waits inputs)
    (hhonest : ∀ p ∈ plans, p.Honest t) :
    (run t inputs).1.consistency = ∅ ∧ (run t inputs).1.openRequests = [] ∧
      (answersOf (run t inputs).2).Perm waits ∧
      ((∀ i ∈ inputs, ∀ r, i.net r = .ok) →
        (∀ p ∈ plans, (sentFor p.key (run t inputs).2).Perm
          (p.receivers.toList.map fun r => (checkMessage t.id p.key p.data, r))) ∧
        (∀ m r, (m, r) ∈ checksSent (run t inputs).2 → ∃ p ∈ plans, isCheckOf p.key m = true)) := by
  have hempty := hschedule.consistency_eq_empty hhonest
  have hopen : (run t inputs).1.openRequests = [] := by
    by_contra hne
    have := openRequests_run t inputs hne
    rw [hempty] at this
    cases this
  refine ⟨hempty, hopen, ?_, fun hnet => ⟨fun p hp => ?_, fun m r hmem => ?_⟩⟩
  · have hanswers := answers_run t inputs
    rw [hopen, List.append_nil] at hanswers
    -- the plans hold no waits, so all of them are the waits of the schedule
    have hplans : (plans.flatMap Plan.ops).filterMap Op.wait? = [] := by
      refine List.filterMap_eq_nil_iff.mpr fun op hop => ?_
      obtain ⟨p, -, hmem⟩ := List.mem_flatMap.mp hop
      rcases Plan.mem_ops.mp hmem with rfl | rfl | ⟨r, -, rfl⟩ <;> rfl
    have hwaits : (waits.map Op.wait).filterMap Op.wait? = waits := by
      simp [List.filterMap_map, Function.comp_def, Op.wait?]
    have hperm := hschedule.perm.filterMap Op.wait?
    rw [List.filterMap_append, hplans, hwaits, List.nil_append] at hperm
    exact hanswers ▸ hperm
  · have hsent := hschedule.sentFor_run t hnet List.prefix_rfl p.key
    obtain ⟨receivers, data, hrequest, hdata, -⟩ := hschedule.complete hp (hhonest p hp)
    obtain ⟨hknownR, hknownD, -⟩ := hschedule.known_of_seen List.prefix_rfl hp
    rw [due, hrequest, hdata] at hsent
    rw [← hknownR _ hrequest, ← hknownD _ hdata]
    exact hsent
  · obtain ⟨key, ⟨op, hop, hkey⟩, hm⟩ := exists_key_of_checksSent t inputs hmem
    obtain ⟨p, hp, rfl, -⟩ := hschedule.exists_plan hop hkey
    exact ⟨p, hp, hm⟩

/-- The broadcast of the recorded session at party 1, as a plan. -/
def Recorded.plan : Plan :=
  ⟨Recorded.key, Recorded.only2, ⟨Net.Recorded.hashOfPayload, Net.Recorded.signatureTo1⟩,
    fun _ => ⟨Net.Recorded.hashOfPayload, Net.Recorded.signatureTo2⟩⟩

/-- Its check comes first, then a wait, the request and the data: the wait is answered and party 2
gets one check message. -/
theorem honest_checks_complete_recorded :
    let inputs := [Recorded.input (.receivedCheck Recorded.checkOf2), Recorded.input (.wait 0),
      Recorded.input (.request (Recorded.requestTo Recorded.only2)), Recorded.input (.wait 1),
      Recorded.input (.receivedData Recorded.dataAt1)]
    (run (Recorded.task 1) inputs).1.consistency = ∅ ∧
      (answersOf (run (Recorded.task 1) inputs).2).Perm [0, 1] ∧
      (sentFor Recorded.key (run (Recorded.task 1) inputs).2).Perm
        [(checkMessage 1 Recorded.key Recorded.plan.data, 2)] := by
  intro inputs
  have hschedule : Schedule [Recorded.plan] [0, 1] inputs := ⟨by decide, by decide +kernel⟩
  have hvalid : Recorded.plan.Honest (Recorded.task 1) := by
    intro r hr
    obtain rfl : r = 2 := List.mem_singleton.mp hr
    exact ⟨by decide +kernel, rfl⟩
  obtain ⟨hempty, -, hanswers, hsent⟩ := honest_checks_complete (Recorded.task 1) _ _ inputs
    hschedule (by simpa using hvalid)
  refine ⟨hempty, hanswers, (hsent ?_).1 Recorded.plan (by simp)⟩
  intro i hi r
  simp only [inputs, List.mem_cons, List.not_mem_nil, or_false] at hi
  rcases hi with rfl | rfl | rfl | rfl | rfl <;> rfl

end Hmpc.Net.Consistency
