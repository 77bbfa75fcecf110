/-
# Hmpc.Net.ConsistencyErrors -- the errors of the consistency task

An error of a check is raised by an entry that is registered and holds an invalid check, and the
entry stays as it is; a request is refused only by an entry that is registered already or holds a
check of another party. So when all checks of the receivers of an operation are valid, its request
and its checks end without an error, and the operation is finished once everything has come.
-/
import Hmpc.Net.ConsistencyHonest

namespace Hmpc.Net.Consistency

open Hmpc.Lib

variable {f : Features} {t : Task f}

/-! ## Where errors come from -/

/-- An error of `check` leaves its entry in place, with the check it is about. -/
theorem failed_of_checkEntry {consistency : Map Key Value} {key key' : Key} {v : Value}
    {e : ConsistencyCheckError} (h : .checkError key e ∈ (checkEntry t consistency key' v).2) :
    key' = key ∧ settle t key v = some v ∧ v.registered = true ∧
      ∃ received r check, v.received = some received ∧
        v.receivers.lookup r = some (some check) ∧ ¬ Valid t key received r check := by
  by_cases hready : v.registered = false ∨ v.received = none
  · simp [checkEntry, Value.check_of_not_ready hready] at h
  · rw [not_or, Bool.not_eq_false] at hready
    obtain ⟨received, hreceived⟩ := Option.ne_none_iff_exists'.mp hready.2
    by_cases hvalid : ∀ r check, v.receivers.lookup r = some (some check) →
        Valid t key' received r check
    · obtain ⟨valid, hcheck, -⟩ := Value.check_of_valid hready.1 hreceived hvalid
      simp only [checkEntry, hcheck] at h
      split at h <;> cases h
    · have hinvalid : ∃ r check, v.receivers.lookup r = some (some check) ∧
          ¬ Valid t key' received r check := by
        by_contra hnot
        exact hvalid fun r check hstored => by_contra fun hv => hnot ⟨r, check, hstored, hv⟩
      obtain ⟨e', hcheck⟩ := Value.check_of_invalid hready.1 hreceived hinvalid
      simp only [checkEntry, hcheck, List.mem_singleton, Event.checkError.injEq] at h
      obtain ⟨rfl, -⟩ := h
      obtain ⟨r, check, hstored, hnot⟩ := hinvalid
      exact ⟨rfl, by simp [settle, hcheck], hready.1, received, r, check, hreceived, hstored, hnot⟩

/-- What each command does before its entry is checked. -/
theorem error_of_onEntry {s : State} {key : Key} {occupied : Value → Value × List Event}
    {vacant : Value} {event : Event} (hevent : ∀ channel, event ≠ .answer channel)
    (h : event ∈ (onEntry t s key occupied vacant).2) :
    ∃ v, s.consistency.lookup key = some v ∧
      (event ∈ (occupied v).2 ∨ event ∈ (checkEntry t s.consistency key (occupied v).1).2) := by
  unfold onEntry at h
  cases hentry : s.consistency.lookup key with
  | none => simp [hentry] at h
  | some v =>
      refine ⟨v, rfl, ?_⟩
      simp only [hentry] at h
      rcases List.mem_append.mp h with hfirst | hrest
      · exact .inl hfirst
      · right
        unfold finish at hrest
        dsimp only at hrest
        split at hrest
        · rcases List.mem_append.mp hrest with hcheck | hanswer
          · exact hcheck
          · obtain ⟨channel, -, rfl⟩ := List.mem_map.mp hanswer
            exact absurd rfl (hevent channel)
        · exact hrest

theorem not_error_notifyParties {id : PartyID} {key key' : Key} {data : CheckData}
    {net : PartyID → NetOutcome} {receivers : List PartyID} {e : ConsistencyCheckError} :
    .checkError key' e ∉ notifyParties id key data net receivers ∧
      .registerError key' e ∉ notifyParties id key data net receivers := by
  induction receivers with
  | nil => simp [notifyParties]
  | cons r receivers ih =>
      unfold notifyParties
      split <;> simp [ih]

theorem registerError_of_onRequest {net : PartyID → NetOutcome} {key key' : Key}
    {receivers : Communicator} {v : Value} {e : ConsistencyCheckError}
    (h : .registerError key e ∈ (onRequest t net key' receivers v).2) :
    key' = key ∧ (v.registered = true ∨ v.coveredBy receivers = false) := by
  by_cases hregistered : v.registered = true
  · simp only [onRequest, Value.register, hregistered, if_true, List.mem_singleton,
      Event.registerError.injEq] at h
    exact ⟨h.1.symm, .inl hregistered⟩
  · by_cases hcovered : v.coveredBy receivers = true
    · rw [onRequest, Value.register_of_covered (by simpa using hregistered) hcovered] at h
      cases hreceived : v.received with
      | none => simp [hreceived] at h
      | some data =>
          simp only [hreceived, Option.isSome_some, Option.elim_some] at h
          exact absurd h not_error_notifyParties.2
    · simp only [onRequest, Value.register, hregistered, hcovered, Bool.false_eq_true, if_false,
        Bool.not_false, if_true, List.mem_singleton, Event.registerError.injEq] at h
      exact ⟨h.1.symm, .inr (by simpa using hcovered)⟩

/-- The part of a command before its entry is checked raises no error of a check. -/
theorem not_checkError_onRequest {net : PartyID → NetOutcome} {key key' : Key}
    {receivers : Communicator} {v : Value} {e : ConsistencyCheckError} :
    .checkError key e ∉ (onRequest t net key' receivers v).2 := by
  unfold onRequest
  split
  · simp
  · simp
  · rename_i v' _
    cases v'.received with
    | none => simp
    | some data => exact not_error_notifyParties.1

theorem not_error_onCheck {key key' : Key} {receiver : PartyID} {sent : CheckData} {v : Value}
    {e : ConsistencyCheckError} :
    .checkError key e ∉ (onCheck key' receiver sent v).2 ∧
      .registerError key e ∉ (onCheck key' receiver sent v).2 := by
  unfold onCheck
  split <;> simp

theorem not_error_onData {net : PartyID → NetOutcome} {key key' : Key} {data : CheckData}
    {v : Value} {e : ConsistencyCheckError} :
    .checkError key e ∉ (onData t net key' data v).2 ∧
      .registerError key e ∉ (onData t net key' data v).2 := by
  unfold onData
  split
  · simp
  · simp
  · rename_i v' _
    cases v'.received with
    | none => simp
    | some data => exact not_error_notifyParties

theorem not_registerError_checkEntry {consistency : Map Key Value} {key key' : Key} {v : Value}
    {e : ConsistencyCheckError} :
    .registerError key e ∉ (checkEntry t consistency key' v).2 := by
  unfold checkEntry
  split
  · simp
  · simp
  · split <;> simp

/-- **Where an error of a check comes from**: the entry stays registered with an invalid check. -/
theorem failed_of_stepOp {net : PartyID → NetOutcome} {s : State} {op : Op} {key : Key}
    {e : ConsistencyCheckError} (h : .checkError key e ∈ (stepOp t net s op).2) :
    ∃ v, (stepOp t net s op).1.consistency.lookup key = some v ∧ v.registered = true ∧
      ∃ received r check, v.received = some received ∧
        v.receivers.lookup r = some (some check) ∧ ¬ Valid t key received r check := by
  have hentry {key' : Key} {occupied : Value → Value × List Event} {vacant : Value}
      (hquiet : ∀ v, .checkError key e ∉ (occupied v).2)
      (h : .checkError key e ∈ (onEntry t s key' occupied vacant).2) :
      ∃ v, (onEntry t s key' occupied vacant).1.consistency.lookup key = some v ∧
        v.registered = true ∧ ∃ received r check, v.received = some received ∧
          v.receivers.lookup r = some (some check) ∧ ¬ Valid t key received r check := by
    obtain ⟨v, hv, hfirst | hcheck⟩ := error_of_onEntry (by simp) h
    · exact absurd hfirst (hquiet v)
    · obtain ⟨rfl, hsettle, hfailed⟩ := failed_of_checkEntry hcheck
      refine ⟨(occupied v).1, ?_, hfailed⟩
      rw [lookup_onEntry, if_pos rfl, hv]
      exact hsettle
  cases op with
  | request key' receivers => exact hentry (fun _ => not_checkError_onRequest) h
  | check key' receiver sent => exact hentry (fun _ => not_error_onCheck.1) h
  | data key' data => exact hentry (fun _ => not_error_onData.1) h
  | wait channel =>
      simp only [stepOp] at h
      split at h <;> simp at h

theorem refused_of_stepOp {net : PartyID → NetOutcome} {s : State} {op : Op} {key : Key}
    {e : ConsistencyCheckError} (h : .registerError key e ∈ (stepOp t net s op).2) :
    ∃ receivers v, op = .request key receivers ∧ s.consistency.lookup key = some v ∧
      (v.registered = true ∨ v.coveredBy receivers = false) := by
  cases op with
  | request key' receivers =>
      obtain ⟨v, hv, hfirst | hcheck⟩ := error_of_onEntry (by simp) h
      · obtain ⟨rfl, hrefused⟩ := registerError_of_onRequest hfirst
        exact ⟨receivers, v, rfl, hv, hrefused⟩
      · exact absurd hcheck not_registerError_checkEntry
  | check key' receiver sent =>
      obtain ⟨v, -, hfirst | hcheck⟩ := error_of_onEntry (by simp) h
      · exact absurd hfirst not_error_onCheck.2
      · exact absurd hcheck not_registerError_checkEntry
  | data key' data =>
      obtain ⟨v, -, hfirst | hcheck⟩ := error_of_onEntry (by simp) h
      · exact absurd hfirst not_error_onData.2
      · exact absurd hcheck not_registerError_checkEntry
  | wait channel =>
      simp only [stepOp] at h
      split at h <;> simp at h

/-! ## Runs with valid checks -/

/-- All checks of the receivers are valid for all data of the key. -/
def AllValid (t : Task f) (key : Key) (ops : List Op) : Prop :=
  ∀ receivers data, .request key receivers ∈ ops → .data key data ∈ ops →
    ∀ r ∈ receivers, ∀ check, .check key r check ∈ ops → Valid t key data r check

/-- **Valid checks raise no errors.** -/
theorem no_errors_run {key : Key} {inputs : List Input} (honce : OneRequest inputs)
    (hcovered : Admits (step t) (CoveredFor key) State.initial inputs)
    (hvalid : AllValid t key (ops inputs)) (e : ConsistencyCheckError) :
    .checkError key e ∉ (run t inputs).2 ∧ .registerError key e ∉ (run t inputs).2 := by
  induction inputs using List.reverseRecOn with
  | nil => simp [run]
  | append_singleton is i ih =>
      have hcovered' := (admits_concat _ _ _).mp hcovered
      have hbefore := ih honce.of_append hcovered'.1 fun receivers data hr hd r hmem check hc =>
        hvalid receivers data (by simp [hr]) (by simp [hd]) r hmem check (by simp [hc])
      have htracks := tracks_run honce hcovered
      rw [run_concat] at htracks ⊢
      simp only [List.mem_append, not_or]
      refine ⟨⟨hbefore.1, fun hfailed => ?_⟩, ⟨hbefore.2, fun hrefused => ?_⟩⟩
      · -- the entry of the failed check holds known data and a known check of a receiver
        obtain ⟨v, hv, hregistered, received, r, check, hreceived, hstored, hnot⟩ :=
          failed_of_stepOp hfailed
        rw [hv] at htracks
        have hentry : Registered t key (known key (ops (is ++ [i]))) v := by
          rcases htracks with hlive | ⟨-, hunregistered⟩
          · cases hlive with
            | collecting hc =>
                rw [hc.registered] at hregistered
                cases hregistered
            | waiting hr => exact hr
          · rw [hunregistered v rfl] at hregistered
            cases hregistered
        obtain ⟨receivers, hrequest, hother, hreceivers⟩ := hentry.receivers
        have hr : r ∈ receivers := by
          by_contra hr
          rw [hother r hr] at hstored
          cases hstored
        have hcheck : (known key (ops (is ++ [i]))).checks r = some check := by
          rcases hreceivers r hr with hkept | ⟨hnone, -⟩
          · exact Option.some.inj (hkept.symm.trans hstored)
          · rw [hnone] at hstored
            cases hstored
        apply hnot
        exact hvalid receivers received (mem_of_known_request hrequest)
          (mem_of_known_data (hentry.received.symm.trans hreceived)) r hr check
          (mem_of_known_checks hcheck)
      · obtain ⟨receivers, v, hop, hv, hregistered | hnot⟩ := refused_of_stepOp hrefused
        · have hkeeps := keepsData_run (t := t) honce.of_append key
          rw [(hkeeps.before (honce.known_request hop)).2 v hv] at hregistered
          cases hregistered
        · have hcov : Covered (run t is).1 i := hcovered'.2 (by rw [hop]; rfl)
          rw [hcov.entry hop v hv] at hnot
          cases hnot

/-- Once its request, its data and a check of every receiver are there, nothing of an operation with
valid checks stays registered. -/
theorem not_registered_run {key : Key} {inputs : List Input} {receivers : Communicator}
    {data : CheckData} (honce : OneRequest inputs)
    (hcovered : Admits (step t) (CoveredFor key) State.initial inputs)
    (hvalid : AllValid t key (ops inputs)) (hrequest : .request key receivers ∈ ops inputs)
    (hdata : .data key data ∈ ops inputs)
    (hchecks : ∀ r ∈ receivers, ∃ check, .check key r check ∈ ops inputs) {v : Value}
    (hv : (run t inputs).1.consistency.lookup key = some v) : v.registered = false := by
  have hcomplete : (known key (ops inputs)).Complete t key := by
    obtain ⟨receivers', hknown⟩ := Option.isSome_iff_exists.mp (known_request_isSome hrequest)
    obtain ⟨received, hreceived⟩ := Option.isSome_iff_exists.mp (known_data_isSome hdata)
    obtain rfl := honce.request_unique hrequest (mem_of_known_request hknown)
    refine ⟨receivers, received, hknown, hreceived, fun r hr => ?_⟩
    obtain ⟨check, hcheck⟩ := hchecks r hr
    obtain ⟨check', hcheck'⟩ := Option.isSome_iff_exists.mp (known_checks_isSome hcheck)
    exact ⟨check', hcheck', hvalid receivers received hrequest (mem_of_known_data hreceived) r hr
      check' (mem_of_known_checks hcheck')⟩
  have htracks := tracks_run honce hcovered
  rw [hv] at htracks
  rcases htracks with hlive | ⟨-, hunregistered⟩
  · cases hlive with
    | collecting hc => exact hc.registered
    | waiting hr hstuck => exact absurd hcomplete (not_complete_of_stuck hr hstuck)
  · exact hunregistered v rfl

/-- The data of an entry came with a command. -/
theorem received_run (inputs : List Input) (key : Key) {v : Value} {data : CheckData}
    (hv : (run t inputs).1.consistency.lookup key = some v) (hdata : v.received = some data) :
    .data key data ∈ ops inputs := by
  induction inputs using List.reverseRecOn generalizing v with
  | nil => cases hv
  | append_singleton is i ih =>
      rw [run_concat, lookup_stepOp] at hv
      rw [ops_append]
      have hold {v' : Value} (hv' : (run t is).1.consistency.lookup key = some v')
          (hdata' : v'.received = some data) : .data key data ∈ ops is ++ ops [i] :=
        List.mem_append_left _ (ih hv' hdata')
      split at hv
      · rename_i hkey
        -- only data commands store data; the others keep what an entry has
        cases hop : i.command.op with
        | wait channel =>
            rw [hop] at hkey
            cases hkey
        | request key' receivers =>
            rw [hop] at hv
            cases hentry : (run t is).1.consistency.lookup key with
            | none =>
                rw [hentry] at hv
                rw [← Option.some.inj hv] at hdata
                cases hdata
            | some v' =>
                rw [hentry] at hv
                refine hold hentry ?_
                rw [← (v'.register_fst receivers).1, ← (settle_eq_some hv).2, hdata]
        | check key' receiver sent =>
            rw [hop] at hv
            cases hentry : (run t is).1.consistency.lookup key with
            | none =>
                rw [hentry] at hv
                rw [← Option.some.inj hv] at hdata
                cases hdata
            | some v' =>
                rw [hentry] at hv
                refine hold hentry ?_
                rw [← Value.receive_received v' receiver sent, ← (settle_eq_some hv).2, hdata]
        | data key' received =>
            rw [hop] at hv hkey
            obtain rfl : key' = key := Option.some.inj hkey
            have hnew : Op.data key' received ∈ ops [i] := by simp [ops, hop]
            cases hentry : (run t is).1.consistency.lookup key' with
            | none =>
                rw [hentry] at hv
                rw [← Option.some.inj hv] at hdata
                obtain rfl : received = data := Option.some.inj hdata
                exact List.mem_append_right _ hnew
            | some v' =>
                rw [hentry] at hv
                simp only [entryAfter, Value.receiveData_fst] at hv
                rw [(settle_eq_some hv).2] at hdata
                cases hreceived : v'.received with
                | none =>
                    obtain rfl : received = data := by simpa [hreceived] using hdata
                    exact List.mem_append_right _ hnew
                | some data' =>
                    obtain rfl : data' = data := by simpa [hreceived] using hdata
                    exact hold hentry hreceived
      · exact hold hv hdata

end Hmpc.Net.Consistency
