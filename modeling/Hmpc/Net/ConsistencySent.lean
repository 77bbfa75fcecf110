/-
# Hmpc.Net.ConsistencySent -- what the consistency task has sent, by what it knows

In a run whose requests find only checks of their own receivers, the check messages of a key are
those that are `due` from its request and its data, also when commands come more than once; and
when every requested operation is complete, every wait is answered.
-/
import Hmpc.Net.ConsistencyHonest
import Hmpc.Net.ConsistencyWait

namespace Hmpc.Net.Consistency

open Hmpc.Lib

variable {f : Features} {t : Task f} {key : Key}

/-- Without a request, an entry holds the checks that are known. -/
theorem covered_of_known {k : Known} {entry : Option Value} {receivers : Communicator}
    (h : Tracks t key k entry) (hnew : k.request = none)
    (hknown : ∀ r, (k.checks r).isSome → r ∈ receivers) :
    ∀ v, entry = some v → v.coveredBy receivers = true := by
  rintro v rfl
  rw [Value.coveredBy_iff]
  intro r hr
  obtain ⟨stored, hstored⟩ := Map.mem_iff_exists.mp hr
  rcases h with hlive | ⟨⟨_, _, hrequest, -⟩, -⟩
  · cases hlive with
    | collecting hc =>
        rw [hc.receivers, Option.map_eq_some_iff] at hstored
        obtain ⟨check, hcheck, -⟩ := hstored
        exact hknown r (by rw [hcheck]; rfl)
    | waiting hr =>
        obtain ⟨_, hrequest, -⟩ := hr.receivers
        rw [hnew] at hrequest
        cases hrequest
  · rw [hnew] at hrequest
    cases hrequest

/-- A complete operation has nothing more to send. -/
theorem due_add_of_complete {k : Known} (h : k.Complete t key) (op : Op) :
    due t key (k.add key op) = due t key k := by
  obtain ⟨receivers, data, hrequest, hdata, -⟩ := h
  simp [due, Known.add, hrequest, hdata]

theorem notified_of_unregistered {net : PartyID → NetOutcome} {entry : Option Value} {op : Op}
    (h : ∀ v, entry = some v → v.registered = false)
    (hop : ∀ key receivers, op ≠ .request key receivers) :
    checksSent (notified t net entry op) = [] := by
  cases op with
  | request key receivers => exact absurd rfl (hop key receivers)
  | wait channel => rfl
  | check key receiver sent => rfl
  | data key received =>
      cases entry with
      | none => rfl
      | some v =>
          have hv := h v rfl
          cases hreceived : v.received with
          | some data => simp [notified, onData, Value.receiveData, hreceived, checksSent]
          | none => simp [notified, onData, Value.receiveData, hreceived, hv, checksSent]

/-- One command sends what becomes due with it, also after the operation is complete. -/
theorem notified_perm_of_tracks {net : PartyID → NetOutcome} {k : Known} {entry : Option Value}
    {op : Op} (h : Tracks t key k entry) (hnet : ∀ r, net r = .ok) (hkey : op.key? = some key)
    (hrequest : RequestOk key k entry op) :
    (due t key k ++ checksSent (notified t net entry op)).Perm (due t key (k.add key op)) := by
  rcases h with hlive | ⟨hcomplete, hunregistered⟩
  · exact notified_perm hlive hnet hkey hrequest
  · rw [due_add_of_complete hcomplete, notified_of_unregistered hunregistered, List.append_nil]
    intro key' receivers hop
    obtain ⟨_, _, hknown, -⟩ := hcomplete
    subst hop
    obtain rfl : key' = key := Option.some.inj hkey
    rw [(hrequest receivers rfl).1] at hknown
    cases hknown

/-- **The check messages of a run**, for a key whose request finds only checks of its receivers. -/
theorem sentFor_run {inputs : List Input} (honce : OneRequest inputs)
    (hcovered : Admits (step t) (CoveredFor key) State.initial inputs)
    (hnet : ∀ i ∈ inputs, ∀ r, i.net r = .ok) :
    (sentFor key (run t inputs).2).Perm (due t key (known key (ops inputs))) := by
  induction inputs using List.reverseRecOn with
  | nil => exact List.Perm.refl _
  | append_singleton is i ih =>
      have hold := ih honce.of_append ((admits_concat ..).mp hcovered).1
        fun j hj => hnet j (List.mem_append_left _ hj)
      have htracks := tracks_run honce.of_append ((admits_concat ..).mp hcovered).1
      rw [run_concat, ops_append, sentFor_append, show ops [i] = [i.command.op] from rfl,
        known_concat]
      by_cases hkey : i.command.op.key? = some key
      · rw [sentFor_stepOp hkey]
        refine (hold.append_right _).trans
          (notified_perm_of_tracks htracks (hnet i (by simp)) hkey fun receivers hop => ?_)
        have hcov : Covered (run t is).1 i := ((admits_concat ..).mp hcovered).2 (by rw [hop]; rfl)
        exact ⟨honce.known_request hop, hcov.entry hop⟩
      · rw [sentFor_stepOp_of_ne hkey, List.append_nil, Known.add_of_key_ne hkey]
        exact hold

/-- A check message that was sent is due for some key. -/
theorem due_of_checksSent {inputs : List Input} (honce : OneRequest inputs)
    (hcovered : ∀ key, Admits (step t) (CoveredFor key) State.initial inputs)
    (hnet : ∀ i ∈ inputs, ∀ r, i.net r = .ok) {m : SendMessage} {r : PartyID}
    (h : (m, r) ∈ checksSent (run t inputs).2) :
    ∃ key, (m, r) ∈ due t key (known key (ops inputs)) := by
  obtain ⟨key, -, hm⟩ := exists_key_of_checksSent t inputs h
  exact ⟨key, (sentFor_run honce (hcovered key) hnet).mem_iff.mp (List.mem_filter.mpr ⟨h, hm⟩)⟩

theorem checksSent_of_due {inputs : List Input} (honce : OneRequest inputs)
    (hcovered : Admits (step t) (CoveredFor key) State.initial inputs)
    (hnet : ∀ i ∈ inputs, ∀ r, i.net r = .ok) {e : SendMessage × PartyID}
    (h : e ∈ due t key (known key (ops inputs))) : e ∈ checksSent (run t inputs).2 :=
  (List.mem_filter.mp ((sentFor_run honce hcovered hnet).mem_iff.mpr h)).1

theorem mem_due {k : Known} {m : SendMessage} {r : PartyID} : (m, r) ∈ due t key k ↔
    ∃ receivers data, k.request = some receivers ∧ k.data = some data ∧ r ∈ receivers ∧
      m = checkMessage t.id key data := by
  unfold due
  split
  · rename_i receivers data hrequest hdata
    simp only [List.mem_map, Prod.mk.injEq, hrequest, hdata, Option.some.injEq]
    constructor
    · rintro ⟨r', hr', rfl, rfl⟩
      exact ⟨receivers, data, rfl, rfl, hr', rfl⟩
    · rintro ⟨_, _, rfl, rfl, hr, rfl⟩
      exact ⟨r, hr, rfl, rfl⟩
  · rename_i hnot
    simp only [List.not_mem_nil, false_iff]
    rintro ⟨receivers, data, hrequest, hdata, -⟩
    exact hnot receivers data hrequest hdata

/-- **When every requested operation is complete, every wait is answered.** -/
theorem answered_of_complete {inputs : List Input} (honce : OneRequest inputs)
    (hcovered : ∀ key, Admits (step t) (CoveredFor key) State.initial inputs)
    (hcomplete : ∀ key receivers, .request key receivers ∈ ops inputs →
      (known key (ops inputs)).Complete t key) :
    (run t inputs).1.openRequests = [] ∧ answersOf (run t inputs).2 = waits inputs := by
  have hconsistent : isConsistent (run t inputs).1.consistency = true := by
    rw [isConsistent_iff]
    intro key v hv
    have htracks := tracks_run honce (hcovered key)
    rw [hv] at htracks
    rcases htracks with hlive | ⟨-, hunregistered⟩
    · cases hlive with
      | collecting hc => exact hc.registered
      | waiting hr hstuck =>
          obtain ⟨receivers, hrequest, -⟩ := hr.receivers
          exact absurd (hcomplete key receivers (mem_of_known_request hrequest))
            (not_complete_of_stuck hr hstuck)
    · exact hunregistered v rfl
  have hopen : (run t inputs).1.openRequests = [] := by
    by_contra hne
    rw [openRequests_run t inputs hne] at hconsistent
    cases hconsistent
  refine ⟨hopen, ?_⟩
  have hconserved := conserved_run t inputs
  rwa [hopen, List.append_nil] at hconserved

end Hmpc.Net.Consistency
