/-
# Hmpc.Net.ConsistencyWait -- no wake-up is lost

Only the branches of `run` with an occupied entry look at whether everything is consistent, after
commands that may have failed. Open requests are nevertheless answered in the step that removes the
last registered entry, in the order in which they came, each of them once.
-/
import Hmpc.Net.ConsistencyRun

namespace Hmpc.Net.Consistency

open Hmpc.Lib

variable {f : Features}

def Op.waits : Op → List AnswerChannel
  | .wait channel => [channel]
  | _ => []

/-- The channels of the waits of a run, in order. -/
def waits (inputs : List Input) : List AnswerChannel := (ops inputs).flatMap Op.waits

/-- Some entry waits for its data or for checks. -/
def Pending (s : State) : Prop :=
  ∃ key value, s.consistency.lookup key = some value ∧ value.registered = true

theorem pending_iff {s : State} : Pending s ↔ isConsistent s.consistency = false := by
  rw [← Bool.not_eq_true, isConsistent_iff]
  simp [Pending]

/-- A command answers a first part of the open requests and of its own wait, and keeps the rest. -/
theorem conserved_stepOp (t : Task f) (net : PartyID → NetOutcome) (s : State) (op : Op)
    (hopen : s.openRequests ≠ [] → isConsistent s.consistency = false) :
    answersOf (stepOp t net s op).2 ++ (stepOp t net s op).1.openRequests =
      s.openRequests ++ op.waits := by
  have hstep := (stepOp_answers t net s op hopen).1
  cases op <;> exact hstep

/-- **Waits are answered in order.** The answered waits of a run and the open ones are all its
waits. -/
theorem conserved_run (t : Task f) (inputs : List Input) :
    answersOf (run t inputs).2 ++ (run t inputs).1.openRequests = waits inputs := by
  induction inputs using List.reverseRecOn with
  | nil => rfl
  | append_singleton is i ih =>
      have hstep := conserved_stepOp t i.net (run t is).1 i.command.op (openRequests_run t is)
      have hwaits : waits (is ++ [i]) = waits is ++ i.command.op.waits := by
        simp [waits, ops]
      rw [run_concat, answersOf_append, List.append_assoc, hstep, ← List.append_assoc, ih, hwaits]

/-- A command after which nothing is pending answers every open request. -/
theorem answers_of_not_pending (t : Task f) (inputs : List Input) (input : Input)
    (hafter : ¬ Pending (run t (inputs ++ [input])).1) :
    answersOf (step t (run t inputs).1 input).2 =
        (run t inputs).1.openRequests ++ input.command.op.waits ∧
      (run t (inputs ++ [input])).1.openRequests = [] := by
  have hnone : (run t (inputs ++ [input])).1.openRequests = [] := by
    by_contra hne
    exact hafter (pending_iff.mpr (openRequests_run t _ hne))
  have hstep := conserved_stepOp t input.net (run t inputs).1 input.command.op
    (openRequests_run t inputs)
  rw [run_concat] at hnone ⊢
  rw [hnone, List.append_nil] at hstep
  exact ⟨hstep, hnone⟩

/-- **No wake-up is lost**, whatever the commands are: while a wait is open an entry is pending, no
channel is answered more often than it waited, and the step that removes the last pending entry
answers all that is open. -/
theorem no_lost_wakeup (t : Task f) (inputs : List Input) :
    ((run t inputs).1.openRequests ≠ [] → Pending (run t inputs).1) ∧
    (∀ channel, (answersOf (run t inputs).2).count channel +
      (run t inputs).1.openRequests.count channel = (waits inputs).count channel) ∧
    ((waits inputs).Nodup → (answersOf (run t inputs).2).Nodup) ∧
    ∀ input, Pending (run t inputs).1 → ¬ Pending (run t (inputs ++ [input])).1 →
      answersOf (step t (run t inputs).1 input).2 = (run t inputs).1.openRequests ∧
        (run t (inputs ++ [input])).1.openRequests = [] := by
  have hconserved := conserved_run t inputs
  refine ⟨fun hopen => pending_iff.mpr (openRequests_run t inputs hopen), fun channel => ?_,
    fun hdistinct => ?_, fun input hbefore hafter => ?_⟩
  · rw [← hconserved, List.count_append]
  · rw [← hconserved] at hdistinct
    exact hdistinct.of_append_left
  · obtain ⟨hanswers, hnone⟩ := answers_of_not_pending t inputs input hafter
    refine ⟨?_, hnone⟩
    -- a wait leaves the map as it is, so it is not the command that removed the last entry
    have hwaits : input.command.op.waits = [] := by
      cases hop : input.command.op with
      | wait channel =>
          refine absurd ?_ hafter
          obtain ⟨key, value, hlookup, hregistered⟩ := hbefore
          refine ⟨key, value, ?_, hregistered⟩
          rw [run_concat, lookup_stepOp, hop]
          exact hlookup
      | request _ _ => rfl
      | check _ _ _ => rfl
      | data _ _ => rfl
    rw [hanswers, hwaits, List.append_nil]

/-- Party 1 waits for the check of party 2. -/
def Recorded.waiting : List Input :=
  [input (.receivedData dataAt1), input (.request (requestTo only2)), input (.wait 0)]

theorem no_lost_wakeup_recorded :
    answersOf (step (Recorded.task 1) (run (Recorded.task 1) Recorded.waiting).1
        (Recorded.input (.receivedCheck Recorded.checkOf2))).2 =
      (run (Recorded.task 1) Recorded.waiting).1.openRequests ∧
    (run (Recorded.task 1) (Recorded.waiting ++
      [Recorded.input (.receivedCheck Recorded.checkOf2)])).1.openRequests = [] := by
  have hwaiting : Pending (run (Recorded.task 1) Recorded.waiting).1 :=
    pending_iff.mpr (by decide +kernel)
  refine (no_lost_wakeup (Recorded.task 1) Recorded.waiting).2.2.2 _ hwaiting ?_
  rw [pending_iff]
  decide +kernel

end Hmpc.Net.Consistency
