/-
# Hmpc.Net.Tasks -- the results of the tasks of an operation

An operation of a queue spawns a task for each message and joins them in the order in which they
complete. `collect_tasks` is meant to return the error of the only task that failed, or that there
were several. A task that succeeds after a failed one takes the branch of a second failure, so the
result depends on the order (`collectTasks_iff`).
-/
import Hmpc.Net.Consistency

namespace Hmpc.Net

/-! ## Errors and their codes -/

/-- `quinn::ConnectionError`, without the reasons. -/
inductive ConnectionError where
  | versionMismatch
  | transportError
  | connectionClosed
  | applicationClosed
  | reset
  | timedOut
  | locallyClosed
  | cidsExhausted
  deriving DecidableEq, Repr

/-- `quinn::WriteError` -/
inductive WriteError where
  | stopped
  | connectionLost (error : ConnectionError)
  | closedStream
  | zeroRttRejected
  deriving DecidableEq, Repr

inductive ClientError where
  | connection (error : ConnectionError)
  | write (error : WriteError)
  deriving DecidableEq, Repr

inductive SendError where
  | send
  | receive
  | client (error : ClientError)
  deriving DecidableEq, Repr

/-- `ReceiveError`, the cases that a queue can return. `sizeMismatch` is `Server(SizeMismatch)`. -/
inductive ReceiveError where
  | send
  | receive
  | sizeMismatch (received expected : MessageSize)
  | consistencyCheck (error : ConsistencyCheckError)
  deriving DecidableEq, Repr

/-- `tokio::task::JoinError`; a task that was not cancelled panicked. -/
inductive JoinError where
  | cancelled
  | panicked
  deriving DecidableEq, Repr

inductive SendReceiveError where
  | send (error : SendError)
  | receive (error : ReceiveError)
  | join (error : JoinError)
  | multiple
  deriving DecidableEq, Repr

/-- The codes that a queue returns to C++. -/
inductive SendReceiveErrc where
  | ok
  | invalidHandle
  | invalidPointer
  | invalidSize
  | invalidCommunicator
  | invalidMetadata
  | channelCouldNotReceive
  | channelCouldNotSend
  | connectionVersionMismatch
  | connectionTransportError
  | connectionClosed
  | connectionReset
  | connectionTimedOut
  | connectionLocallyClosed
  | connectionsExhausted
  | applicationClosed
  | streamStopped
  | streamClosed
  | streamRejected
  | sizeMismatch
  | taskCancelled
  | taskPanicked
  | multipleErrors
  | unknownSender
  | multipleChecks
  | multipleRequests
  | multipleMessages
  | unknownCheck
  | inconsistentSignatureVerification
  | inconsistentCollectiveCommunication
  deriving DecidableEq, Repr

/-! The codes go through `SendErrc` and `ReceiveErrc`, whose cases keep their names. -/

def ConnectionError.toErrc : ConnectionError → SendReceiveErrc
  | versionMismatch => .connectionVersionMismatch
  | transportError => .connectionTransportError
  | connectionClosed => .connectionClosed
  | applicationClosed => .applicationClosed
  | reset => .connectionReset
  | timedOut => .connectionTimedOut
  | locallyClosed => .connectionLocallyClosed
  | cidsExhausted => .connectionsExhausted

def SendError.toErrc : SendError → SendReceiveErrc
  | send => .channelCouldNotSend
  | receive => .channelCouldNotReceive
  | client (.connection connection) => connection.toErrc
  | client (.write .stopped) => .streamStopped
  | client (.write (.connectionLost connection)) => connection.toErrc
  | client (.write .closedStream) => .streamClosed
  | client (.write .zeroRttRejected) => .streamRejected

def ReceiveError.toErrc : ReceiveError → SendReceiveErrc
  | send => .channelCouldNotSend
  | receive => .channelCouldNotReceive
  | sizeMismatch _ _ => .sizeMismatch
  | consistencyCheck .multipleChecks => .multipleChecks
  | consistencyCheck .multipleRequests => .multipleRequests
  | consistencyCheck .multipleMessages => .multipleMessages
  | consistencyCheck .unknownSender => .unknownSender
  | consistencyCheck .unknownCheck => .unknownCheck
  | consistencyCheck .inconsistentSignatureVerification => .inconsistentSignatureVerification
  | consistencyCheck .inconsistentCollectiveCommunication => .inconsistentCollectiveCommunication

def SendReceiveError.toErrc : SendReceiveError → SendReceiveErrc
  | send error => error.toErrc
  | receive error => error.toErrc
  | join .cancelled => .taskCancelled
  | join .panicked => .taskPanicked
  | multiple => .multipleErrors

theorem ConnectionError.toErrc_ne (error : ConnectionError) :
    error.toErrc ≠ .ok ∧ error.toErrc ≠ .multipleErrors := by
  cases error <;> exact ⟨nofun, nofun⟩

theorem SendError.toErrc_ne (error : SendError) :
    error.toErrc ≠ .ok ∧ error.toErrc ≠ .multipleErrors := by
  rcases error with _ | _ | (connection | _ | connection | _ | _)
  case client.connection => exact connection.toErrc_ne
  case client.write.connectionLost => exact connection.toErrc_ne
  all_goals exact ⟨nofun, nofun⟩

theorem ReceiveError.toErrc_ne (error : ReceiveError) :
    error.toErrc ≠ .ok ∧ error.toErrc ≠ .multipleErrors := by
  rcases error with _ | _ | _ | error
  case consistencyCheck => cases error <;> exact ⟨nofun, nofun⟩
  all_goals exact ⟨nofun, nofun⟩

/-- No error is returned as a success, and only `Multiple` as several errors. -/
theorem SendReceiveError.toErrc_spec (error : SendReceiveError) :
    error.toErrc ≠ .ok ∧ (error.toErrc = .multipleErrors ↔ error = .multiple) := by
  rcases error with error | error | (_ | _) | _
  · exact ⟨error.toErrc_ne.1, ⟨fun h => absurd h error.toErrc_ne.2, nofun⟩⟩
  · exact ⟨error.toErrc_ne.1, ⟨fun h => absurd h error.toErrc_ne.2, nofun⟩⟩
  all_goals exact ⟨nofun, by simp [toErrc]⟩

/-! ## Joining tasks -/

/-- What `join_next` returns for a task. -/
abbrev TaskResult (ε : Type) := Except JoinError (Except ε Unit)

variable {ε : Type} (into : ε → SendReceiveError)

def newResult : TaskResult ε → Except SendReceiveError Unit
  | .ok (.ok ()) => .ok ()
  | .error e => .error (.join e)
  | .ok (.error e) => .error (into e)

/-- The loop body of `collect_tasks`. -/
def collectStep (result : Except SendReceiveError Unit) (task : TaskResult ε) :
    Except SendReceiveError Unit :=
  match result with
  | .ok () => newResult into task
  | .error _ => .error .multiple

/-- `collect_tasks`, for the order in which the tasks are joined. -/
def collectTasks (tasks : List (TaskResult ε)) : Except SendReceiveError Unit :=
  tasks.foldl (collectStep into) (.ok ())

/-- The error of a task that sends or receives. -/
inductive TransferError where
  | send (error : SendError)
  | receive (error : ReceiveError)

/-- A task as it is spawned by `send_on` or `receive_on`, which convert its error. -/
def spawned (task : TaskResult TransferError) : TaskResult SendReceiveError :=
  task.map fun result => result.mapError fun
    | .send error => .send error
    | .receive error => .receive error

/-- The error that a task contributes. -/
def failure (task : TaskResult TransferError) : Option SendReceiveError :=
  match newResult id (spawned task) with
  | .ok () => none
  | .error e => some e

def failures (tasks : List (TaskResult TransferError)) : List SendReceiveError :=
  tasks.filterMap failure

/-- `collect_tasks` on the tasks of a queue. -/
def collect (tasks : List (TaskResult TransferError)) : Except SendReceiveError Unit :=
  collectTasks id (tasks.map spawned)

/-- What the result of tasks is meant to be. -/
structure Collects (tasks : List (TaskResult TransferError))
    (result : Except SendReceiveError Unit) :
    Prop where
  ok_iff : result = .ok () ↔ failures tasks = []
  single_iff : ∀ e, e ≠ .multiple → (result = .error e ↔ failures tasks = [e])
  multiple_iff : result = .error .multiple ↔ 2 ≤ (failures tasks).length

theorem failure_ne_multiple {task : TaskResult TransferError} {e : SendReceiveError}
    (h : failure task = some e) : e ≠ .multiple := by
  rcases task with _ | (_ | _) | _
  all_goals
    rintro rfl
    cases h

theorem newResult_eq (task : TaskResult TransferError) :
    newResult id (spawned task) = match failure task with
      | none => .ok ()
      | some e => .error e := by
  unfold failure
  cases newResult id (spawned task) <;> rfl

theorem collect_concat (tasks : List (TaskResult TransferError))
    (task : TaskResult TransferError) :
    collect (tasks ++ [task]) = collectStep id (collect tasks) (spawned task) := by
  simp [collect, collectTasks]

theorem failures_concat (tasks : List (TaskResult TransferError))
    (task : TaskResult TransferError) :
    failures (tasks ++ [task]) = failures tasks ++ (failure task).toList := by
  rw [failures, List.filterMap_append]
  cases h : failure task <;> simp [failures, h]

/-- **What `collect_tasks` returns**, by the tasks that were joined before the last one. -/
theorem collect_eq (tasks : List (TaskResult TransferError)) (task : TaskResult TransferError) :
    collect (tasks ++ [task]) =
      if failures tasks = [] then
        match failure task with
        | none => .ok ()
        | some e => .error e
      else .error .multiple := by
  induction tasks using List.reverseRecOn generalizing task with
  | nil =>
      rw [collect_concat, ← newResult_eq]
      rfl
  | append_singleton tasks last ih =>
      rw [collect_concat, ih last, failures_concat]
      by_cases hnone : failures tasks = []
      · cases hlast : failure last with
        | none => simp [hnone, collectStep, newResult_eq]
        | some e => simp [hnone, collectStep]
      · simp [hnone, collectStep]

/-- The last task that was joined failed. -/
def LastFailed (tasks : List (TaskResult TransferError)) : Prop :=
  ∃ task, tasks.getLast? = some task ∧ (failure task).isSome = true

theorem lastFailed_concat (tasks : List (TaskResult TransferError))
    (task : TaskResult TransferError) :
    LastFailed (tasks ++ [task]) ↔ (failure task).isSome = true := by
  simp [LastFailed]

/-- In one order, the result is as meant unless the only failure is followed by a success. -/
theorem collects_iff (tasks : List (TaskResult TransferError)) :
    Collects tasks (collect tasks) ↔ ((failures tasks).length = 1 → LastFailed tasks) := by
  rcases List.eq_nil_or_concat tasks with rfl | ⟨init, task, rfl⟩
  · exact ⟨nofun, fun _ => ⟨by simp [collect, collectTasks, failures],
      fun e _ => by simp [collect, collectTasks, failures],
      by simp [collect, collectTasks, failures]⟩⟩
  · rw [List.concat_eq_append, lastFailed_concat]
    have heq := collect_eq init task
    have hfailures := failures_concat init task
    generalize collect (init ++ [task]) = result at heq ⊢
    -- only the last task decides while no failure has been collected
    by_cases hnone : failures init = []
    · rw [if_pos hnone] at heq
      rw [hnone, List.nil_append] at hfailures
      cases htask : failure task with
      | none =>
          rw [htask] at heq hfailures
          subst heq
          refine ⟨fun _ hone => ?_, fun _ => ?_⟩
          · rw [hfailures] at hone
            exact absurd hone (by simp)
          · exact ⟨by simp [hfailures], by simp [hfailures], by simp [hfailures]⟩
      | some e =>
          have hne := failure_ne_multiple htask
          rw [htask] at heq hfailures
          subst heq
          exact ⟨fun _ _ => rfl,
            fun _ => ⟨by simp [hfailures], by simp [hfailures], by simp [hfailures, hne]⟩⟩
    · rw [if_neg hnone] at heq
      subst heq
      have hpos : 0 < (failures init).length := List.length_pos_iff.mpr hnone
      have hlength : (failures (init ++ [task])).length =
          (failures init).length + (failure task).toList.length := by
        rw [hfailures, List.length_append]
      constructor
      · intro h hone
        have := h.multiple_iff.mp rfl
        omega
      · intro h
        have hseveral : 2 ≤ (failures (init ++ [task])).length := by
          cases htask : failure task with
          | none =>
              rw [htask] at h hlength
              simp only [Option.isSome_none, Bool.false_eq_true, imp_false] at h
              rw [Option.toList_none, List.length_nil] at hlength
              omega
          | some e =>
              rw [htask, Option.toList_some, List.length_singleton] at hlength
              omega
        refine ⟨⟨nofun, fun hnil => ?_⟩, fun e he => ⟨fun heq => ?_, fun hsingle => ?_⟩,
          ⟨fun _ => hseveral, fun _ => rfl⟩⟩
        · rw [hnil] at hseveral
          simp at hseveral
        · cases heq
          exact absurd rfl he
        · rw [hsingle] at hseveral
          simp at hseveral

theorem mem_failures {tasks : List (TaskResult TransferError)} {e : SendReceiveError}
    (h : e ∈ failures tasks) : ∃ task ∈ tasks, failure task = some e :=
  List.mem_filterMap.mp h

/-- **Joining tasks.** An order gives the result that is meant unless its only failure is followed
by a success; all orders of some tasks do unless one of several tasks fails. -/
theorem collectTasks_iff (tasks : List (TaskResult TransferError)) :
    (Collects tasks (collect tasks) ↔ ((failures tasks).length = 1 → LastFailed tasks)) ∧
      ((∀ order, order.Perm tasks → Collects order (collect order)) ↔
        ((failures tasks).length = 1 → tasks.length = 1)) := by
  refine ⟨collects_iff tasks, ⟨fun h hone => ?_, fun h order horder => ?_⟩⟩
  · obtain ⟨e, he⟩ := List.length_eq_one_iff.mp hone
    have hmem : e ∈ failures tasks := he ▸ List.mem_singleton_self e
    obtain ⟨task, htask, hfails⟩ := mem_failures hmem
    obtain ⟨left, right, rfl⟩ := List.append_of_mem htask
    -- the failed task joined first, the others after it
    have hperm : (task :: (left ++ right)).Perm (left ++ task :: right) :=
      List.perm_middle.symm
    have hlast := (collects_iff _).mp (h _ hperm)
      ((hperm.filterMap failure).length_eq.trans hone)
    have hothers : failures (left ++ right) = [] := by
      have hlength := (hperm.filterMap failure).length_eq.trans hone
      rw [List.filterMap_cons_some hfails, List.length_cons] at hlength
      exact List.length_eq_zero_iff.mp (Nat.succ_injective hlength)
    rcases List.eq_nil_or_concat (left ++ right) with hnil | ⟨init, last, hinit⟩
    · rw [← hperm.length_eq, hnil, List.length_singleton]
    · rw [hinit, List.concat_eq_append, ← List.cons_append, lastFailed_concat] at hlast
      obtain ⟨e', he'⟩ := Option.isSome_iff_exists.mp hlast
      rw [hinit, List.concat_eq_append, failures_concat, he', Option.toList_some] at hothers
      simp at hothers
  · rw [collects_iff]
    intro hone
    have hlength := h ((horder.filterMap failure).length_eq.symm.trans hone)
    obtain ⟨task, rfl⟩ := List.length_eq_one_iff.mp (horder.length_eq.trans hlength)
    obtain ⟨e, he⟩ := List.length_eq_one_iff.mp hone
    have hmem : e ∈ failures [task] := he ▸ List.mem_singleton_self e
    obtain ⟨task', htask', hfails⟩ := mem_failures hmem
    obtain rfl := List.mem_singleton.mp htask'
    exact ⟨task', rfl, by rw [hfails]; rfl⟩

/-- A message could not be sent, and then another one was received. -/
def failedThenOk : List (TaskResult TransferError) :=
  [.ok (.error (.send (.client (.connection .timedOut)))), .ok (.ok ())]

theorem single_failure_reported_as_multiple :
    failures failedThenOk = [.send (.client (.connection .timedOut))] ∧
      collect failedThenOk = .error .multiple ∧
      collect failedThenOk.reverse = .error (.send (.client (.connection .timedOut))) ∧
      ¬ Collects failedThenOk (collect failedThenOk) := by
  refine ⟨rfl, rfl, rfl, fun h => ?_⟩
  have hseveral := h.multiple_iff.mp rfl
  exact absurd hseveral (by decide)

end Hmpc.Net
