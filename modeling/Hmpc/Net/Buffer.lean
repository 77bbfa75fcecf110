/-
# Hmpc.Net.Buffer -- the message buffer: `message_buffer::run`

The task behind every receive operation. It gets two kinds of commands, a request for the message
with some metadata and a message from the network, and answers a request with the payload of the
message once both are there, whichever came first. `Delivery` says what it has done after any
sequence of commands in terms of the requests and arrivals in it alone: the answers are their join
on the metadata, and the two maps hold what is unmatched on either side.
-/
import Hmpc.Lib.Machine
import Hmpc.Lib.Map
import Hmpc.Lib.Matching
import Hmpc.Net.Wire

namespace Hmpc.Net

open Hmpc.Lib Hmpc.Lib.Matching

/-- The sending half of a oneshot channel, named by a number. -/
abbrev AnswerChannel := ℕ

inductive DataCommand where
  /-- Want to obtain data for this -/
  | receive (message : Message) (answerChannel : AnswerChannel)
  /-- Received data from network -/
  | received (message : ReceiveMessage)

namespace MessageBuffer

structure State where
  messageBuffer : AList fun _ : Message => OwnedData
  openRequests : AList fun _ : Message => AnswerChannel

def State.initial : State := ⟨∅, ∅⟩

/-- What the task does to the outside: it answers a request, or it logs that an entry of one of
its maps was overwritten (an overwritten request is dropped without an answer). -/
inductive Event where
  | answer (message : Message) (channel : AnswerChannel) (data : OwnedData)
  | alreadyWaiting (message : Message) (dropped : AnswerChannel)
  | alreadyStored (message : Message) (dropped : OwnedData)

/-- One iteration of the loop of `run`. -/
def step (s : State) : DataCommand → State × List Event
  | .receive message channel =>
      match s.messageBuffer.lookup message with
      | some data =>
          ({ s with messageBuffer := s.messageBuffer.erase message },
            [.answer message channel data])
      | none =>
          ({ s with openRequests := s.openRequests.insert message channel },
            ((s.openRequests.lookup message).map (Event.alreadyWaiting message)).toList)
  | .received message =>
      match s.openRequests.lookup message.metadata with
      | some channel =>
          ({ s with openRequests := s.openRequests.erase message.metadata },
            [.answer message.metadata channel message.data])
      | none =>
          ({ s with messageBuffer := s.messageBuffer.insert message.metadata message.data },
            ((s.messageBuffer.lookup message.metadata).map
              (Event.alreadyStored message.metadata)).toList)

def run (commands : List DataCommand) : State × List Event := exec step State.initial commands

/-! ## Requests, arrivals and answers -/

def requests (commands : List DataCommand) : List (Message × AnswerChannel) :=
  commands.filterMap fun
    | .receive message channel => some (message, channel)
    | .received _ => none

def arrivals (commands : List DataCommand) : List (Message × OwnedData) :=
  commands.filterMap fun
    | .receive _ _ => none
    | .received message => some (message.metadata, message.data)

def answers (events : List Event) : List (Message × AnswerChannel × OwnedData) :=
  events.filterMap fun
    | .answer message channel data => some (message, channel, data)
    | _ => none

theorem requests_append (cs ds : List DataCommand) :
    requests (cs ++ ds) = requests cs ++ requests ds := List.filterMap_append

theorem arrivals_append (cs ds : List DataCommand) :
    arrivals (cs ++ ds) = arrivals cs ++ arrivals ds := List.filterMap_append

@[simp] theorem requests_receive (cs : List DataCommand) (m : Message) (ch : AnswerChannel) :
    requests (cs ++ [.receive m ch]) = requests cs ++ [(m, ch)] := by
  simp [requests]

@[simp] theorem arrivals_receive (cs : List DataCommand) (m : Message) (ch : AnswerChannel) :
    arrivals (cs ++ [.receive m ch]) = arrivals cs := by
  simp [arrivals]

@[simp] theorem requests_received (cs : List DataCommand) (r : ReceiveMessage) :
    requests (cs ++ [.received r]) = requests cs := by
  simp [requests]

@[simp] theorem arrivals_received (cs : List DataCommand) (r : ReceiveMessage) :
    arrivals (cs ++ [.received r]) = arrivals cs ++ [(r.metadata, r.data)] := by
  simp [arrivals]

theorem answers_append (es es' : List Event) :
    answers (es ++ es') = answers es ++ answers es' := List.filterMap_append

/-- Every metadata is requested at most once and received at most once. -/
structure Once (commands : List DataCommand) : Prop where
  requests : ((requests commands).map Prod.fst).Nodup
  arrivals : ((arrivals commands).map Prod.fst).Nodup

theorem Once.of_append {cs ds : List DataCommand} (h : Once (cs ++ ds)) : Once cs := by
  obtain ⟨hrequests, harrivals⟩ := h
  rw [requests_append, List.map_append] at hrequests
  rw [arrivals_append, List.map_append] at harrivals
  exact ⟨hrequests.of_append_left, harrivals.of_append_left⟩

theorem Once.perm {cs ds : List DataCommand} (h : Once cs) (hp : cs.Perm ds) : Once ds :=
  ⟨((hp.filterMap _).map _).nodup_iff.mp h.requests,
    ((hp.filterMap _).map _).nodup_iff.mp h.arrivals⟩

theorem Once.not_requested {cs : List DataCommand} {m : Message} {ch : AnswerChannel}
    (h : Once (cs ++ [.receive m ch])) : m ∉ (MessageBuffer.requests cs).map Prod.fst := by
  have := h.requests
  rw [requests_append, List.map_append, List.nodup_append] at this
  exact fun hm => this.2.2 m hm m (by simp [MessageBuffer.requests]) rfl

theorem Once.not_arrived {cs : List DataCommand} {r : ReceiveMessage}
    (h : Once (cs ++ [.received r])) : r.metadata ∉ (MessageBuffer.arrivals cs).map Prod.fst := by
  have := h.arrivals
  rw [arrivals_append, List.map_append, List.nodup_append] at this
  exact fun hm => this.2.2 _ hm _ (by simp [MessageBuffer.arrivals]) rfl

/-! ## Where answers come from -/

/-- What is stored and what is answered has arrived, and there are no more answers and waiting
requests for any kind of message than there were requests. -/
structure Sourced (commands : List DataCommand) (events : List Event) (s : State) : Prop where
  stored : ∀ m data, s.messageBuffer.lookup m = some data → (m, data) ∈ arrivals commands
  answered : ∀ m ch data, (m, ch, data) ∈ answers events → (m, data) ∈ arrivals commands
  counted : ∀ p : Message → Bool,
    (answers events).countP (fun e => p e.1) + s.openRequests.entries.countP (fun e => p e.1) ≤
      (requests commands).countP fun e => p e.1

theorem sourced_receive {cs : List DataCommand} {es : List Event} {s : State} {m : Message}
    {ch : AnswerChannel} (h : Sourced cs es s) :
    Sourced (cs ++ [.receive m ch]) (es ++ (step s (.receive m ch)).2)
      (step s (.receive m ch)).1 := by
  have hrequests := requests_receive cs m ch
  have harrivals := arrivals_receive cs m ch
  -- the message is there and is handed out, or the request is kept
  cases hlookup : s.messageBuffer.lookup m with
  | some data =>
      simp only [step, hlookup]
      refine ⟨fun m' data' hstored => ?_, fun m' ch' data' hanswer => ?_, fun p => ?_⟩
      · rw [Map.lookup_erase] at hstored
        split at hstored
        · cases hstored
        · exact harrivals ▸ h.stored m' data' hstored
      · rw [answers_append, List.mem_append] at hanswer
        rw [harrivals]
        rcases hanswer with hold | hnow
        · exact h.answered m' ch' data' hold
        · obtain ⟨rfl, -, rfl⟩ : m' = m ∧ ch' = ch ∧ data' = data := by
            simpa [answers] using hnow
          exact h.stored _ _ hlookup
      · have := h.counted p
        rw [answers_append, hrequests]
        simp only [answers, List.filterMap_cons, List.filterMap_nil, List.countP_append,
          List.countP_singleton] at this ⊢
        omega
  | none =>
      simp only [step, hlookup]
      have hquiet : answers (((s.openRequests.lookup m).map (Event.alreadyWaiting m)).toList) =
          [] := by
        cases s.openRequests.lookup m <;> rfl
      refine ⟨fun m' data' hstored => harrivals ▸ h.stored m' data' hstored,
        fun m' ch' data' hanswer => ?_, fun p => ?_⟩
      · rw [answers_append, hquiet, List.append_nil] at hanswer
        exact harrivals ▸ h.answered m' ch' data' hanswer
      · have := h.counted p
        have hinsert := Map.countP_insert_le s.openRequests m ch fun e => p e.1
        rw [answers_append, hquiet, List.append_nil, hrequests, List.countP_append,
          List.countP_singleton]
        dsimp only at hinsert ⊢
        omega

theorem sourced_received {cs : List DataCommand} {es : List Event} {s : State}
    {r : ReceiveMessage} (h : Sourced cs es s) :
    Sourced (cs ++ [.received r]) (es ++ (step s (.received r)).2) (step s (.received r)).1 := by
  have hrequests := requests_received cs r
  have harrivals := arrivals_received cs r
  have hold {m : Message} {data : OwnedData} (hmem : (m, data) ∈ arrivals cs) :
      (m, data) ∈ arrivals (cs ++ [.received r]) :=
    harrivals ▸ List.mem_append_left _ hmem
  have hnew : (r.metadata, r.data) ∈ arrivals (cs ++ [.received r]) :=
    harrivals ▸ List.mem_append_right _ (List.mem_singleton.mpr rfl)
  -- a request is open and gets the payload, or the message is stored
  cases hlookup : s.openRequests.lookup r.metadata with
  | some ch =>
      simp only [step, hlookup]
      refine ⟨fun m data hstored => hold (h.stored m data hstored),
        fun m ch' data hanswer => ?_, fun p => ?_⟩
      · rw [answers_append, List.mem_append] at hanswer
        rcases hanswer with hbefore | hnow
        · exact hold (h.answered m ch' data hbefore)
        · obtain ⟨rfl, -, rfl⟩ : m = r.metadata ∧ ch' = ch ∧ data = r.data := by
            simpa [answers] using hnow
          exact hnew
      · have := h.counted p
        have herase := Map.countP_erase s.openRequests hlookup fun e => p e.1
        rw [answers_append, hrequests]
        simp only [answers, List.filterMap_cons, List.filterMap_nil, List.countP_append,
          List.countP_singleton] at this ⊢
        dsimp only at herase
        omega
  | none =>
      simp only [step, hlookup]
      have hquiet : answers (((s.messageBuffer.lookup r.metadata).map
          (Event.alreadyStored r.metadata)).toList) = [] := by
        cases s.messageBuffer.lookup r.metadata <;> rfl
      refine ⟨fun m data hstored => ?_, fun m ch' data hanswer => ?_, fun p => ?_⟩
      · rw [Map.lookup_insert] at hstored
        split at hstored
        · rename_i hm
          rw [hm, ← Option.some.inj hstored]
          exact hnew
        · exact hold (h.stored m data hstored)
      · rw [answers_append, hquiet, List.append_nil] at hanswer
        exact hold (h.answered m ch' data hanswer)
      · rw [answers_append, hquiet, List.append_nil, hrequests]
        exact h.counted p

/-- In every run, whatever is requested and received how often. -/
theorem sourced_run (commands : List DataCommand) :
    Sourced commands (run commands).2 (run commands).1 := by
  refine invariant_of_step' Sourced ?_ ?_ commands
  · exact ⟨by simp [State.initial], by simp [answers], by simp [answers, State.initial]⟩
  intro cs es s c h
  cases c with
  | receive m ch => exact sourced_receive h
  | received r => exact sourced_received h

/-! ## What the task has done after a sequence of commands -/

/-- The state and the events after `commands`, in terms of the requests and arrivals in them:
requests and arrivals have met, and no entry of a map was overwritten. -/
structure Delivery (commands : List DataCommand) (events : List Event) (s : State) : Prop where
  meeting : Rendezvous (requests commands) (arrivals commands) (answers events) s.openRequests
    s.messageBuffer
  kept : ∀ event ∈ events, ∃ message channel data, event = .answer message channel data

theorem delivery_initial : Delivery [] [] State.initial := ⟨Rendezvous.nil, by simp⟩

theorem kept_append_answer {es : List Event} {m : Message} {ch : AnswerChannel} {data : OwnedData}
    (h : ∀ event ∈ es, ∃ message channel data, event = Event.answer message channel data) :
    ∀ event ∈ es ++ [.answer m ch data],
      ∃ message channel data, event = Event.answer message channel data := by
  intro event hevent
  rcases List.mem_append.mp hevent with hold | hnow
  · exact h event hold
  · exact ⟨m, ch, data, List.mem_singleton.mp hnow⟩

/-- A request, by whether its message is stored. -/
theorem delivery_receive {cs : List DataCommand} {es : List Event} {s : State} {m : Message}
    {ch : AnswerChannel} (h : Delivery cs es s) (honce : Once (cs ++ [.receive m ch])) :
    Delivery (cs ++ [.receive m ch]) (es ++ (step s (.receive m ch)).2)
      (step s (.receive m ch)).1 := by
  have hrequests := requests_receive cs m ch
  have harrivals := arrivals_receive cs m ch
  cases hlookup : s.messageBuffer.lookup m with
  | some data =>
      simp only [step, hlookup]
      refine ⟨?_, kept_append_answer h.kept⟩
      rw [hrequests, harrivals, answers_append]
      exact h.meeting.push_left_of_some ch honce.of_append.arrivals hlookup
  | none =>
      -- the metadata is requested for the first time, so nobody waits for it
      have hopen := h.meeting.lookup_left_eq_none honce.not_requested
      simp only [step, hlookup, hopen, Option.map_none, Option.toList_none, List.append_nil]
      refine ⟨?_, h.kept⟩
      rw [hrequests, harrivals]
      exact h.meeting.push_left_of_none ch honce.not_requested hlookup

/-- A message from the network, by whether it is requested. -/
theorem delivery_received {cs : List DataCommand} {es : List Event} {s : State}
    {r : ReceiveMessage} (h : Delivery cs es s) (honce : Once (cs ++ [.received r])) :
    Delivery (cs ++ [.received r]) (es ++ (step s (.received r)).2) (step s (.received r)).1 := by
  have hrequests := requests_received cs r
  have harrivals := arrivals_received cs r
  cases hlookup : s.openRequests.lookup r.metadata with
  | some ch =>
      simp only [step, hlookup]
      refine ⟨?_, kept_append_answer h.kept⟩
      rw [hrequests, harrivals, answers_append]
      exact h.meeting.push_right_of_some r.data honce.of_append.requests hlookup
  | none =>
      have hstored := h.meeting.symm.lookup_left_eq_none honce.not_arrived
      simp only [step, hlookup, hstored, Option.map_none, Option.toList_none, List.append_nil]
      refine ⟨?_, h.kept⟩
      rw [hrequests, harrivals]
      exact h.meeting.push_right_of_none r.data honce.not_arrived hlookup

/-- **The whole run.** By induction on the commands, one command at a time. -/
theorem delivery_run {commands : List DataCommand} (honce : Once commands) :
    Delivery commands (run commands).2 (run commands).1 := by
  induction commands using List.reverseRecOn with
  | nil => exact delivery_initial
  | append_singleton cs c ih =>
      have hcs := ih honce.of_append
      rw [run, exec_concat]
      cases c with
      | receive m ch => exact delivery_receive hcs honce
      | received r => exact delivery_received hcs honce

/-- **Message buffer delivery.** If no metadata is requested twice and none is received twice,
then after every prefix of the commands: no metadata is in both maps, a request whose message has
arrived has been answered once, with the payload of that message, no other answer was given, and
the two maps hold exactly the requests and the messages without a partner. The answers and the
maps at the end are the same for every order of the commands. -/
theorem message_buffer_delivery (commands : List DataCommand) (honce : Once commands) :
    (∀ seen, seen <+: commands →
      let s := (run seen).1
      let given := answers (run seen).2
      (∀ m, ¬ (m ∈ s.messageBuffer ∧ m ∈ s.openRequests)) ∧
      (∀ m ch data, (m, ch) ∈ requests seen → (m, data) ∈ arrivals seen →
        valuesAt m given = [(ch, data)]) ∧
      (∀ m ch data, (m, ch, data) ∈ given → (m, ch) ∈ requests seen ∧ (m, data) ∈ arrivals seen) ∧
      (∀ m ch, s.openRequests.lookup m = some ch ↔
        (m, ch) ∈ requests seen ∧ ∀ data, (m, data) ∉ arrivals seen) ∧
      (∀ m data, s.messageBuffer.lookup m = some data ↔
        (m, data) ∈ arrivals seen ∧ ∀ ch, (m, ch) ∉ requests seen)) ∧
    (∀ reordered, commands.Perm reordered →
      (answers (run reordered).2).Perm (answers (run commands).2) ∧
      (∀ m, (run reordered).1.openRequests.lookup m = (run commands).1.openRequests.lookup m) ∧
      (∀ m, (run reordered).1.messageBuffer.lookup m =
        (run commands).1.messageBuffer.lookup m)) := by
  constructor
  · rintro seen ⟨rest, rfl⟩ s given
    have hseen := honce.of_append
    have h := (delivery_run hseen).meeting
    refine ⟨fun m hm => h.disjoint m hm.symm, ?_, ?_, ?_, ?_⟩
    · intro m ch data hrequest harrival
      have hvalues := valuesAt_matched m (requests seen) (arrivals seen)
      rw [valuesAt_eq_singleton hseen.requests hrequest,
        valuesAt_eq_singleton hseen.arrivals harrival] at hvalues
      have hperm := valuesAt_perm m h.met
      rw [hvalues] at hperm
      exact List.perm_singleton.mp hperm
    · intro m ch data hgiven
      exact mem_matched.mp (h.met.mem_iff.mp hgiven)
    · intro m ch
      rw [h.left_iff, mem_unmatched]
    · intro m data
      rw [h.right_iff, mem_unmatched]
  · intro reordered hperm
    have h := (delivery_run honce).meeting
    have h' := (delivery_run (honce.perm hperm)).meeting
    -- the order changes neither the requests nor the arrivals, which determine what is met
    have hrequests : (requests commands).Perm (requests reordered) := hperm.filterMap _
    have harrivals : (arrivals commands).Perm (arrivals reordered) := hperm.filterMap _
    refine ⟨?_, fun m => ?_, fun m => ?_⟩
    · exact h'.met.trans ((matched_perm hrequests harrivals).symm.trans h.met.symm)
    · refine Option.ext fun ch => ?_
      rw [h'.left_iff, h.left_iff]
      exact (unmatched_perm hrequests harrivals).mem_iff.symm
    · refine Option.ext fun data => ?_
      rw [h'.right_iff, h.right_iff]
      exact (unmatched_perm harrivals hrequests).mem_iff.symm

/-- One message that comes before its request and one that comes after it. -/
theorem message_buffer_delivery_two :
    let first : Message := ⟨.send, 0, 1, 0, 7, 1⟩
    let second : Message := ⟨.send, 0, 2, 0, 8, 1⟩
    let commands : List DataCommand :=
      [.received ⟨first, [3]⟩, .receive second 0, .receive first 1, .received ⟨second, [4]⟩]
    valuesAt first (answers (run commands).2) = [(1, [3])] ∧
      valuesAt second (answers (run commands).2) = [(0, [4])] := by
  intro first second commands
  have h := (message_buffer_delivery commands ⟨by decide, by decide⟩).1 commands List.prefix_rfl
  exact ⟨h.2.1 first 1 [3] (by decide) (by decide), h.2.1 second 0 [4] (by decide) (by decide)⟩

end MessageBuffer

end Hmpc.Net
