import Boostcache.Kernel.CommandHandler.Impl
import Mathlib.Logic.Relation

/-!
This module contains the `Session` of `kernel/net/session.{h,cpp}`: the callback chain that reads
from a socket, feeds the `CommandHandler` and writes the replies. Asio completes every operation that
has been started exactly once, in any order, with or without an error.
-/

open Cpp CommandHandler

inductive Session.Operation where
  | read
  | write (message : ByteString)
  deriving DecidableEq, Repr

inductive Session.Action where
  | readStarted
  | readCompleted (bytes : ByteString)
  | readFailed
  | executed (arguments : Arguments)
  | writeStarted (message : ByteString)
  | writeCompleted
  | writeFailed
  | deleted
  deriving DecidableEq, Repr

structure Session where
  commandHandler : CommandHandler
  outstanding : List Session.Operation
  log : List Session.Action
  deriving DecidableEq, Repr

namespace Session

def asyncRead (s : Session) : Session :=
  { s with outstanding := s.outstanding ++ [.read], log := s.log ++ [.readStarted] }

def asyncWrite (s : Session) (message : ByteString) : Session :=
  { s with
      outstanding := s.outstanding ++ [.write message]
      log := s.log ++ [.writeStarted message]
  }

def delete (s : Session) : Session :=
  { s with log := s.log ++ [.deleted] }

def start : Session :=
  asyncRead { commandHandler := fresh, outstanding := [], log := [] }

def finish (reply : Arguments → ByteString) (s : Session) (arguments : Arguments) : Session :=
  asyncWrite { s with log := s.log ++ [.executed arguments] } (reply arguments)

def handleRead (s : Session) (error : Bool) (fed : Fed) (reply : Arguments → ByteString) : Session :=
  if error then
    s.delete
  else
    let s := fed.executed.foldl (finish reply) { s with commandHandler := fed.handler }
    if fed.needMore then s.asyncRead else s

def handleWrite (s : Session) (error : Bool) : Session :=
  if error then
    s.delete
  else
    s.asyncRead

/--
If a byte outside of the buffer is read nothing is known about what the parser makes of it, but
there are still only two ways to leave it.
-/
inductive Feeds (h : CommandHandler) (bytes : ByteString) : Fed → Prop
  | ok {fed : Fed} : h.feedAndParseCommand bytes = .ok fed → Feeds h bytes fed
  | undefined {fault : Fault} (parsed : Bool) (h' : CommandHandler)
      : h.feedAndParseCommand bytes = .error fault
          →
        Feeds h bytes (leave parsed h')

def complete (s : Session) (operation : Operation) (action : Action) : Session :=
  { s with outstanding := s.outstanding.erase operation, log := s.log ++ [action] }

inductive Step (s : Session) : Session → Prop
  | read {bytes : ByteString} {fed : Fed} (reply : Arguments → ByteString)
      : .read ∈ s.outstanding
          →
        Feeds s.commandHandler bytes fed
          →
        Step s ((s.complete .read (.readCompleted bytes)).handleRead false fed reply)
  | readError (fed : Fed) (reply : Arguments → ByteString)
      : .read ∈ s.outstanding
          →
        Step s ((s.complete .read .readFailed).handleRead true fed reply)
  | write {message : ByteString}
      : .write message ∈ s.outstanding
          →
        Step s ((s.complete (.write message) .writeCompleted).handleWrite false)
  | writeError {message : ByteString}
      : .write message ∈ s.outstanding
          →
        Step s ((s.complete (.write message) .writeFailed).handleWrite true)

def Reachable (s : Session) : Prop :=
  Relation.ReflTransGen Step start s

section Protocol

inductive Phase where
  | new
  | reading
  | parsing
  | answering
  | writing
  | written
  | failed
  | closed
  deriving DecidableEq, Repr

def Phase.next : Phase → Action → Option Phase
  | .new, .readStarted => some .reading
  | .reading, .readCompleted _ => some .parsing
  | .reading, .readFailed => some .failed
  | .parsing, .readStarted => some .reading
  | .parsing, .executed _ => some .answering
  | .answering, .writeStarted _ => some .writing
  | .writing, .writeCompleted => some .written
  | .writing, .writeFailed => some .failed
  | .written, .readStarted => some .reading
  | .failed, .deleted => some .closed
  | _, _ => none

def follow (phase : Phase) (log : List Action) : Option Phase :=
  log.foldlM Phase.next phase

theorem follow_append {phase phase' : Phase} {log : List Action}
    (h : follow phase log = some phase') (more : List Action)
    : follow phase (log ++ more) = follow phase' more := by
  unfold follow at h ⊢
  rw [List.foldlM_append, h]
  rfl

theorem follow_cons {phase phase' : Phase} {a : Action} {l : List Action}
    (h : follow phase (a :: l) = some phase')
    : ∃ p, phase.next a = some p ∧ follow p l = some phase' := by
  unfold follow at h ⊢
  rw [List.foldlM_cons] at h
  apply Option.bind_eq_some_iff.mp h

theorem follow_split {phase phase' : Phase} {l1 l2 : List Action} {a : Action}
    (h : follow phase (l1 ++ a :: l2) = some phase')
    : ∃ p1 p2, follow phase l1 = some p1 ∧ p1.next a = some p2 ∧ follow p2 l2 = some phase' := by
  have happend : follow phase (l1 ++ a :: l2) = (follow phase l1).bind (follow · (a :: l2)) := by
    unfold follow
    apply List.foldlM_append
  rw [happend] at h
  rcases Option.bind_eq_some_iff.mp h with ⟨p1, h1, h⟩
  rcases follow_cons h with ⟨p2, h2, h⟩
  exact ⟨p1, p2, h1, h2, h⟩

inductive Waits : Phase → List Operation → Prop
  | reading : Waits .reading [.read]
  | writing (message : ByteString) : Waits .writing [.write message]
  | closed : Waits .closed []

def Invariant (s : Session) : Prop :=
  ∃ phase, follow .new s.log = some phase ∧ Waits phase s.outstanding

theorem feeds_eq_leave {h : CommandHandler} {bytes : ByteString} {fed : Fed}
    (hfeeds : Feeds h bytes fed)
    : ∃ parsed h', fed = leave parsed h' := by
  cases hfeeds with
  | ok hfeed =>
    unfold feedAndParseCommand at hfeed
    rcases bind_eq_ok.mp hfeed with ⟨⟨parsed, h'⟩, -, hleave⟩
    injection hleave with hleave
    exact ⟨parsed, h', hleave.symm⟩
  | undefined parsed h' => exact ⟨parsed, h', rfl⟩

theorem invariant_start : Invariant start := by
  exact ⟨.reading, rfl, .reading⟩

theorem Waits.of_read {phase : Phase} {outstanding : List Operation}
    (h : Waits phase outstanding) (hmem : .read ∈ outstanding)
    : phase = .reading ∧ outstanding = [.read] := by
  cases h with
  | reading => exact ⟨rfl, rfl⟩
  | writing message => simp at hmem
  | closed => simp at hmem

theorem Waits.of_write {phase : Phase} {outstanding : List Operation} {message : ByteString}
    (h : Waits phase outstanding) (hmem : .write message ∈ outstanding)
    : phase = .writing ∧ outstanding = [.write message] := by
  cases h with
  | reading => simp at hmem
  | writing message' =>
    rw [List.mem_singleton.mp hmem]
    exact ⟨rfl, rfl⟩
  | closed => simp at hmem

-- What one completion does: it is taken from the outstanding operations, and unless the session is
-- deleted exactly one operation is started.
theorem step_cases {s s' : Session} (h : Step s s')
    : (.read ∈ s.outstanding ∧ s'.outstanding = s.outstanding.erase .read ++ [Operation.read]
        ∧ ∃ bytes, s'.log = s.log ++ [Action.readCompleted bytes, .readStarted])
      ∨
      (.read ∈ s.outstanding ∧ ∃ bytes arguments message,
        s'.outstanding = s.outstanding.erase .read ++ [Operation.write message]
          ∧ s'.log = s.log ++ [Action.readCompleted bytes, .executed arguments, .writeStarted message])
      ∨
      (.read ∈ s.outstanding ∧ s'.outstanding = s.outstanding.erase .read
        ∧ s'.log = s.log ++ [Action.readFailed, .deleted])
      ∨
      (∃ message, .write message ∈ s.outstanding
        ∧ s'.outstanding = s.outstanding.erase (.write message) ++ [Operation.read]
        ∧ s'.log = s.log ++ [Action.writeCompleted, .readStarted])
      ∨
      ∃ message, .write message ∈ s.outstanding
        ∧ s'.outstanding = s.outstanding.erase (.write message)
        ∧ s'.log = s.log ++ [Action.writeFailed, .deleted] := by
  cases h with
  | @read bytes fed reply hmem hfeeds =>
    rcases feeds_eq_leave hfeeds with ⟨parsed, h', rfl⟩
    cases parsed with
    | false =>
      apply Or.inl
      exact ⟨hmem, rfl, bytes, by simp [handleRead, complete, leave, asyncRead]⟩
    | true =>
      apply Or.inr
      apply Or.inl
      refine ⟨hmem, bytes, h'.commandArguments, reply h'.commandArguments, ?_, ?_⟩
      . simp [handleRead, complete, leave, executeCommand, finish, asyncWrite]
      . simp [handleRead, complete, leave, executeCommand, finish, asyncWrite]
  | readError fed reply hmem =>
    apply Or.inr
    apply Or.inr
    apply Or.inl
    exact ⟨hmem, rfl, by simp [handleRead, complete, delete]⟩
  | @write message hmem =>
    apply Or.inr
    apply Or.inr
    apply Or.inr
    apply Or.inl
    exact ⟨message, hmem, rfl, by simp [handleWrite, complete, asyncRead]⟩
  | @writeError message hmem =>
    apply Or.inr
    apply Or.inr
    apply Or.inr
    apply Or.inr
    exact ⟨message, hmem, rfl, by simp [handleWrite, complete, delete]⟩

theorem invariant_step {s s' : Session} (h : Invariant s) (hstep : Step s s') : Invariant s' := by
  rcases h with ⟨phase, hlog, hwaits⟩
  unfold Invariant
  rcases step_cases hstep
    with ⟨hmem, hops, bytes, hlog'⟩ | ⟨hmem, bytes, arguments, message, hops, hlog'⟩ | ⟨hmem, hops, hlog'⟩
      | ⟨message, hmem, hops, hlog'⟩ | ⟨message, hmem, hops, hlog'⟩
  . rcases hwaits.of_read hmem with ⟨rfl, houtstanding⟩
    rw [hops, hlog', houtstanding, follow_append hlog]
    exact ⟨.reading, rfl, .reading⟩
  . rcases hwaits.of_read hmem with ⟨rfl, houtstanding⟩
    rw [hops, hlog', houtstanding, follow_append hlog]
    exact ⟨.writing, rfl, .writing message⟩
  . rcases hwaits.of_read hmem with ⟨rfl, houtstanding⟩
    rw [hops, hlog', houtstanding, follow_append hlog]
    exact ⟨.closed, rfl, .closed⟩
  . rcases hwaits.of_write hmem with ⟨rfl, houtstanding⟩
    rw [hops, hlog', houtstanding, follow_append hlog, List.erase_cons_head]
    exact ⟨.reading, rfl, .reading⟩
  . rcases hwaits.of_write hmem with ⟨rfl, houtstanding⟩
    rw [hops, hlog', houtstanding, follow_append hlog, List.erase_cons_head]
    exact ⟨.closed, rfl, .closed⟩

theorem invariant_reachable {s : Session} (h : Reachable s) : Invariant s := by
  induction h with
  | refl => apply invariant_start
  | tail _ hstep ih => apply invariant_step ih hstep

theorem next_executed {phase phase' : Phase} {arguments : Arguments}
    (h : phase.next (.executed arguments) = some phase')
    : phase' = .answering := by
  cases phase with
  | parsing =>
    injection h with h
    apply h.symm
  | _ => contradiction

theorem next_writeStarted {phase phase' : Phase} {message : ByteString}
    (h : phase.next (.writeStarted message) = some phase')
    : phase = .answering ∧ phase' = .writing := by
  cases phase with
  | answering =>
    injection h with h
    exact ⟨rfl, h.symm⟩
  | _ => contradiction

theorem next_deleted {phase phase' : Phase} (h : phase.next .deleted = some phase')
    : phase' = .closed := by
  cases phase with
  | failed =>
    injection h with h
    apply h.symm
  | _ => contradiction

theorem next_answering {phase : Phase} {a : Action} (h : Phase.next .answering a = some phase)
    : ∃ message, a = .writeStarted message := by
  cases a with
  | writeStarted message => exact ⟨message, rfl⟩
  | _ => contradiction

theorem next_eq_answering {phase : Phase} {a : Action} (h : phase.next a = some .answering)
    : ∃ arguments, a = .executed arguments := by
  cases phase with
  | parsing =>
    cases a with
    | executed arguments => exact ⟨arguments, rfl⟩
    | _ => contradiction
  | _ => cases a <;> simp [Phase.next] at h

theorem next_eq_closed {phase : Phase} {a : Action} (h : phase.next a = some .closed)
    : a = .deleted := by
  cases phase with
  | failed =>
    cases a with
    | deleted => rfl
    | _ => contradiction
  | _ => cases a <;> simp [Phase.next] at h

theorem follow_closed {l : List Action} {phase : Phase} (h : follow .closed l = some phase)
    : l = [] := by
  cases l with
  | nil => rfl
  | cons a l =>
    rcases follow_cons h with ⟨p, hnext, -⟩
    cases a <;> contradiction

theorem mem_of_follow_writing {phase phase' : Phase} {l1 l2 : List Action}
    (h : phase = .writing ∨ phase = .failed ∨ phase = .closed)
    (hfollow : follow phase (l1 ++ .readStarted :: l2) = some phase')
    : .writeCompleted ∈ l1 := by
  induction l1 generalizing phase with
  | nil =>
    rcases follow_cons hfollow with ⟨p, hnext, -⟩
    rcases h with rfl | rfl | rfl <;> contradiction
  | cons a l1 ih =>
    rcases follow_cons hfollow with ⟨p, hnext, hfollow'⟩
    by_cases ha : a = .writeCompleted
    . simp [ha]
    . apply List.mem_cons_of_mem
      apply ih _ hfollow'
      rcases h with rfl | rfl | rfl
      . cases a with
        | writeFailed =>
          injection hnext with hnext
          simp [← hnext]
        | _ => contradiction
      . cases a with
        | deleted =>
          injection hnext with hnext
          simp [← hnext]
        | _ => contradiction
      . cases a <;> contradiction

theorem log_deleted {log : List Action} {phase : Phase} (h : follow .new log = some phase)
    (hmem : .deleted ∈ log)
    : phase = .closed ∧ log.count .deleted = 1 := by
  rcases List.eq_append_cons_of_mem hmem with ⟨l1, l2, rfl, hl1⟩
  rcases follow_split h with ⟨p1, p2, -, hnext, hfollow⟩
  rw [next_deleted hnext] at hfollow
  have hl2 := follow_closed hfollow
  rw [hl2] at hfollow ⊢
  injection hfollow with hphase
  refine ⟨hphase.symm, ?_⟩
  rw [List.count_append, List.count_eq_zero_of_not_mem hl1]
  rfl

theorem log_closed {log : List Action} (h : follow .new log = some .closed) : .deleted ∈ log := by
  rcases List.eq_nil_or_concat' log with rfl | ⟨l, a, rfl⟩
  . contradiction
  . rcases follow_split h with ⟨p1, p2, -, hnext, hp2⟩
    injection hp2 with hp2
    rw [hp2] at hnext
    rw [next_eq_closed hnext]
    simp

theorem Waits.ne_answering {phase : Phase} {outstanding : List Operation}
    (h : Waits phase outstanding)
    : phase ≠ .answering := by
  intro heq
  rw [heq] at h
  contradiction

theorem Waits.of_closed {outstanding : List Operation} (h : Waits .closed outstanding)
    : outstanding = [] := by
  cases h
  rfl

theorem Waits.of_ne_closed {phase : Phase} {outstanding : List Operation}
    (h : Waits phase outstanding) (hphase : phase ≠ .closed)
    : outstanding = [.read] ∨ ∃ message, outstanding = [.write message] := by
  cases h with
  | reading => exact Or.inl rfl
  | writing message => exact Or.inr ⟨message, rfl⟩
  | closed => contradiction

theorem not_step {s : Session} (houtstanding : s.outstanding = []) (s' : Session) : ¬ Step s s' := by
  intro hstep
  cases hstep with
  | read reply hmem hfeeds => simp [houtstanding] at hmem
  | readError fed reply hmem => simp [houtstanding] at hmem
  | write hmem => simp [houtstanding] at hmem
  | writeError hmem => simp [houtstanding] at hmem

theorem log_executed {phase : Phase} {l1 l2 : List Action} {arguments : Arguments}
    (h : follow .new (l1 ++ .executed arguments :: l2) = some phase) (hphase : phase ≠ .answering)
    : ∃ message l2', l2 = .writeStarted message :: l2' := by
  rcases follow_split h with ⟨p1, p2, -, hnext, hfollow⟩
  rw [next_executed hnext] at hfollow
  cases l2 with
  | nil =>
    injection hfollow with heq
    exact absurd heq.symm hphase
  | cons a l2' =>
    rcases follow_cons hfollow with ⟨p, hnext, -⟩
    rcases next_answering hnext with ⟨message, rfl⟩
    exact ⟨message, l2', rfl⟩

theorem log_writeStarted {phase : Phase} {l1 l2 : List Action} {message : ByteString}
    (h : follow .new (l1 ++ .writeStarted message :: l2) = some phase)
    : ∃ l1' arguments, l1 = l1' ++ [.executed arguments] := by
  rcases follow_split h with ⟨p1, p2, hfollow, hnext, -⟩
  rw [(next_writeStarted hnext).1] at hfollow
  rcases List.eq_nil_or_concat' l1 with rfl | ⟨l1', a, rfl⟩
  . contradiction
  . rcases follow_split hfollow with ⟨p3, p4, -, hnext', hp4⟩
    injection hp4 with hp4
    rw [hp4] at hnext'
    rcases next_eq_answering hnext' with ⟨arguments, rfl⟩
    exact ⟨l1', arguments, rfl⟩

theorem reachable_protocol {s : Session} (h : Reachable s)
    : (.deleted ∉ s.log → s.outstanding = [.read] ∨ ∃ message, s.outstanding = [.write message])
      ∧
      (.deleted ∈ s.log → s.outstanding = [] ∧ s.log.count .deleted = 1 ∧ ∀ s', ¬ Step s s')
      ∧
      (∀ l1 arguments l2, s.log = l1 ++ .executed arguments :: l2
        → ∃ message l2', l2 = .writeStarted message :: l2')
      ∧
      (∀ l1 message l2, s.log = l1 ++ .writeStarted message :: l2
        → ∃ l1' arguments, l1 = l1' ++ [.executed arguments])
      ∧
      ∀ l1 message l2 l3, s.log = l1 ++ .writeStarted message :: (l2 ++ .readStarted :: l3)
        → .writeCompleted ∈ l2 := by
  rcases invariant_reachable h with ⟨phase, hlog, hwaits⟩
  refine ⟨?_, ?_, ?_, ?_, ?_⟩
  . intro hdeleted
    apply hwaits.of_ne_closed
    intro heq
    rw [heq] at hlog
    apply hdeleted (log_closed hlog)
  . intro hdeleted
    rcases log_deleted hlog hdeleted with ⟨rfl, hcount⟩
    exact ⟨hwaits.of_closed, hcount, not_step hwaits.of_closed⟩
  . intro l1 arguments l2 heq
    rw [heq] at hlog
    apply log_executed hlog hwaits.ne_answering
  . intro l1 message l2 heq
    rw [heq] at hlog
    apply log_writeStarted hlog
  . intro l1 message l2 l3 heq
    rw [heq] at hlog
    rcases follow_split hlog with ⟨p1, p2, -, hnext, hfollow⟩
    apply mem_of_follow_writing _ hfollow
    exact Or.inl (next_writeStarted hnext).2

theorem reachable_protocol_ping
    : ∃ s, Reachable s
        ∧ s.log = [.readStarted, .readCompleted (literal "PING\r\n"), .executed [literal "PING"],
          .writeStarted (literal "+PONG\r\n"), .writeCompleted, .readStarted]
        ∧ (s.outstanding = [.read] ∨ ∃ message, s.outstanding = [.write message]) := by
  let fed : Fed := { handler := fresh, needMore := false, executed := [[literal "PING"]] }
  have hfeeds : Feeds start.commandHandler (literal "PING\r\n") fed := .ok (by decide +kernel)
  have hread := Step.read (fun _ => literal "+PONG\r\n") (by decide) hfeeds
  let s := (start.complete .read (.readCompleted (literal "PING\r\n"))).handleRead false fed
    (fun _ => literal "+PONG\r\n")
  have hmem : Operation.write (literal "+PONG\r\n") ∈ s.outstanding := by decide
  have hreachable := (Relation.ReflTransGen.single hread).tail (Step.write hmem)
  exact ⟨_, hreachable, by decide, (reachable_protocol hreachable).1 (by decide)⟩

end Protocol

end Session
