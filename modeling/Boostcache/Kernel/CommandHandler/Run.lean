import Boostcache.Kernel.CommandHandler.Lemmas.Request
import Boostcache.Machine.Basic

/-!
A `CommandHandler` that is fed one read after the other. The answer to a read is what
`feedAndParseCommand` returns and the argument vectors it calls `executeCommand` with.
-/

open Cpp Resp

namespace CommandHandler

abbrev Answer := Bool × List Arguments

def step (h : CommandHandler) (read : ByteString) : Except Fault (CommandHandler × Answer) := do
  let fed ← h.feedAndParseCommand read
  return (fed.handler, fed.needMore, fed.executed)

abbrev Run := Machine.Run CommandHandler Answer Fault

def feedAll (h : CommandHandler) (reads : List ByteString) : Run :=
  Machine.run step h reads

def executed (run : Run) : List Arguments :=
  run.outputs.flatMap (·.2)

theorem step_of_feed {h : CommandHandler} {read : ByteString} {fed : Fed}
    (hfeed : h.feedAndParseCommand read = .ok fed)
    : step h read = .ok (fed.handler, fed.needMore, fed.executed) := by
  unfold step
  rw [hfeed]
  rfl

theorem resumable : Machine.Resumable step fresh Pending where
  resume := by
    intro s h hpending y
    unfold step
    rw [feedAndParseCommand_pending hpending]

theorem step_no_lf {s : ByteString} (hlf : lf ∉ star :: s)
    : ∃ h, step fresh (star :: s) = .ok (h, true, []) ∧ Pending (star :: s) h := by
  have hscan : scanRequest (star :: s) = .headerPending := by
    unfold scanRequest
    rw [splitLf_eq_none.mpr hlf]
  have hfeed := feedAndParseCommand_star s
  rw [hscan] at hfeed
  exact ⟨_, step_of_feed hfeed, Pending.header hscan⟩

theorem step_waits {s : ByteString} {number : Int} {scan : Scan}
    (hscan : scanRequest (star :: s) = .body number scan) (hwaits : scan.Waits)
    : ∃ h, step fresh (star :: s) = .ok (h, true, []) ∧ Pending (star :: s) h := by
  rcases hwaits with ⟨left, arguments, last, rest, rfl⟩
  have hfeed := feedAndParseCommand_star s
  rw [hscan] at hfeed
  exact ⟨_, step_of_feed hfeed, Pending.arguments hscan⟩

theorem step_rejected {s : ByteString} {number : Int}
    (hscan : scanRequest (star :: s) = .body number .rejected)
    : step fresh (star :: s) = .ok (fresh, true, []) := by
  have hfeed := feedAndParseCommand_star s
  rw [hscan] at hfeed
  apply step_of_feed hfeed

theorem step_executed {s : ByteString} {number : Int} {arguments : Arguments} {last : Int}
    {rest : ByteString}
    (hscan : scanRequest (star :: s) = .body number (.stopped 0 arguments last rest))
    : step fresh (star :: s) = .ok (fresh, false, [arguments]) := by
  have hfeed := feedAndParseCommand_star s
  rw [hscan] at hfeed
  apply step_of_feed hfeed

theorem length_executed_leave (parsed : Bool) (h : CommandHandler)
    : (leave parsed h).executed.length = if (leave parsed h).needMore then 0 else 1 := by
  cases parsed with
  | true => rfl
  | false => rfl

theorem length_executed_le (h : CommandHandler) (reads : List ByteString)
    : (executed (feedAll h reads)).length ≤ reads.length := by
  induction reads generalizing h with
  | nil => simp [executed, feedAll, Machine.run]
  | cons read reads ih =>
    cases hfeed : h.feedAndParseCommand read with
    | error fault =>
      simp [executed, feedAll, Machine.run, step, hfeed]
    | ok fed =>
      have hlength : fed.executed.length ≤ 1 := by
        unfold feedAndParseCommand at hfeed
        rcases bind_eq_ok.mp hfeed with ⟨⟨parsed, h'⟩, -, hleave⟩
        injection hleave with hleave
        rw [← hleave, length_executed_leave]
        split <;> simp
      have hrest := ih fed.handler
      unfold executed feedAll at hrest ⊢
      rw [Machine.run_cons_ok (step_of_feed hfeed)]
      simp only [List.flatMap_cons, List.length_append, List.length_cons]
      omega

theorem executed_star_eq_singleton {s : ByteString} {arguments : Arguments}
    : executed (feedAll fresh [star :: s]) = [arguments]
        ↔
      ∃ number last rest,
        scanRequest (star :: s) = .body number (.stopped 0 arguments last rest) := by
  have hfeed := feedAndParseCommand_star s
  unfold executed feedAll Machine.run step
  rw [hfeed]
  cases scanRequest (star :: s) with
  | headerPending => simp [RequestScan.toFed, leave, Machine.run]
  | rejected => simp [RequestScan.toFed, leave, Machine.run]
  | body number scan =>
    cases scan with
    | fault => simp [RequestScan.toFed]
    | rejected => simp [RequestScan.toFed, leave, Machine.run]
    | stopped left arguments' last rest =>
      cases left with
      | zero =>
        simp [RequestScan.toFed, leave, executeCommand, argumentsPending, Machine.run]
      | succ left => simp [RequestScan.toFed, leave, Machine.run]

def header (number : Nat) : ByteString :=
  star :: (decimal number ++ [cr]) ++ [lf]

theorem step_of_prefix {arguments : Arguments} (hne : arguments ≠ [])
    (hlength : arguments.length < 2 ^ 31) {body : ByteString}
    (hbody : ∀ s, s <+: body → s ≠ body → (scanArguments arguments.length [] (-1) s).Waits)
    (b : ByteString) (hb : b ≠ []) (hpref : b <+: header arguments.length ++ body)
    (hproper : b ≠ header arguments.length ++ body)
    : ∃ h, step fresh b = .ok (h, true, []) ∧ Pending b h := by
  have hheader : header arguments.length ++ body
      = star :: (decimal arguments.length ++ [cr]) ++ lf :: body := by
    simp [header]
  rw [hheader] at hpref hproper
  by_cases hlf : lf ∈ b
  . have hline := lf_not_mem_line (show star ≠ lf by decide) arguments.length
    rcases prefix_append_cons hpref hline hlf with ⟨u, rfl, hu⟩
    apply step_waits (scanRequest_request hlength hne u)
    apply hbody u hu
    intro heq
    rw [heq] at hproper
    contradiction
  . cases b with
    | nil => contradiction
    | cons c b =>
      rw [List.cons_append, List.cons_prefix_cons] at hpref
      rcases hpref with ⟨rfl, -⟩
      apply step_no_lf hlf

theorem request_eq_header (arguments : Arguments)
    : request arguments = header arguments.length ++ arguments.flatMap block := by
  simp [request_eq, header]

theorem step_of_prefix_request {arguments : Arguments} (h : Encodable arguments)
    (hne : ∀ argument ∈ arguments, argument ≠ []) (b : ByteString) (hb : b ≠ [])
    (hpref : b <+: request arguments) (hproper : b ≠ request arguments)
    : ∃ h, step fresh b = .ok (h, true, []) ∧ Pending b h := by
  have hlength := h.length_le
  rw [request_eq_header] at hpref hproper
  apply step_of_prefix h.ne_nil (by omega) _ b hb hpref hproper
  intro s hs hs'
  have htail (s : ByteString) (hs : s <+: []) (hs' : s ≠ []) (saved : Arguments) (last : Int)
      : (scanArguments 0 saved last s).Waits :=
    absurd (List.prefix_nil.mp hs) hs'
  have := scanArguments_of_prefix hne h.argument_length_le htail (s := s)
  simp only [List.append_nil, Nat.add_zero] at this
  apply this hs hs'

theorem step_request {arguments : Arguments} (h : Encodable arguments)
    (hne : ∀ argument ∈ arguments, argument ≠ []) (rest : ByteString)
    : step fresh (request arguments ++ rest) = .ok (fresh, false, [arguments]) := by
  have hlength := h.length_le
  rcases scanArguments_blocks hne h.argument_length_le [] (-1) 0 rest with ⟨last, hscan⟩
  have hrequest := scanRequest_request (by omega) h.ne_nil (arguments.flatMap block ++ rest)
  rw [Nat.add_zero] at hscan
  rw [hscan] at hrequest
  have happend : request arguments ++ rest
      = star :: ((decimal arguments.length ++ [cr]) ++ lf :: (arguments.flatMap block ++ rest)) := by
    simp [request_eq]
  rw [happend]
  apply step_executed hrequest

theorem run_request {arguments : Arguments} (h : Encodable arguments)
    (hne : ∀ argument ∈ arguments, argument ≠ []) {reads : List ByteString}
    (hreads : ∀ read ∈ reads, read ≠ []) (hflatten : reads.flatten = request arguments)
    : feedAll fresh reads
        =
      {
        outputs := List.replicate (reads.length - 1) (true, []) ++ [(false, [arguments])]
        final := .ok fresh
      } := by
  unfold feedAll
  apply Machine.run_pieces resumable (step_of_prefix_request h hne) (step_request h hne) _ hreads
    hflatten
  simp [request_eq]

end CommandHandler
