import Boostcache.Kernel.CommandHandler.Grammar

/-!
The states a `CommandHandler` can be in between two reads. Whatever it has been fed, it is either
idle or in the middle of a multi-bulk request, and what it has got of this request determines all of
its fields.
-/

open Cpp Resp

namespace CommandHandler

def Reachable (h : CommandHandler) : Prop :=
  ∃ reads : List ByteString, (∀ read ∈ reads, read ≠ []) ∧ (feedAll fresh reads).final = .ok h

-- `s` is what the handler has got since the last reset.
inductive Holds : ByteString → CommandHandler → Prop
  | idle : Holds [] fresh
  | pending {s : ByteString} {h : CommandHandler} : Pending s h → Holds s h

theorem Holds.feed {s : ByteString} {h : CommandHandler} (hholds : Holds s h) (y : ByteString)
    : h.feedAndParseCommand y = fresh.feedAndParseCommand (s ++ y) := by
  cases hholds with
  | idle => rfl
  | pending hpending => apply feedAndParseCommand_pending hpending

theorem Pending.commandString_eq {s : ByteString} {h : CommandHandler} (hpending : Pending s h)
    : h.commandString = s := by
  cases hpending with
  | header hscan => rfl
  | arguments hscan => rfl

theorem Pending.commandString_ne_nil {s : ByteString} {h : CommandHandler}
    (hpending : Pending s h)
    : h.commandString ≠ [] := by
  rw [hpending.commandString_eq]
  cases hpending with
  | header hscan => simp
  | arguments hscan => simp

theorem Holds.commandString_eq {s : ByteString} {h : CommandHandler} (hholds : Holds s h)
    : h.commandString = s := by
  cases hholds with
  | idle => rfl
  | pending hpending => apply hpending.commandString_eq

inductive Request (s : ByteString) : Arguments → Prop
  | inline {t rest : ByteString} {name : ByteString} {arguments : Arguments}
      : s = t ++ lf :: rest
          →
        lf ∉ t
          →
        s.head? ≠ some star
          →
        words (trimCr t) = name :: arguments
          →
        name ≠ []
          →
        Request s (name :: arguments)
  | multiBulk {f : Frame}
      : f.Matches AnyLine
          →
        f.bytes <+: s
          →
        Request s f.arguments

theorem Frame.Matches.argument_ne_nil {f : Frame} (h : f.Matches AnyLine)
    : ∀ argument ∈ f.arguments, argument ≠ [] := by
  intro argument hmem
  rcases List.mem_map.mp hmem with ⟨b, hb, rfl⟩
  apply (h.blocks b hb).data

theorem Request.exists_name {s : ByteString} {arguments : Arguments} (h : Request s arguments)
    : ∃ name rest, arguments = name :: rest ∧ name ≠ [] := by
  cases h with
  | @inline t rest name arguments hs hlf hstar hwords hname => exact ⟨name, arguments, rfl, hname⟩
  | @multiBulk f hf hpref =>
    rcases List.exists_cons_of_ne_nil hf.ne_nil with ⟨b, blocks, hblocks⟩
    refine ⟨b.data, blocks.map Block.data, by simp [Frame.arguments, hblocks], ?_⟩
    apply (hf.blocks b (by simp [hblocks])).data

theorem Request.exists_frame {s : ByteString} {arguments : Arguments} (h : Request s arguments)
    (hstar : s.head? = some star)
    : (∀ argument ∈ arguments, argument ≠ [])
        ∧ ∃ f : Frame, f.Matches AnyLine ∧ f.bytes <+: s ∧ f.arguments = arguments := by
  cases h with
  | inline hs hlf hstar' hwords hname => contradiction
  | @multiBulk f hf hpref => exact ⟨hf.argument_ne_nil, f, hf, hpref, rfl⟩

-- What a call that stays inside of the buffer does: it gives up what it has got, waits for more or
-- executes a request.
inductive Outcome (s : ByteString) : Fed → Prop
  | rejected : Outcome s (leave false fresh)
  | pending {h : CommandHandler} : Pending s h → Outcome s (leave false h)
  | executed {arguments : Arguments}
      : Request s arguments
          →
        Outcome s { handler := fresh, needMore := false, executed := [arguments] }

theorem outcome_multiBulk {s : ByteString} {fed : Fed}
    (hfeed : fresh.feedAndParseCommand (star :: s) = .ok fed)
    : Outcome (star :: s) fed := by
  rw [feedAndParseCommand_star] at hfeed
  cases hscan : scanRequest (star :: s) with
  | headerPending =>
    rw [hscan] at hfeed
    injection hfeed with hfeed
    rw [← hfeed]
    apply Outcome.pending (.header hscan)
  | rejected =>
    rw [hscan] at hfeed
    injection hfeed with hfeed
    rw [← hfeed]
    apply Outcome.rejected
  | body number scan =>
    rw [hscan] at hfeed
    cases scan with
    | fault => contradiction
    | rejected =>
      injection hfeed with hfeed
      rw [← hfeed]
      apply Outcome.rejected
    | stopped left arguments last rest =>
      injection hfeed with hfeed
      rw [← hfeed]
      cases left with
      | zero =>
        rcases exists_frame hscan with ⟨f, hf, rfl, hs⟩
        apply Outcome.executed (.multiBulk hf ⟨rest, hs.symm⟩)
      | succ left => apply Outcome.pending (.arguments hscan)

theorem outcome_inline {s : ByteString} {fed : Fed} (hstar : s.head? ≠ some star)
    (hfeed : fresh.feedAndParseCommand s = .ok fed)
    : Outcome s fed := by
  by_cases hlf : lf ∈ s
  . rcases List.eq_append_cons_of_mem hlf with ⟨t, rest, rfl, ht⟩
    by_cases hnil : t = []
    . rw [hnil, List.nil_append, feedAndParseCommand_lf] at hfeed
      contradiction
    . have hhead : t.head? ≠ some star := by
        rwa [List.head?_append_of_ne_nil _ hnil] at hstar
      rw [feedAndParseCommand_line ht hnil hhead] at hfeed
      rcases words_eq_cons (trimCr t) with ⟨tail, hwords⟩
      rw [hwords, List.head?_cons] at hfeed
      split at hfeed
      . injection hfeed with hfeed
        rw [← hfeed]
        apply Outcome.rejected
      . next hname =>
        injection hfeed with hfeed
        rw [← hfeed]
        apply Outcome.executed
        apply Request.inline rfl ht hstar hwords
        intro heq
        apply hname
        rw [heq]
  . rw [feedAndParseCommand_no_lf hlf hstar] at hfeed
    injection hfeed with hfeed
    rw [← hfeed]
    apply Outcome.rejected

theorem outcome_of_feed {s : ByteString} {fed : Fed} (hfeed : fresh.feedAndParseCommand s = .ok fed)
    : Outcome s fed := by
  by_cases hstar : s.head? = some star
  . rcases List.head?_eq_some_iff.mp hstar with ⟨s, rfl⟩
    apply outcome_multiBulk hfeed
  . apply outcome_inline hstar hfeed

theorem Holds.step {s : ByteString} {h h' : CommandHandler} (hholds : Holds s h)
    {read : ByteString} {answer : Answer} (hstep : step h read = .ok (h', answer))
    : Holds [] h' ∨ Holds (s ++ read) h' := by
  rcases bind_eq_ok.mp hstep with ⟨fed, hfeed, heq⟩
  injection heq with heq
  injection heq with hhandler
  rw [← hhandler]
  rw [hholds.feed] at hfeed
  cases outcome_of_feed hfeed with
  | rejected => apply Or.inl .idle
  | pending hpending => apply Or.inr (.pending hpending)
  | executed hrequest => apply Or.inl .idle

theorem Reachable.holds {h : CommandHandler} (hreachable : Reachable h)
    : Holds h.commandString h := by
  rcases hreachable with ⟨reads, hreads, hfinal⟩
  have hstep {h h' : CommandHandler} {read : ByteString} {answer : Answer}
      (hholds : ∃ s, Holds s h) (_ : read ≠ []) (hstep : CommandHandler.step h read = .ok (h', answer))
      : ∃ s, Holds s h' := by
    rcases hholds with ⟨s, hholds⟩
    rcases hholds.step hstep with hholds' | hholds'
    . exact ⟨_, hholds'⟩
    . exact ⟨_, hholds'⟩
  rcases Machine.run_invariant hstep ⟨[], .idle⟩ hreads hfinal with ⟨s, hholds⟩
  rwa [hholds.commandString_eq]

theorem feed_feed {h : CommandHandler} (hreachable : Reachable h) {x : ByteString} {fed : Fed}
    (hfeed : h.feedAndParseCommand x = .ok fed) (hexecuted : fed.executed = [])
    (hbuffer : fed.handler.commandString ≠ []) (y : ByteString)
    : fed.handler.feedAndParseCommand y = h.feedAndParseCommand (x ++ y) := by
  have hholds := hreachable.holds
  rw [hholds.feed] at hfeed ⊢
  cases outcome_of_feed hfeed with
  | rejected => contradiction
  | pending hpending =>
    rw [← List.append_assoc]
    apply feedAndParseCommand_pending hpending
  | executed hrequest => contradiction

theorem feed_feed_ping
    : (argumentsPending (literal "*1\r\n$4\r\nPI") 1 1 [] 4
          (literal "$4\r\nPI")).feedAndParseCommand (literal "NG\r\n")
        =
      fresh.feedAndParseCommand (literal "*1\r\n$4\r\nPI" ++ literal "NG\r\n") := by
  have hfeed : fresh.feedAndParseCommand (literal "*1\r\n$4\r\nPI")
      = .ok
        {
          handler := argumentsPending (literal "*1\r\n$4\r\nPI") 1 1 [] 4 (literal "$4\r\nPI")
          needMore := true
          executed := []
        } := by
    decide +kernel
  apply feed_feed _ hfeed
  . rfl
  . decide
  . exact ⟨[], by simp, rfl⟩

section Stages

inductive Stage where
  | idle
  | header
  | arguments
  deriving DecidableEq, Repr

structure HeaderPending (h : CommandHandler) : Prop where
  type : h.type = .multiBulk
  numberOfArguments : h.numberOfArguments = -1
  numberOfArgumentsLeft : h.numberOfArgumentsLeft = -1
  lastArgumentLength : h.lastArgumentLength = -1
  commandOffset : h.commandOffset = 0
  commandArguments : h.commandArguments = []
  star : h.commandString.head? = some star
  no_lf : lf ∉ h.commandString

structure ArgumentsPending (h : CommandHandler) : Prop where
  type : h.type = .multiBulk
  one_le : 1 ≤ h.numberOfArgumentsLeft
  left_le : h.numberOfArgumentsLeft ≤ h.numberOfArguments
  length_add : (h.commandArguments.length : Int) + h.numberOfArgumentsLeft = h.numberOfArguments
  offset_le : h.commandOffset ≤ h.commandString.length
  argument_ne_nil : ∀ argument ∈ h.commandArguments, argument ≠ []
  consumed : ∃ f : Frame, AnyLine f.line h.numberOfArguments ∧ (∀ b ∈ f.blocks, b.Matches AnyLine)
    ∧ f.arguments = h.commandArguments ∧ h.commandString.take h.commandOffset = f.bytes

def InStage (h : CommandHandler) : Stage → Prop
  | .idle => h = fresh
  | .header => HeaderPending h
  | .arguments => ArgumentsPending h

theorem InStage.unique {h : CommandHandler} {stage stage' : Stage} (hstage : InStage h stage)
    (hstage' : InStage h stage')
    : stage = stage' := by
  have hidle {h : CommandHandler} (hidle : h = fresh) (htype : h.type = .multiBulk) : False := by
    rw [hidle] at htype
    contradiction
  have hpending (hheader : HeaderPending h) (harguments : ArgumentsPending h) : False := by
    have := hheader.numberOfArgumentsLeft
    have := harguments.one_le
    omega
  cases stage with
  | idle =>
    cases stage' with
    | idle => rfl
    | header => exact (hidle hstage hstage'.type).elim
    | arguments => exact (hidle hstage hstage'.type).elim
  | header =>
    cases stage' with
    | idle => exact (hidle hstage' hstage.type).elim
    | header => rfl
    | arguments => exact (hpending hstage hstage').elim
  | arguments =>
    cases stage' with
    | idle => exact (hidle hstage' hstage.type).elim
    | header => exact (hpending hstage' hstage).elim
    | arguments => rfl

theorem headerPending_of_scan {s : ByteString} (hscan : scanRequest (star :: s) = .headerPending)
    : HeaderPending (headerPending (star :: s)) where
  type := rfl
  numberOfArguments := rfl
  numberOfArgumentsLeft := rfl
  lastArgumentLength := rfl
  commandOffset := rfl
  commandArguments := rfl
  star := rfl
  no_lf := by
    unfold scanRequest at hscan
    split at hscan
    . next hsplit => apply splitLf_eq_none.mp hsplit
    . dsimp only at hscan
      split_ifs at hscan

theorem argumentsPending_of_scan {s : ByteString} {number : Int} {left : Nat}
    {arguments : Arguments} {last : Int} {rest : ByteString}
    (hscan : scanRequest (star :: s) = .body number (.stopped (left + 1) arguments last rest))
    : ArgumentsPending (argumentsPending (star :: s) number (left + 1) arguments last rest) := by
  rcases scanRequest_eq_body.mp hscan with ⟨line, next, hline, hpos, hs, hscan⟩
  rcases exists_blocks hscan with ⟨blocks, hlength, hblocks, harguments, hnext⟩
  have hcount : arguments.length = blocks.length := by simp [harguments]
  have hbytes : star :: s = (⟨line, blocks⟩ : Frame).bytes ++ rest := by
    rw [hs, hnext]
    simp [Frame.bytes]
  constructor
  . rfl
  . simp only [argumentsPending]
    omega
  . simp only [argumentsPending]
    omega
  . simp only [argumentsPending]
    omega
  . simp only [argumentsPending]
    omega
  . intro argument hmem
    have hmem : argument ∈ arguments := hmem
    rw [harguments, List.nil_append] at hmem
    rcases List.mem_map.mp hmem with ⟨b, hb, rfl⟩
    apply (hblocks b hb).data
  . refine ⟨⟨line, blocks⟩, hline, hblocks, ?_, ?_⟩
    . simp [Frame.arguments, argumentsPending, harguments]
    . simp only [argumentsPending]
      rw [hbytes, List.length_append, Nat.add_sub_cancel, List.take_left]

theorem Holds.stage {s : ByteString} {h : CommandHandler} (hholds : Holds s h)
    : ∃! stage, InStage h stage := by
  have hexists : ∃ stage, InStage h stage := by
    cases hholds with
    | idle => exact ⟨.idle, rfl⟩
    | pending hpending =>
      cases hpending with
      | header hscan => exact ⟨.header, headerPending_of_scan hscan⟩
      | arguments hscan => exact ⟨.arguments, argumentsPending_of_scan hscan⟩
  rcases hexists with ⟨stage, hstage⟩
  exact ⟨stage, hstage, fun stage' hstage' => hstage'.unique hstage⟩

end Stages

end CommandHandler
