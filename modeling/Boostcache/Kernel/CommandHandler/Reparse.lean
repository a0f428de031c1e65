import Boostcache.Kernel.CommandHandler.State

/-!
A parser that keeps nothing but the bytes it has got since the last reset and looks at all of them
again with every read. The `CommandHandler` goes on where it has stopped, and cannot be told apart
from it.
-/

open Cpp Resp

namespace CommandHandler

inductive Parse where
  | fault
  | dropped
  | pending
  | request (arguments : Arguments)
  deriving DecidableEq, Repr

def parseLine (line : ByteString) : Parse :=
  if line = [] then
    .fault
  else if (words (trimCr line)).head? = some [] then
    .dropped
  else
    .request (words (trimCr line))

def parse (s : ByteString) : Parse :=
  if s.head? = some star then
    match scanRequest s with
    | .headerPending => .pending
    | .rejected => .dropped
    | .body _ .fault => .fault
    | .body _ .rejected => .dropped
    | .body _ (.stopped 0 arguments _ _) => .request arguments
    | .body _ (.stopped (_ + 1) _ _ _) => .pending
  else
    match splitLf s with
    | none => .dropped
    | some (line, _) => parseLine line

def Parse.toAnswer (s : ByteString) : Parse → Except Fault (ByteString × Answer)
  | .fault => .error .outOfRange
  | .dropped => .ok ([], true, [])
  | .pending => .ok (s, true, [])
  | .request arguments => .ok ([], false, [arguments])

def reparse (s read : ByteString) : Except Fault (ByteString × Answer) :=
  (parse (s ++ read)).toAnswer (s ++ read)

theorem reparse_multiBulk (s : ByteString)
    : (step fresh (star :: s)).map (fun r => (r.1.commandString, r.2))
        =
      (parse (star :: s)).toAnswer (star :: s) := by
  unfold step parse
  rw [feedAndParseCommand_star, if_pos (List.head?_cons ..)]
  cases scanRequest (star :: s) with
  | headerPending => rfl
  | rejected => rfl
  | body number scan =>
    cases scan with
    | fault => rfl
    | rejected => rfl
    | stopped left arguments last rest =>
      cases left with
      | zero => rfl
      | succ left => rfl

theorem reparse_inline {s : ByteString} (hstar : s.head? ≠ some star)
    : (step fresh s).map (fun r => (r.1.commandString, r.2)) = (parse s).toAnswer s := by
  unfold step parse
  rw [if_neg hstar]
  cases hsplit : splitLf s with
  | none =>
    rw [feedAndParseCommand_no_lf (splitLf_eq_none.mp hsplit) hstar]
    rfl
  | some split =>
    rcases split with ⟨line, rest⟩
    rcases splitLf_eq_some hsplit with ⟨rfl, hlf⟩
    dsimp only
    unfold parseLine
    by_cases hnil : line = []
    . rw [hnil, List.nil_append, feedAndParseCommand_lf]
      rfl
    . rw [List.head?_append_of_ne_nil _ hnil] at hstar
      rw [feedAndParseCommand_line hlf hnil hstar, if_neg hnil]
      split
      . rfl
      . rfl

theorem reparse_of_holds {s : ByteString} {h : CommandHandler} (hholds : Holds s h)
    (read : ByteString)
    : reparse s read = (step h read).map (fun r => (r.1.commandString, r.2)) := by
  have hstep : step h read = step fresh (s ++ read) := by
    unfold step
    rw [hholds.feed]
  rw [hstep]
  unfold reparse
  by_cases hstar : (s ++ read).head? = some star
  . rcases List.head?_eq_some_iff.mp hstar with ⟨rest, hrest⟩
    rw [hrest, reparse_multiBulk]
  . rw [reparse_inline hstar]

theorem Holds.answer {s read : ByteString} {h h' : CommandHandler} {answer : Answer}
    (hholds : Holds s h) (hstep : CommandHandler.step h read = .ok (h', answer))
    : Holds h'.commandString h'
        ∧ (answer = (true, []) ∨ ∃ name rest, answer = (false, [name :: rest])) := by
  rcases bind_eq_ok.mp hstep with ⟨fed, hfeed, heq⟩
  injection heq with heq
  injection heq with hhandler hanswer
  rw [← hhandler, ← hanswer]
  rw [hholds.feed] at hfeed
  cases outcome_of_feed hfeed with
  | rejected => exact ⟨.idle, Or.inl rfl⟩
  | pending hpending =>
    refine ⟨?_, Or.inl rfl⟩
    have hholds' : Holds (s ++ read) (leave false _).handler := .pending hpending
    rwa [hholds'.commandString_eq]
  | executed hrequest =>
    rcases hrequest.exists_name with ⟨name, rest, rfl, -⟩
    exact ⟨.idle, Or.inr ⟨name, rest, rfl⟩⟩

theorem feedAll_reparse (reads : List ByteString)
    : Machine.run reparse [] reads
        =
      {
        outputs := (feedAll fresh reads).outputs
        final := (feedAll fresh reads).final.map commandString
      } := by
  have hfresh : Holds fresh.commandString fresh := .idle
  apply Machine.run_map (f := commandString) (I := fun h => Holds h.commandString h) _ _ hfresh
  . intro h read hholds
    apply reparse_of_holds hholds
  . intro h h' read answer hholds hstep
    apply (hholds.answer hstep).1

end CommandHandler
