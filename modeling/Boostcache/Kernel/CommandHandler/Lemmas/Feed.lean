import Boostcache.Kernel.CommandHandler.Lemmas.Bulk
import Boostcache.Kernel.CommandHandler.Lemmas.Inline

/-!
What one call of `feedAndParseCommand` does to a fresh handler, and that a handler in the middle of
a request goes on as if the bytes it has already got and those it is fed now had arrived at once.
-/

open Cpp

namespace CommandHandler

def received (s : ByteString) : CommandHandler :=
  { fresh with commandString := s }

theorem deref_zero {s : ByteString} {c : UInt8} (h : s.head? = some c)
    : deref s (0 : Nat) = .ok c := by
  cases s with
  | nil => simp at h
  | cons d s =>
    injection h with h
    subst h
    apply deref_append_cons [] d s

theorem deref_zero_ne_star {s : ByteString} (h : s.head? ≠ some star)
    : ∃ c, deref s (0 : Nat) = .ok c ∧ c ≠ star := by
  cases s with
  | nil => exact ⟨nul, deref_length [], by decide⟩
  | cons d s =>
    refine ⟨d, deref_zero rfl, ?_⟩
    intro heq
    simp [heq] at h

theorem parseCommand_fresh_inline {s : ByteString} (hstar : s.head? ≠ some star)
    : fresh.parseCommand s
        =
      (do
        let (parsed, h) ← (received s).parseInline 0 s.length
        if !parsed then
          return (false, h.reset)
        parseCommand.parseRest h 0 s.length) := by
  rcases deref_zero_ne_star hstar with ⟨c, hderef, hc⟩
  unfold parseCommand
  simp only [fresh, List.nil_append, hderef, ok_bind, ne_eq, hc, not_false_eq_true, ↓reduceIte,
    Int.reduceNeg, Int.reduceLT]
  rfl

theorem feedAndParseCommand_no_lf {s : ByteString} (hlf : lf ∉ s) (hstar : s.head? ≠ some star)
    : fresh.feedAndParseCommand s = .ok (leave false fresh) := by
  have := parseInline_no_lf (h := received s) hlf
  unfold feedAndParseCommand
  rw [parseCommand_fresh_inline hstar]
  simp only [received] at this ⊢
  simp only [this, ok_bind]
  rfl

theorem feedAndParseCommand_lf (rest : ByteString)
    : fresh.feedAndParseCommand (lf :: rest) = .error .outOfRange := by
  have := parseInline_lf (h := received (lf :: rest)) rfl
  unfold feedAndParseCommand
  have hstar : (lf :: rest).head? ≠ some star := by
    rw [List.head?_cons]
    decide
  rw [parseCommand_fresh_inline hstar]
  simp only [received] at this ⊢
  simp only [this, error_bind]

theorem feedAndParseCommand_line {t : ByteString} (hlf : lf ∉ t) (ht : t ≠ [])
    (hstar : t.head? ≠ some star) (rest : ByteString)
    : fresh.feedAndParseCommand (t ++ lf :: rest)
        =
      if (words (trimCr t)).head? = some [] then
        .ok (leave false fresh)
      else
        .ok { handler := fresh, needMore := false, executed := [words (trimCr t)] } := by
  have hparse := parseInline_line (h := received (t ++ lf :: rest)) rfl hlf ht rfl
  unfold feedAndParseCommand
  rw [parseCommand_fresh_inline (by rwa [List.head?_append_of_ne_nil _ ht])]
  simp only [received] at hparse ⊢
  simp only [hparse, ok_bind]
  by_cases hhead : (words (trimCr t)).head? = some []
  . simp only [hhead, ↓reduceIte]
    rfl
  . have : ((words (trimCr t)).head? != some []) = true := by simpa using hhead
    simp only [this, hhead, ↓reduceIte]
    rfl

theorem parseRest_eq_toFed {left : Nat} {h : CommandHandler} {a s : ByteString}
    (htype : h.type = .multiBulk) (hs : h.commandString = a ++ s)
    (hoffset : h.commandOffset = a.length) (hleft : h.numberOfArgumentsLeft = left)
    : (do
        let (parsed, h) ← parseCommand.parseRest h h.commandOffset h.commandString.length
        return leave parsed h)
        =
      (RequestScan.body h.numberOfArguments
        (scanArguments left h.commandArguments h.lastArgumentLength s)).toFed h.commandString := by
  unfold parseCommand.parseRest
  rw [if_pos htype, parseArguments_eq_scanArguments hs hoffset hleft]
  cases scanArguments left h.commandArguments h.lastArgumentLength s with
  | fault => rfl
  | rejected => rfl
  | stopped left arguments lastArgumentLength rest =>
    simp only [ok_bind, htype]
    rfl

-- Until the LF of its first line has arrived the handler starts over with every call, the only
-- field besides the buffer that may differ from those of a fresh handler is `type`.
theorem feedAndParseCommand_header {b y s : ByteString} (hs : b ++ y = star :: s)
    (type : CommandType)
    : feedAndParseCommand { fresh with type := type, commandString := b } y
        =
      (scanRequest (b ++ y)).toFed (b ++ y) := by
  have hnumber := parseNumberOfArguments_eq
    (h := { fresh with type := type, commandString := b ++ y }) hs rfl
  have hderef : deref (b ++ y) (0 : Nat) = .ok star := deref_zero (by simp [hs])
  unfold feedAndParseCommand parseCommand scanRequest
  simp only [fresh, hderef, ok_bind, ne_eq, not_true_eq_false, ↓reduceIte, Int.reduceNeg,
    Int.reduceLT] at hnumber ⊢
  rw [hnumber, ← hs]
  cases hsplit : splitLf (b ++ y) with
  | none => rfl
  | some split =>
    rcases split with ⟨line, rest⟩
    dsimp only
    by_cases hle : lineInt line.tail ≤ 0
    . simp only [hle, ↓reduceIte]
      rfl
    . simp only [hle, ↓reduceIte]
      rcases splitLf_eq_some hsplit with ⟨hline, -⟩
      have hconsumed : (b ++ y).length - rest.length = (line ++ [lf]).length := by
        rw [hline]
        simp
        omega
      rw [hconsumed]
      exact parseRest_eq_toFed
        (h :=
          { fresh with
              type := .multiBulk
              commandString := b ++ y
              commandOffset := (line ++ [lf]).length
              numberOfArguments := lineInt line.tail
              numberOfArgumentsLeft := lineInt line.tail
          })
        (a := line ++ [lf]) (s := rest) rfl (by simp [hline]) rfl (by simp only; omega)

theorem feedAndParseCommand_star (s : ByteString)
    : fresh.feedAndParseCommand (star :: s) = (scanRequest (star :: s)).toFed (star :: s) := by
  apply feedAndParseCommand_header (b := []) (y := star :: s) rfl

-- The buffer of a pending handler is everything it has been fed since the last reset.
inductive Pending : ByteString → CommandHandler → Prop
  | header {s : ByteString}
      : scanRequest (star :: s) = .headerPending
          →
        Pending (star :: s) (headerPending (star :: s))
  | arguments {s : ByteString} {number : Int} {left : Nat} {arguments : Arguments} {last : Int}
      {rest : ByteString}
      : scanRequest (star :: s) = .body number (.stopped (left + 1) arguments last rest)
          →
        Pending (star :: s)
          (argumentsPending (star :: s) number (left + 1) arguments last rest)

theorem scanRequest_append {s rest : ByteString} {number : Int} {left : Nat}
    {arguments : Arguments} {last : Int}
    (h : scanRequest s = .body number (.stopped left arguments last rest)) (y : ByteString)
    : scanRequest (s ++ y) = .body number (scanArguments left arguments last (rest ++ y)) := by
  unfold scanRequest at h ⊢
  split at h
  . contradiction
  . next line next hsplit =>
    dsimp only at h
    split_ifs at h with hnumber
    injection h with h1 h2
    rw [splitLf_append hsplit y]
    dsimp only
    rw [if_neg hnumber, scanArguments_append h2, h1]

theorem scanRequest_suffix {s rest : ByteString} {number : Int} {left : Nat}
    {arguments : Arguments} {last : Int}
    (h : scanRequest s = .body number (.stopped left arguments last rest))
    : rest <:+ s ∧ 0 < number := by
  unfold scanRequest at h
  split at h
  . contradiction
  . next line next hsplit =>
    rcases splitLf_eq_some hsplit with ⟨hline, -⟩
    dsimp only at h
    split_ifs at h with hnumber
    injection h with h1 h2
    refine ⟨?_, by omega⟩
    apply List.IsSuffix.trans (scanArguments_suffix h2)
    rw [hline]
    apply List.IsSuffix.trans (List.suffix_cons _ _) (List.suffix_append _ _)

theorem feedAndParseCommand_pending {s : ByteString} {h : CommandHandler} (hpending : Pending s h)
    (y : ByteString)
    : h.feedAndParseCommand y = fresh.feedAndParseCommand (s ++ y) := by
  cases hpending with
  | @header s hscan =>
    rw [List.cons_append, feedAndParseCommand_star]
    apply feedAndParseCommand_header rfl
  | @arguments s number left arguments last rest hscan =>
    rcases scanRequest_suffix hscan with ⟨⟨consumed, hconsumed⟩, hnumber⟩
    rw [List.cons_append, feedAndParseCommand_star, ← List.cons_append, scanRequest_append hscan]
    have hoffset : (star :: s ++ y).length - (rest ++ y).length = consumed.length := by
      rw [← hconsumed, List.append_assoc, List.length_append]
      omega
    have happend : { argumentsPending (star :: s) number (left + 1) arguments last rest with
        commandString := star :: s ++ y }
          = argumentsPending (star :: s ++ y) number (left + 1) arguments last (rest ++ y) := by
      unfold argumentsPending
      rw [hoffset, ← hconsumed, List.length_append, Nat.add_sub_cancel]
    have hsplit : star :: s ++ y = consumed ++ (rest ++ y) := by
      rw [← hconsumed, List.append_assoc]
    have hparse := parseRest_eq_toFed
      (h := argumentsPending (star :: s ++ y) number (left + 1) arguments last (rest ++ y))
      rfl hsplit hoffset rfl
    refine Eq.trans ?_ hparse
    have hnotneg : ¬ number < 0 := by omega
    unfold feedAndParseCommand parseCommand
    rw [← happend]
    simp only [argumentsPending, hnotneg, ↓reduceIte]

end CommandHandler
