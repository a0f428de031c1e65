import Boostcache.Cpp.Memory

/-!
This module contains the `CommandHandler` of `kernel/commandhandler.{h,cpp}`: the resumable parser
that every session feeds with whatever a read returned. Pointers are indices into `commandString`.

The `Bool` of the parse functions is the value the C++ functions return. What a handler does
besides changing its own fields is to call `executeCommand`, so `feedAndParseCommand` also returns
the argument vectors of these calls.
-/

open Cpp

abbrev Arguments := List ByteString

inductive CommandType where
  | notSet
  | inline
  | multiBulk
  deriving DecidableEq, Repr

structure CommandHandler where
  type : CommandType
  commandString : ByteString
  commandOffset : Nat
  numberOfArguments : Int
  numberOfArgumentsLeft : Int
  lastArgumentLength : Int
  commandArguments : Arguments
  deriving DecidableEq, Repr

namespace CommandHandler

abbrev star : UInt8 := 42
abbrev dollar : UInt8 := 36

def reset (h : CommandHandler) : CommandHandler :=
  { h with
      type := .notSet
      commandString := []
      commandOffset := 0
      numberOfArguments := -1
      numberOfArgumentsLeft := -1
      lastArgumentLength := -1
      commandArguments := []
  }

-- The constructor, all it does is to call `reset`.
def fresh : CommandHandler :=
  {
    type := .notSet
    commandString := []
    commandOffset := 0
    numberOfArguments := -1
    numberOfArgumentsLeft := -1
    lastArgumentLength := -1
    commandArguments := []
  }

@[simp]
theorem reset_eq_fresh (h : CommandHandler) : h.reset = fresh := by
  rfl

def toInt (s : ByteString) (b e : Nat) : Except Fault Int := do
  if (← deref s ((e : Int) - 1)) ≠ cr then
    return -1
  go s b 0
where
  go (s : ByteString) (b : Nat) (num : Int) : Except Fault Int :=
    match hc:deref s b with
    | .error fault => .error fault
    | .ok c =>
      if c = cr then
        .ok num
      else
        go s (b + 1) (int32 (int32 (num * 10) + (char c - 48)))
  termination_by s.length + 1 - b
  decreasing_by
    have := deref_le_length hc
    omega

namespace split

-- `while (*found == delimiter) ++found;`
def trim (s : ByteString) (delimiter : UInt8) (found : Nat) : Except Fault Nat :=
  match hc:deref s found with
  | .error fault => .error fault
  | .ok c =>
    if c = delimiter then
      trim s delimiter (found + 1)
    else
      .ok found
termination_by s.length + 1 - found
decreasing_by
  have := deref_le_length hc
  omega

-- One round of the loop: the word that is saved and the position of the next one.
def word (s : ByteString) (b e : Nat) (delimiter : UInt8) : Except Fault (ByteString × Nat) := do
  let found := (← memchr s delimiter b e).getD e
  let argument ← substring s b (found - b)
  let found ← trim s delimiter found
  return (argument, found)

theorem le_trim {s : ByteString} {delimiter : UInt8} {found found' : Nat}
    (h : trim s delimiter found = .ok found')
    : found ≤ found' ∧ found' ≤ s.length := by
  unfold trim at h
  split at h
  . simp at h
  . next hc =>
    have := deref_le_length hc
    split at h
    . have := le_trim h
      omega
    . simp only [Except.ok.injEq] at h
      omega
termination_by s.length + 1 - found

theorem lt_trim {s : ByteString} {delimiter : UInt8} {found found' : Nat}
    (h : trim s delimiter found = .ok found') (hc : deref s found = .ok delimiter)
    : found < found' := by
  unfold trim at h
  split at h
  . simp at h
  . next hc' =>
    rw [hc] at hc'
    injection hc' with hc'
    rw [if_pos hc'.symm] at h
    have := le_trim h
    omega

theorem lt_word {s : ByteString} {b e found : Nat} {delimiter : UInt8} {argument : ByteString}
    (h : word s b e delimiter = .ok (argument, found)) (hfound : found ≠ e)
    : b < found ∧ found ≤ s.length := by
  unfold word at h
  simp only [bind_eq_ok] at h
  rcases h with ⟨res, hmem, _, _, found', htrim, heq⟩
  injection heq with heq
  injection heq with _ heq
  subst heq
  have hle := le_trim htrim
  cases res with
  | none =>
    have := memchr_le hmem
    simp only [Option.getD_none] at hle
    omega
  | some i =>
    have hi := memchr_eq_some hmem
    have := lt_trim htrim hi.2.2
    simp only [Option.getD_some] at this
    omega

end split

set_option linter.unusedVariables false in
-- `found` is null in front of the first round, so the loop always makes at least one.
def split (s : ByteString) (b e : Nat) (delimiter : UInt8) (destination : Arguments)
    : Except Fault Arguments :=
  match hword:split.word s b e delimiter with
  | .error fault => .error fault
  | .ok (argument, found) =>
    if hfound:found = e then
      .ok (destination ++ [argument])
    else
      split s found e delimiter (destination ++ [argument])
termination_by s.length + 1 - b
decreasing_by
  have := split.lt_word hword hfound
  omega

def parseInline (h : CommandHandler) (b e : Nat) : Except Fault (Bool × CommandHandler) := do
  let h := { h with type := .inline }
  match ← memchr h.commandString lf b e with
  | none => return (false, h)
  | some lfPtr =>
    let h := { h with commandOffset := h.commandOffset + (lfPtr - b) }
    let last ← deref h.commandString ((lfPtr : Int) - 1)
    let lfPtr := if last = cr then lfPtr - 1 else lfPtr
    let arguments ← split h.commandString b lfPtr space h.commandArguments
    let h := { h with commandArguments := arguments }
    match arguments with
    | [] => return (false, h)
    | [] :: _ => return (false, h)
    | _ => return (true, h)

def parseNumberOfArguments (h : CommandHandler) (b e : Nat)
    : Except Fault (Option Nat × CommandHandler) := do
  let h := { h with type := .multiBulk }
  match ← memchr h.commandString lf b e with
  | none => return (none, h)
  | some lfPtr =>
    if (← deref h.commandString b) ≠ star then
      return (none, h.reset)
    let number ← toInt h.commandString (b + 1) lfPtr
    if number ≤ 0 then
      return (none, h.reset)
    let lfPtr := lfPtr + 1
    let h :=
      { h with
          numberOfArguments := number
          numberOfArgumentsLeft := number
          commandOffset := h.commandOffset + (lfPtr - b)
      }
    return (some lfPtr, h)

namespace parseArguments

inductive Iteration where
  | break (h : CommandHandler)
  | next (h : CommandHandler) (c : Nat)

-- One round of the loop, `lfPtr` is the end of the line that starts at `c`.
def iteration (h : CommandHandler) (prevCommandOffset b c e lfPtr : Nat)
    : Except Fault Iteration := do
  let s := h.commandString
  if (← deref s c) ≠ dollar then
    return .break h.reset
  let length ← toInt s (c + 1) lfPtr
  if length ≤ 0 then
    return .break h.reset
  let h := { h with lastArgumentLength := length }
  let lfPtr := lfPtr + 1
  -- `length + 2` is an `int` addition, the difference of the pointers is 64 bit wide
  if (e : Int) - lfPtr < int32 (length + 2) then
    return .break h
  if !(← memcmp s (lfPtr + length.toNat) [cr, lf]) then
    return .break h.reset
  let argument ← substring s lfPtr length.toNat
  let c := lfPtr + length.toNat + 2
  let h :=
    { h with
        commandArguments := h.commandArguments ++ [argument]
        numberOfArgumentsLeft := h.numberOfArgumentsLeft - 1
        commandOffset := prevCommandOffset + (c - b)
        lastArgumentLength := -1
    }
  return .next h c

theorem lt_iteration {h h' : CommandHandler} {prevCommandOffset b c e lfPtr c' : Nat}
    (hiter : iteration h prevCommandOffset b c e lfPtr = .ok (.next h' c'))
    : lfPtr < c' := by
  unfold iteration at hiter
  simp only [bind_eq_ok] at hiter
  rcases hiter with ⟨_, _, hiter⟩
  split at hiter
  . injection hiter with hiter
    contradiction
  . simp only [bind_eq_ok] at hiter
    rcases hiter with ⟨length, _, hiter⟩
    split at hiter
    . injection hiter with hiter
      contradiction
    . split at hiter
      . injection hiter with hiter
        contradiction
      . simp only [bind_eq_ok] at hiter
        rcases hiter with ⟨_, _, hiter⟩
        split at hiter
        . injection hiter with hiter
          contradiction
        . simp only [bind_eq_ok] at hiter
          rcases hiter with ⟨_, _, hiter⟩
          injection hiter with hiter
          injection hiter with _ hiter
          omega

end parseArguments

set_option linter.unusedVariables false in
def parseArguments (h : CommandHandler) (b e : Nat) : Except Fault (Bool × CommandHandler) := do
  let h ← go h h.commandOffset b b e
  return (h.numberOfArgumentsLeft == 0, h)
where
  go (h : CommandHandler) (prevCommandOffset b c e : Nat) : Except Fault CommandHandler :=
    if h.numberOfArgumentsLeft = 0 then
      .ok h
    else
      match hlf:memchr h.commandString lf c e with
      | .error fault => .error fault
      | .ok none => .ok h
      | .ok (some lfPtr) =>
        match hiter:parseArguments.iteration h prevCommandOffset b c e lfPtr with
        | .error fault => .error fault
        | .ok (.break h) => .ok h
        | .ok (.next h c) => go h prevCommandOffset b c e
  termination_by e - c
  decreasing_by
    have := memchr_eq_some hlf
    have := parseArguments.lt_iteration hiter
    omega

def executeCommand (h : CommandHandler) : Arguments × CommandHandler :=
  (h.commandArguments, h.reset)

structure Fed where
  handler : CommandHandler
  needMore : Bool
  executed : List Arguments
  deriving DecidableEq, Repr

-- `feedAndParseCommand` up to the call of `executeCommand`: `false` if it returns before that.
def parseCommand (h : CommandHandler) (buffer : ByteString)
    : Except Fault (Bool × CommandHandler) := do
  let h := { h with commandString := h.commandString ++ buffer }
  let b : Nat := h.commandOffset
  let e := h.commandString.length
  if h.numberOfArguments < 0 then
    if (← deref h.commandString b) ≠ star then
      let (parsed, h) ← h.parseInline b e
      if !parsed then
        return (false, h.reset)
      parseRest h b e
    else
      let (next, h) ← h.parseNumberOfArguments b e
      match next with
      | none => return (false, h)
      | some b => parseRest h b e
  else
    parseRest h b e
where
  parseRest (h : CommandHandler) (b e : Nat) : Except Fault (Bool × CommandHandler) :=
    if h.type = .multiBulk then
      h.parseArguments b e
    else
      .ok (true, h)

def leave (parsed : Bool) (h : CommandHandler) : Fed :=
  if parsed then
    let (arguments, h) := h.executeCommand
    { handler := h, needMore := false, executed := [arguments] }
  else
    { handler := h, needMore := true, executed := [] }

def feedAndParseCommand (h : CommandHandler) (buffer : ByteString) : Except Fault Fed := do
  let (parsed, h) ← h.parseCommand buffer
  return leave parsed h

end CommandHandler
