import Boostcache.Kernel.CommandHandler.Impl

/-!
This module contains what the parse functions of the `CommandHandler` compute, in terms of the
bytes they look at instead of pointers into a buffer: `words` for `split`, `lineInt` for `toInt`,
`scanBlock` for one round of the loop of `parseArguments`, `scanArguments` for the loop and
`scanRequest` for a whole multi-bulk request.
-/

open Cpp

namespace CommandHandler

theorem takeWhile_append_cons {c : UInt8} {w : ByteString} (h : c ∉ w) (rest : ByteString)
    : (w ++ c :: rest).takeWhile (· != c) = w := by
  induction w with
  | nil => simp
  | cons d w ih =>
    simp only [List.mem_cons, not_or] at h
    have hd : (d != c) = true := by simpa using Ne.symm h.1
    rw [List.cons_append, List.takeWhile_cons, if_pos hd, ih h.2]

theorem takeWhile_of_not_mem {c : UInt8} {w : ByteString} (h : c ∉ w)
    : w.takeWhile (· != c) = w := by
  induction w with
  | nil => rfl
  | cons d w ih =>
    simp only [List.mem_cons, not_or] at h
    have hd : (d != c) = true := by simpa using Ne.symm h.1
    rw [List.takeWhile_cons, if_pos hd, ih h.2]

def splitLf : ByteString → Option (ByteString × ByteString)
  | [] => none
  | c :: s =>
    if c = lf then
      some ([], s)
    else
      (splitLf s).map (fun (line, rest) => (c :: line, rest))

theorem splitLf_append_cons {line : ByteString} (h : lf ∉ line) (rest : ByteString)
    : splitLf (line ++ lf :: rest) = some (line, rest) := by
  induction line with
  | nil => simp [splitLf]
  | cons c line ih =>
    simp only [List.mem_cons, not_or] at h
    rw [List.cons_append]
    unfold splitLf
    rw [if_neg (Ne.symm h.1), ih h.2]
    rfl

theorem splitLf_eq_none {s : ByteString} : splitLf s = none ↔ lf ∉ s := by
  induction s with
  | nil => simp [splitLf]
  | cons c s ih =>
    unfold splitLf
    split
    . next hc => simp [hc]
    . next hc =>
      rw [Option.map_eq_none_iff, ih, List.mem_cons, not_or]
      constructor
      . intro h
        exact ⟨Ne.symm hc, h⟩
      . intro h
        apply h.2

theorem splitLf_eq_some {s line rest : ByteString} (h : splitLf s = some (line, rest))
    : s = line ++ lf :: rest ∧ lf ∉ line := by
  have hmem : lf ∈ s := by
    apply Decidable.byContradiction
    intro hmem
    rw [splitLf_eq_none.mpr hmem] at h
    simp at h
  rcases List.eq_append_cons_of_mem hmem with ⟨line', rest', hs, hline'⟩
  rw [hs, splitLf_append_cons hline'] at h
  simp only [Option.some.injEq, Prod.mk.injEq] at h
  rw [hs, ← h.1, ← h.2]
  exact ⟨rfl, hline'⟩

theorem splitLf_append {s line rest : ByteString} (h : splitLf s = some (line, rest))
    (y : ByteString)
    : splitLf (s ++ y) = some (line, rest ++ y) := by
  rcases splitLf_eq_some h with ⟨hs, hmem⟩
  rw [hs, List.append_assoc, List.cons_append, splitLf_append_cons hmem]

def trimCr (line : ByteString) : ByteString :=
  if line.getLast? = some cr then line.dropLast else line

def nextWord (line : ByteString) : ByteString :=
  (line.dropWhile (· != space)).dropWhile (· == space)

theorem length_nextWord_lt {line : ByteString} (h : nextWord line ≠ [])
    : (nextWord line).length < line.length := by
  cases line with
  | nil => simp [nextWord] at h
  | cons c line =>
    have hle (p : UInt8 → Bool) (l : ByteString) : (l.dropWhile p).length ≤ l.length :=
      (List.dropWhile_sublist p).length_le
    rw [List.length_cons, Nat.lt_succ_iff]
    unfold nextWord
    rw [List.dropWhile_cons]
    split
    . apply Nat.le_trans (hle _ _) (hle _ _)
    . next hc =>
      have : (c == space) = true := by simpa using hc
      rw [List.dropWhile_cons, if_pos this]
      apply hle

def words (line : ByteString) : Arguments :=
  if _ : nextWord line = [] then
    [line.takeWhile (· != space)]
  else
    line.takeWhile (· != space) :: words (nextWord line)
termination_by line.length
decreasing_by
  apply length_nextWord_lt
  assumption

def digit (num : Int) (c : UInt8) : Int :=
  int32 (int32 (num * 10) + (char c - 48))

def numeral (text : ByteString) : Int :=
  text.foldl digit 0

def lineInt (line : ByteString) : Int :=
  if line.getLast? = some cr then
    numeral (line.takeWhile (· != cr))
  else
    -1

inductive BlockScan where
  | noLine
  | noData (length : Int)
  | rejected
  | fault
  | argument (data rest : ByteString)
  deriving DecidableEq, Repr

def scanBlock (s : ByteString) : BlockScan :=
  match splitLf s with
  | none => .noLine
  | some ([], _) => .rejected
  | some (c :: line, rest) =>
    let length := lineInt line
    if c ≠ dollar ∨ length ≤ 0 then
      .rejected
    else if (rest.length : Int) < int32 (length + 2) then
      .noData length
    else if rest.length + 1 < length.toNat + 2 then
      -- the addition has wrapped around
      .fault
    else if (rest.drop length.toNat).take 2 = [cr, lf] then
      .argument (rest.take length.toNat) (rest.drop (length.toNat + 2))
    else
      .rejected

theorem lineInt_lt (line : ByteString) : lineInt line < 2 ^ 31 := by
  have hfold (text : ByteString) : ∀ num < 2 ^ 31, text.foldl digit num < 2 ^ 31 := by
    induction text with
    | nil => simp
    | cons c text ih =>
      intro num _
      apply ih
      apply int32_lt
  unfold lineInt
  split
  . apply hfold
    decide
  . decide

theorem scanBlock_eq_argument {s data rest : ByteString}
    : scanBlock s = .argument data rest
        ↔
      ∃ line, lf ∉ line ∧ lineInt line = data.length ∧ data ≠ []
        ∧ s = dollar :: line ++ lf :: (data ++ [cr, lf] ++ rest) := by
  constructor
  . intro h
    unfold scanBlock at h
    split at h
    . contradiction
    . contradiction
    . next c line next hsplit =>
      rcases splitLf_eq_some hsplit with ⟨hs, hmem⟩
      dsimp only at h
      split_ifs at h with h1 h2 h3 h4
      injection h with hdata hrest
      have hlength : (lineInt line).toNat + 2 ≤ next.length := by
        have := congrArg List.length h4
        simp only [List.length_take, List.length_drop, List.length_cons, List.length_nil] at this
        omega
      simp only [ne_eq, not_or, not_not, Int.not_le] at h1
      have hdatalength : data.length = (lineInt line).toNat := by
        rw [← hdata, List.length_take]
        omega
      have hnext : next = data ++ [cr, lf] ++ rest := by
        rw [← hdata, ← hrest, ← h4, ← List.drop_drop, List.append_assoc, List.take_append_drop,
          List.take_append_drop]
      refine ⟨line, ?_, by omega, ?_, by rw [hs, hnext, h1.1]⟩
      . intro hmem'
        apply hmem (List.mem_cons_of_mem c hmem')
      . intro hnil
        rw [hnil, List.length_nil] at hdatalength
        omega
  . intro h
    rcases h with ⟨line, hmem, hlength, hdata, hs⟩
    have hpos : 0 < data.length := List.length_pos_iff.mpr hdata
    have hlt := lineInt_lt line
    have hsplit : splitLf s = some (dollar :: line, data ++ [cr, lf] ++ rest) := by
      rw [hs, splitLf_append_cons]
      intro hmem'
      rcases List.mem_cons.mp hmem' with heq | hmem'
      . exact absurd heq (by decide)
      . apply hmem hmem'
    have hshort : ¬ ((data ++ [cr, lf] ++ rest).length : Int) < int32 (data.length + 2) := by
      simp only [List.length_append, List.length_cons, List.length_nil]
      unfold int32
      omega
    unfold scanBlock
    rw [hsplit]
    dsimp only
    rw [hlength, if_neg (by simpa using hdata), if_neg hshort, if_neg (by simp),
      Int.toNat_natCast, if_pos (by simp)]
    simp

theorem scanBlock_eq_noLine {s : ByteString} : scanBlock s = .noLine ↔ lf ∉ s := by
  rw [← splitLf_eq_none]
  unfold scanBlock
  split
  . next h => simp [h]
  . next h => simp [h]
  . next h =>
    rw [h]
    dsimp only
    split_ifs <;> simp

theorem scanBlock_suffix {s data rest : ByteString} (h : scanBlock s = .argument data rest)
    : rest <:+ s := by
  rcases scanBlock_eq_argument.mp h with ⟨line, -, -, -, hs⟩
  exact ⟨dollar :: line ++ lf :: (data ++ [cr, lf]), by simp [hs]⟩

theorem scanBlock_argument_append {s data rest : ByteString}
    (h : scanBlock s = .argument data rest) (y : ByteString)
    : scanBlock (s ++ y) = .argument data (rest ++ y) := by
  rcases scanBlock_eq_argument.mp h with ⟨line, hmem, hlength, hdata, hs⟩
  apply scanBlock_eq_argument.mpr
  exact ⟨line, hmem, hlength, hdata, by simp [hs]⟩

inductive Scan where
  | fault
  | rejected
  | stopped (left : Nat) (arguments : Arguments) (lastArgumentLength : Int) (rest : ByteString)
  deriving DecidableEq, Repr

def scanArguments (left : Nat) (arguments : Arguments) (lastArgumentLength : Int)
    (s : ByteString) : Scan :=
  match left with
  | 0 => .stopped 0 arguments lastArgumentLength s
  | left + 1 =>
    match scanBlock s with
    | .noLine => .stopped (left + 1) arguments lastArgumentLength s
    | .noData length => .stopped (left + 1) arguments length s
    | .rejected => .rejected
    | .fault => .fault
    | .argument data rest => scanArguments left (arguments ++ [data]) (-1) rest

theorem scanArguments_suffix {left left' : Nat} {arguments arguments' : Arguments}
    {last last' : Int} {s rest : ByteString}
    (h : scanArguments left arguments last s = .stopped left' arguments' last' rest)
    : rest <:+ s := by
  induction left generalizing arguments last s with
  | zero =>
    injection h with _ _ _ h
    subst h
    apply List.suffix_refl
  | succ left ih =>
    unfold scanArguments at h
    split at h
    . injection h with _ _ _ h
      subst h
      apply List.suffix_refl
    . injection h with _ _ _ h
      subst h
      apply List.suffix_refl
    . contradiction
    . contradiction
    . next hblock => apply List.IsSuffix.trans (ih h) (scanBlock_suffix hblock)

theorem scanArguments_of_line {left : Nat} {s : ByteString} (h : scanBlock s ≠ .noLine)
    (arguments : Arguments) (last last' : Int)
    : scanArguments (left + 1) arguments last s = scanArguments (left + 1) arguments last' s := by
  unfold scanArguments
  split
  . contradiction
  . rfl
  . rfl
  . rfl
  . rfl

-- What has been consumed stays consumed: the loop can be left and entered again.
theorem scanArguments_append {left left' : Nat} {arguments arguments' : Arguments}
    {last last' : Int} {s rest : ByteString}
    (h : scanArguments left arguments last s = .stopped left' arguments' last' rest)
    (y : ByteString)
    : scanArguments left arguments last (s ++ y)
        =
      scanArguments left' arguments' last' (rest ++ y) := by
  induction left generalizing arguments last s with
  | zero =>
    injection h with h1 h2 h3 h4
    rw [← h1, h2, h3, h4]
  | succ left ih =>
    unfold scanArguments at h
    split at h
    . injection h with h1 h2 h3 h4
      rw [← h1, h2, h3, h4]
    . next length hblock =>
      injection h with h1 h2 h3 h4
      rw [← h1, h2, ← h4]
      apply scanArguments_of_line
      rw [ne_eq, scanBlock_eq_noLine]
      have hmem : ¬ lf ∉ s := by
        rw [← scanBlock_eq_noLine, hblock]
        simp
      intro hmem'
      apply hmem
      intro hmem
      apply hmem' (List.mem_append_left y hmem)
    . contradiction
    . contradiction
    . next data next hblock =>
      rw [← ih h, scanArguments, scanBlock_argument_append hblock]

theorem scanArguments_length {left : Nat} {saved arguments : Arguments} {last last' : Int}
    {s rest : ByteString} (h : scanArguments left saved last s = .stopped 0 arguments last' rest)
    : arguments.length = saved.length + left := by
  induction left generalizing saved last s with
  | zero =>
    injection h with _ h
    rw [← h, Nat.add_zero]
  | succ left ih =>
    unfold scanArguments at h
    split at h
    . injection h with h
      contradiction
    . injection h with h
      contradiction
    . contradiction
    . contradiction
    . rw [ih h, List.length_append, List.length_singleton]
      omega

def Scan.toHandler (h : CommandHandler) : Scan → Except Fault CommandHandler
  | .fault => .error .outOfRange
  | .rejected => .ok fresh
  | .stopped left arguments lastArgumentLength rest =>
    .ok
      { h with
          commandOffset := h.commandString.length - rest.length
          numberOfArgumentsLeft := left
          lastArgumentLength := lastArgumentLength
          commandArguments := arguments
      }

inductive RequestScan where
  | headerPending
  | rejected
  | body (number : Int) (scan : Scan)
  deriving DecidableEq, Repr

def scanRequest (s : ByteString) : RequestScan :=
  match splitLf s with
  | none => .headerPending
  | some (line, rest) =>
    let number := lineInt line.tail
    if number ≤ 0 then
      .rejected
    else
      .body number (scanArguments number.toNat [] (-1) rest)

def headerPending (s : ByteString) : CommandHandler :=
  { fresh with type := .multiBulk, commandString := s }

def argumentsPending (s : ByteString) (number : Int) (left : Nat) (arguments : Arguments)
    (lastArgumentLength : Int) (rest : ByteString) : CommandHandler :=
  {
    type := .multiBulk
    commandString := s
    commandOffset := s.length - rest.length
    numberOfArguments := number
    numberOfArgumentsLeft := left
    lastArgumentLength := lastArgumentLength
    commandArguments := arguments
  }

def RequestScan.toFed (s : ByteString) : RequestScan → Except Fault Fed
  | .headerPending => .ok (leave false (CommandHandler.headerPending s))
  | .rejected => .ok (leave false fresh)
  | .body _ .fault => .error .outOfRange
  | .body _ .rejected => .ok (leave false fresh)
  | .body number (.stopped left arguments lastArgumentLength rest) =>
    .ok (leave (left == 0) (argumentsPending s number left arguments lastArgumentLength rest))

end CommandHandler
