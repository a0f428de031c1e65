import Boostcache.Kernel.CommandHandler.Grammar

/-!
The numerals in the header lines of a multi-bulk request. `toInt` accumulates them in an `int` without
looking at their length, so only those that fit into an `int` are read as what they stand for.
-/

open Cpp Resp

namespace CommandHandler

def InRange (x : Int) : Prop :=
  -2 ^ 31 ≤ x ∧ x < 2 ^ 31

namespace toInt

/--
The results of the `int` operations `num * 10`, `*begin - '0'` and their sum in each round of the
loop, before they are converted to `int`.
-/
def operations (s : ByteString) (b : Nat) (num : Int) : List Int :=
  match hc:deref s b with
  | .error _ => []
  | .ok c =>
    if c = cr then
      []
    else
      let sum := int32 (num * 10) + (char c - 48)
      num * 10 :: (char c - 48) :: sum :: operations s (b + 1) (int32 sum)
termination_by s.length + 1 - b
decreasing_by
  have := deref_le_length hc
  omega

theorem operations_of_deref {s : ByteString} {b : Nat} {c : UInt8} (hc : deref s b = .ok c)
    (num : Int)
    : operations s b num
        =
      if c = cr then
        []
      else
        num * 10 :: (char c - 48) :: (int32 (num * 10) + (char c - 48))
          :: operations s (b + 1) (digit num c) := by
  rw [operations]
  split
  . next hc' =>
    rw [hc] at hc'
    contradiction
  . next hc' =>
    rw [hc] at hc'
    injection hc' with hc'
    rw [hc']
    rfl

theorem inRange_operations {digits : ByteString} (hdigits : ∀ c ∈ digits, isDigit c = true)
    (a rest : ByteString) {num : Nat} (hnum : num < 2 ^ 31)
    : (∀ x ∈ operations (a ++ (digits ++ cr :: rest)) a.length num, InRange x)
        ↔
      digits.foldl (fun v c => v * 10 + (c.toNat - 48)) num < 2 ^ 31 := by
  induction digits generalizing a num with
  | nil =>
    rw [List.nil_append, operations_of_deref (deref_append_cons ..)]
    simpa using hnum
  | cons c digits ih =>
    rw [List.forall_mem_cons] at hdigits
    have happend : a ++ (c :: digits ++ cr :: rest) = (a ++ [c]) ++ (digits ++ cr :: rest) := by simp
    have hlength : a.length + 1 = (a ++ [c]).length := by simp
    rcases char_of_isDigit hdigits.1 with ⟨hchar, hlt⟩
    have hcr : c ≠ cr := by
      intro heq
      rw [heq] at hdigits
      exact absurd hdigits.1 (by decide)
    rw [List.cons_append, operations_of_deref (deref_append_cons ..), if_neg hcr,
      ← List.cons_append, happend, hlength, List.foldl_cons]
    simp only [List.forall_mem_cons]
    by_cases hfits : num * 10 + (c.toNat - 48) < 2 ^ 31
    . rw [digit_of_isDigit hdigits.1 hfits, ih hdigits.2 (a ++ [c]) hfits, hchar,
        int32_of_range (by omega) (by omega)]
      unfold InRange
      constructor
      . intro h
        apply h.2.2.2
      . intro h
        exact ⟨by omega, by omega, by omega, h⟩
    . have hle := le_foldl_value digits (num * 10 + (c.toNat - 48))
      apply iff_of_false
      . intro h
        rcases h with ⟨h1, -, h3, -⟩
        unfold InRange at h1 h3
        rw [hchar, int32_of_range (by omega) (by omega)] at h3
        omega
      . omega

end toInt

theorem lineInt_numeral {digits : ByteString} (h : IsNumeral digits) (hvalue : value digits < 2 ^ 31)
    : lineInt (digits ++ [cr]) = value digits := by
  have hcr : cr ∉ digits := not_mem_of_isDigit h.2 (by decide)
  rw [lineInt_append_cons hcr, if_pos (by rfl), numeral_eq_value h.2 hvalue]

def CountRead (h : CommandHandler) (digits : ByteString) : Prop :=
  (∃ next h', h.parseNumberOfArguments 0 h.commandString.length = .ok (next, h')
    ∧ ((next = none ∧ h' = fresh) ∨ (next ≠ none ∧ h'.numberOfArguments = value digits)))
    ∧ ∀ x ∈ toInt.operations h.commandString 1 0, InRange x

namespace parseArguments

/--
The round has been made with `length`: it waits for the data, it has taken this many bytes or it has
found them malformed. It can only fail to return if `length + 2` wraps around.
-/
def GoesOn (h : CommandHandler) (length : Int) : Except Fault Iteration → Prop
  | .ok (.break h') => h' = { h with lastArgumentLength := length } ∨ h' = fresh
  | .ok (.next h' _) =>
    ∃ argument, h'.commandArguments = h.commandArguments ++ [argument] ∧ argument.length = length
  | .error _ => 2 ^ 31 - 2 ≤ length

end parseArguments

def LengthRead (h : CommandHandler) (digits : ByteString) (b c lfPtr : Nat) : Prop :=
  (∃ length, toInt h.commandString (c + 1) lfPtr = .ok length
    ∧ ((length ≤ 0 ∧ parseArguments.iteration h b b c h.commandString.length lfPtr = .ok (.break fresh))
      ∨ (length = value digits ∧ parseArguments.GoesOn h length
        (parseArguments.iteration h b b c h.commandString.length lfPtr))))
    ∧ ∀ x ∈ toInt.operations h.commandString (c + 1) 0, InRange x

theorem countRead_iff {digits : ByteString} (hdigits : IsNumeral digits) {h : CommandHandler}
    {rest : ByteString} (hs : h.commandString = star :: (digits ++ [cr]) ++ lf :: rest)
    (hoffset : h.commandOffset = 0)
    : CountRead h digits ↔ value digits < 2 ^ 31 := by
  have hoperations := toInt.inRange_operations hdigits.2 [star] (lf :: rest) (show 0 < 2 ^ 31 by decide)
  have happend : [star] ++ (digits ++ cr :: lf :: rest) = h.commandString := by simp [hs]
  rw [happend] at hoperations
  constructor
  . intro hread
    apply hoperations.mp hread.2
  . intro hvalue
    refine ⟨?_, hoperations.mpr hvalue⟩
    have hlf : lf ∉ star :: (digits ++ [cr]) := by
      simp only [List.mem_cons, List.mem_append, List.not_mem_nil, or_false, not_or]
      exact ⟨by decide, not_mem_of_isDigit hdigits.2 (by decide), by decide⟩
    have hsplit : splitLf (star :: (digits ++ [cr] ++ lf :: rest))
        = some (star :: (digits ++ [cr]), rest) := splitLf_append_cons hlf rest
    have hs' : h.commandString = star :: (digits ++ [cr] ++ lf :: rest) := hs
    rw [parseNumberOfArguments_eq hs' hoffset]
    simp only [hsplit, List.tail_cons, lineInt_numeral hdigits hvalue]
    split
    . exact ⟨_, _, rfl, Or.inl ⟨rfl, rfl⟩⟩
    . exact ⟨_, _, rfl, Or.inr ⟨by simp, rfl⟩⟩

theorem goesOn_of_pos {length : Int} (hpos : 0 < length) (hlt : length < 2 ^ 31)
    {h h' : CommandHandler} {rest : ByteString} {c : Nat}
    (harguments : h'.commandArguments = h.commandArguments ++ [rest.take length.toNat])
    : parseArguments.GoesOn h length
        (if (rest.length : Int) < int32 (length + 2) then
          .ok (.break { h with lastArgumentLength := length })
        else if rest.length + 1 < length.toNat + 2 then
          .error .outOfRange
        else if (rest.drop length.toNat).take 2 = [cr, lf] then
          .ok (.next h' c)
        else
          .ok (.break fresh)) := by
  split
  . exact Or.inl rfl
  . next hshort =>
    split
    . unfold int32 at hshort
      show 2 ^ 31 - 2 ≤ length
      omega
    . split
      . next hcrlf =>
        refine ⟨_, harguments, ?_⟩
        have := congrArg List.length hcrlf
        simp only [List.length_take, List.length_drop, List.length_cons, List.length_nil] at this ⊢
        omega
      . exact Or.inr rfl

theorem lengthRead_iff {digits : ByteString} (hdigits : IsNumeral digits) {h : CommandHandler}
    {a rest : ByteString} (hs : h.commandString = a ++ (dollar :: (digits ++ [cr]) ++ lf :: rest))
    {b : Nat} (hb : b ≤ a.length)
    : LengthRead h digits b a.length (a.length + (dollar :: (digits ++ [cr])).length)
        ↔
      value digits < 2 ^ 31 := by
  have hoperations := toInt.inRange_operations hdigits.2 (a ++ [dollar]) (lf :: rest)
    (show 0 < 2 ^ 31 by decide)
  have happend : a ++ [dollar] ++ (digits ++ cr :: lf :: rest) = h.commandString := by simp [hs]
  have hlength : (a ++ [dollar]).length = a.length + 1 := by simp
  rw [happend, hlength] at hoperations
  constructor
  . intro hread
    apply hoperations.mp hread.2
  . intro hvalue
    refine ⟨?_, hoperations.mpr hvalue⟩
    have htoInt := toInt_line a (show dollar ≠ cr by decide) (digits ++ [cr]) rest
    rw [← hs, lineInt_numeral hdigits hvalue] at htoInt
    refine ⟨_, htoInt, ?_⟩
    rw [parseArguments.iteration_eq hs hb, lineInt_numeral hdigits hvalue]
    have hlt : (value digits : Int) < 2 ^ 31 := by omega
    generalize (value digits : Int) = length at hlt ⊢
    by_cases hle : length ≤ 0
    . rw [if_pos hle]
      exact Or.inl ⟨hle, rfl⟩
    . rw [if_neg hle]
      refine Or.inr ⟨rfl, ?_⟩
      apply goesOn_of_pos (by omega) hlt
      rfl

theorem header_numerals {digits : ByteString} (hdigits : IsNumeral digits)
    : (∀ (h : CommandHandler) (rest : ByteString),
        h.commandString = star :: (digits ++ [cr]) ++ lf :: rest → h.commandOffset = 0
        → (CountRead h digits ↔ value digits < 2 ^ 31))
      ∧
      ∀ (h : CommandHandler) (a rest : ByteString) (b : Nat),
        h.commandString = a ++ (dollar :: (digits ++ [cr]) ++ lf :: rest) → b ≤ a.length
        → (LengthRead h digits b a.length (a.length + (dollar :: (digits ++ [cr])).length)
          ↔ value digits < 2 ^ 31) := by
  constructor
  . intro h rest hs hoffset
    apply countRead_iff hdigits hs hoffset
  . intro h a rest b hs hb
    apply lengthRead_iff hdigits hs hb

theorem header_numerals_twelve
    : CountRead { fresh with commandString := literal "*12\r\n" } (literal "12") := by
  have hdigits : IsNumeral (literal "12") := ⟨by decide, by decide +kernel⟩
  apply ((header_numerals hdigits).1 _ [] (by decide +kernel) rfl).mpr
  decide

theorem header_numerals_wrap
    : ¬ ∀ digits : ByteString, IsNumeral digits →
        (∀ (h : CommandHandler) (rest : ByteString),
          h.commandString = star :: (digits ++ [cr]) ++ lf :: rest → h.commandOffset = 0
          → CountRead h digits)
        ∧
        ∀ (h : CommandHandler) (a rest : ByteString) (b : Nat),
          h.commandString = a ++ (dollar :: (digits ++ [cr]) ++ lf :: rest) → b ≤ a.length
          → LengthRead h digits b a.length (a.length + (dollar :: (digits ++ [cr])).length) := by
  intro hall
  have hdigits : IsNumeral (literal "4294967297") := ⟨by decide, by decide +kernel⟩
  rcases (hall (literal "4294967297") hdigits).1 { fresh with commandString := literal "*4294967297\r\n" }
    [] (by decide +kernel) rfl with ⟨⟨next, h', hparse, hnumber⟩, -⟩
  have hone : parseNumberOfArguments { fresh with commandString := literal "*4294967297\r\n" } 0 13
      = .ok
        (
          some 13,
          { fresh with
              type := .multiBulk
              commandString := literal "*4294967297\r\n"
              commandOffset := 13
              numberOfArguments := 1
              numberOfArgumentsLeft := 1
          }
        ) := by
    decide +kernel
  have hparse := hone.symm.trans hparse
  injection hparse with hparse
  injection hparse with hnext hhandler
  rw [← hnext, ← hhandler] at hnumber
  exact absurd hnumber (by decide)

end CommandHandler
