import Boostcache.Kernel.CommandHandler.Lemmas.Feed
import Boostcache.Resp.Lemmas

/-!
What the parser makes of an encoded request and of every piece an encoded request can begin with.
-/

open Cpp Resp

namespace CommandHandler

theorem char_of_isDigit {c : UInt8} (hc : isDigit c = true)
    : char c - 48 = (c.toNat - 48 : Nat) ∧ c.toNat - 48 < 10 := by
  unfold isDigit at hc
  simp only [Bool.and_eq_true, decide_eq_true_eq] at hc
  unfold char
  rw [if_pos (by omega)]
  omega

theorem digit_of_isDigit {num : Nat} {c : UInt8} (hc : isDigit c = true)
    (h : num * 10 + (c.toNat - 48) < 2 ^ 31)
    : digit num c = (num * 10 + (c.toNat - 48) : Nat) := by
  unfold digit
  rw [(char_of_isDigit hc).1, int32_int32_add, int32_of_range (by omega) (by omega)]
  omega

theorem le_foldl_value (digits : ByteString) (num : Nat)
    : num ≤ digits.foldl (fun v c => v * 10 + (c.toNat - 48)) num := by
  induction digits generalizing num with
  | nil => simp
  | cons c digits ih =>
    rw [List.foldl_cons]
    apply Nat.le_trans _ (ih _)
    omega

theorem numeral_eq_value {digits : ByteString} (hdigits : ∀ c ∈ digits, isDigit c = true)
    (h : value digits < 2 ^ 31)
    : numeral digits = value digits := by
  have hfold (digits : ByteString) (hdigits : ∀ c ∈ digits, isDigit c = true) (num : Nat)
      : digits.foldl (fun v c => v * 10 + (c.toNat - 48)) num < 2 ^ 31
          →
        digits.foldl digit num
          =
        (digits.foldl (fun v c => v * 10 + (c.toNat - 48)) num : Nat) := by
    induction digits generalizing num with
    | nil => simp
    | cons c digits ih =>
      intro h
      rw [List.foldl_cons] at h ⊢
      have hle := le_foldl_value digits (num * 10 + (c.toNat - 48))
      rw [digit_of_isDigit (hdigits c (by simp)) (by omega), ih _ _ h]
      . rfl
      . intro d hd
        apply hdigits d (List.mem_cons_of_mem c hd)
  apply hfold digits hdigits 0 h

theorem numeral_decimal {n : Nat} (h : n < 2 ^ 31) : numeral (decimal n) = n := by
  rw [numeral_eq_value (decimal_digits n) (by rwa [value_decimal]), value_decimal]

theorem lf_not_mem_decimal (n : Nat) : lf ∉ decimal n :=
  not_mem_of_isDigit (decimal_digits n) (by decide)

theorem lineInt_decimal {n : Nat} (h : n < 2 ^ 31) : lineInt (decimal n ++ [cr]) = n := by
  have hcr : cr ∉ decimal n := not_mem_of_isDigit (decimal_digits n) (by decide)
  rw [lineInt_append_cons hcr, if_pos (by rfl), numeral_decimal h]

theorem block_eq (data : ByteString)
    : block data
        =
      dollar :: (decimal data.length ++ [cr]) ++ lf :: (data ++ [cr, lf]) := by
  simp [block, literal, crlf]

theorem request_eq (arguments : Arguments)
    : request arguments
        =
      star :: (decimal arguments.length ++ [cr]) ++ lf :: arguments.flatMap block := by
  simp [request, literal, crlf]

theorem lf_not_mem_line {c : UInt8} (hc : c ≠ lf) (n : Nat) : lf ∉ c :: (decimal n ++ [cr]) := by
  simp only [List.mem_cons, List.mem_append, List.not_mem_nil, or_false, not_or]
  exact ⟨Ne.symm hc, lf_not_mem_decimal n, by decide⟩

theorem scanBlock_block {data : ByteString} (hne : data ≠ []) (h : data.length < 2 ^ 31)
    (rest : ByteString)
    : scanBlock (block data ++ rest) = .argument data rest := by
  rw [scanBlock_eq_argument]
  refine ⟨decimal data.length ++ [cr], ?_, lineInt_decimal h, hne, by simp [block_eq]⟩
  intro hmem
  apply lf_not_mem_line (show dollar ≠ lf by decide) _ (List.mem_cons_of_mem _ hmem)

theorem scanBlock_block_nil (rest : ByteString)
    : scanBlock (dollar :: (decimal 0 ++ [cr]) ++ lf :: rest) = .rejected := by
  have hline := lf_not_mem_line (show dollar ≠ lf by decide) 0
  unfold scanBlock
  rw [splitLf_append_cons hline]
  dsimp only
  rw [lineInt_decimal (by decide), if_pos (by simp)]

theorem prefix_append_cons {c : UInt8} {a r s : ByteString} (hpref : s <+: a ++ c :: r)
    (ha : c ∉ a) (hs : c ∈ s)
    : ∃ u, s = a ++ c :: u ∧ u <+: r := by
  rcases hpref with ⟨w, hw⟩
  rcases List.append_eq_append_iff.mp hw with ⟨v, hv, -⟩ | ⟨v, hv, hr⟩
  . exact absurd (hv ▸ List.mem_append_left v hs) ha
  . cases v with
    | nil =>
      rw [hv, List.append_nil] at hs
      contradiction
    | cons d u =>
      injection hr with hd hr
      exact ⟨u, by rw [hv, hd], w, hr.symm⟩

theorem scanBlock_of_prefix_block {data s : ByteString} (hne : data ≠ [])
    (h : data.length ≤ 2 ^ 31 - 3) (hpref : s <+: block data) (hs : s ≠ block data)
    : scanBlock s = .noLine ∨ scanBlock s = .noData data.length := by
  by_cases hlf : lf ∈ s
  . apply Or.inr
    have hline := lf_not_mem_line (show dollar ≠ lf by decide) data.length
    rw [block_eq] at hpref hs
    rcases prefix_append_cons hpref hline hlf with ⟨u, hu, hpref⟩
    have hlength : u.length < data.length + 2 := by
      have hle := hpref.length_le
      simp only [List.length_append, List.length_cons, List.length_nil] at hle
      apply Nat.lt_of_le_of_ne hle
      intro heq
      apply hs
      rw [hu, hpref.eq_of_length (by simpa using heq)]
    have hpos : 0 < data.length := List.length_pos_iff.mpr hne
    rw [hu]
    unfold scanBlock
    rw [splitLf_append_cons hline]
    dsimp only
    rw [lineInt_decimal (by omega), if_neg (by simpa using hne),
      int32_of_range (by omega) (by omega), if_pos (by omega)]
  . apply Or.inl
    rw [scanBlock_eq_noLine]
    assumption

-- The number of the arguments and the length of each of them have to fit into an `int`, and so has
-- the length with the line separator behind the data.
structure Encodable (arguments : Arguments) : Prop where
  ne_nil : arguments ≠ []
  length_le : arguments.length ≤ 2 ^ 31 - 1
  argument_length_le : ∀ argument ∈ arguments, argument.length ≤ 2 ^ 31 - 3

theorem scanArguments_blocks {arguments : Arguments}
    (hne : ∀ argument ∈ arguments, argument ≠ [])
    (hlength : ∀ argument ∈ arguments, argument.length ≤ 2 ^ 31 - 3) (saved : Arguments)
    (last : Int) (left : Nat) (rest : ByteString)
    : ∃ last',
      scanArguments (arguments.length + left) saved last (arguments.flatMap block ++ rest)
        =
      scanArguments left (saved ++ arguments) last' rest := by
  induction arguments generalizing saved last with
  | nil => exact ⟨last, by simp⟩
  | cons argument arguments ih =>
    have hlt : argument.length < 2 ^ 31 := by
      have := hlength argument (by simp)
      omega
    rcases ih (fun a ha => hne a (by simp [ha])) (fun a ha => hlength a (by simp [ha]))
      (saved ++ [argument]) (-1) with ⟨last', hscan⟩
    refine ⟨last', ?_⟩
    rw [List.length_cons, Nat.add_right_comm, scanArguments, List.flatMap_cons, List.append_assoc,
      scanBlock_block (hne argument (by simp)) hlt]
    dsimp only
    rw [hscan]
    simp

def Scan.Waits (scan : Scan) : Prop :=
  ∃ left arguments last rest, scan = .stopped (left + 1) arguments last rest

theorem scanArguments_of_prefix_block {data s : ByteString} (hne : data ≠ [])
    (h : data.length ≤ 2 ^ 31 - 3) (hpref : s <+: block data) (hs : s ≠ block data)
    (left : Nat) (saved : Arguments) (last : Int)
    : (scanArguments (left + 1) saved last s).Waits := by
  unfold scanArguments
  rcases scanBlock_of_prefix_block hne h hpref hs with hblock | hblock
  . rw [hblock]
    exact ⟨_, _, _, _, rfl⟩
  . rw [hblock]
    exact ⟨_, _, _, _, rfl⟩

-- The induction is on the arguments: either `s` ends in the block of the first one or it starts
-- with this block and ends in a later one or in `tail`.
theorem scanArguments_of_prefix {arguments : Arguments}
    (hne : ∀ argument ∈ arguments, argument ≠ [])
    (hlength : ∀ argument ∈ arguments, argument.length ≤ 2 ^ 31 - 3) {left : Nat}
    {tail : ByteString}
    (htail : ∀ s, s <+: tail → s ≠ tail → ∀ saved last, (scanArguments left saved last s).Waits)
    {s : ByteString} (hpref : s <+: arguments.flatMap block ++ tail)
    (hs : s ≠ arguments.flatMap block ++ tail) (saved : Arguments) (last : Int)
    : (scanArguments (arguments.length + left) saved last s).Waits := by
  induction arguments generalizing saved last s with
  | nil =>
    simp only [List.flatMap_nil, List.nil_append, List.length_nil, Nat.zero_add] at hpref hs ⊢
    apply htail s hpref hs
  | cons argument arguments ih =>
    have hargument := hne argument (by simp)
    have hle := hlength argument (by simp)
    have hne' : ∀ a ∈ arguments, a ≠ [] := fun a ha => hne a (by simp [ha])
    have hlength' : ∀ a ∈ arguments, a.length ≤ 2 ^ 31 - 3 := fun a ha => hlength a (by simp [ha])
    rw [List.flatMap_cons, List.append_assoc] at hpref hs
    rw [List.length_cons, Nat.add_right_comm]
    by_cases hblock : block argument <+: s
    . rcases hblock with ⟨u, rfl⟩
      rw [List.prefix_append_right_inj] at hpref
      have hu : u ≠ arguments.flatMap block ++ tail := by
        intro heq
        apply hs (by rw [heq])
      unfold scanArguments
      rw [scanBlock_block hargument (by omega)]
      apply ih hne' hlength' hpref hu
    . apply scanArguments_of_prefix_block hargument hle
      . rcases List.prefix_or_prefix_of_prefix hpref (List.prefix_append _ _) with h | h
        . assumption
        . contradiction
      . intro heq
        apply hblock
        rw [heq]

theorem scanRequest_request {arguments : Arguments} (h : arguments.length < 2 ^ 31)
    (hne : arguments ≠ []) (rest : ByteString)
    : scanRequest (star :: (decimal arguments.length ++ [cr]) ++ lf :: rest)
        =
      .body arguments.length (scanArguments arguments.length [] (-1) rest) := by
  have hline := lf_not_mem_line (show star ≠ lf by decide) arguments.length
  have hnumber : lineInt (star :: (decimal arguments.length ++ [cr])).tail = arguments.length := by
    rw [List.tail_cons, lineInt_decimal h]
  unfold scanRequest
  rw [splitLf_append_cons hline]
  dsimp only
  rw [hnumber, if_neg (by simpa using hne), Int.toNat_natCast]

end CommandHandler
