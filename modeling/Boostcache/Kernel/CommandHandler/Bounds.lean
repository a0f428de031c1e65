import Boostcache.Kernel.CommandHandler.State

/-!
Which bytes make the parser look outside of what it has received. All reads go through `Cpp.deref`,
`Cpp.memchr`, `Cpp.memcmp` and `Cpp.substring`, so a call that returns has only read bytes between
the first one and the terminating NUL.
-/

open Cpp

namespace CommandHandler

section Bulk

theorem scanBlock_eq_fault {s : ByteString}
    : scanBlock s = .fault
        ↔
      ∃ line length rest, AnyLine line length ∧ 2 ^ 31 - 2 ≤ length ∧ rest.length ≤ length
        ∧ s = dollar :: line ++ lf :: rest := by
  constructor
  . intro h
    unfold scanBlock at h
    split at h
    . contradiction
    . contradiction
    . next c line rest hsplit =>
      rcases splitLf_eq_some hsplit with ⟨hs, hlf⟩
      simp only [List.mem_cons, not_or] at hlf
      dsimp only at h
      split_ifs at h with h1 h2 h3
      simp only [ne_eq, not_or, not_not, Int.not_le] at h1
      have hlt := lineInt_lt line
      unfold int32 at h2
      refine ⟨line, lineInt line, rest, anyLine_lineInt hlf.2 h1.2, by omega, by omega, ?_⟩
      rw [hs, h1.1]
  . intro h
    rcases h with ⟨line, length, rest, hline, hlong, hrest, hs⟩
    have hlf : lf ∉ dollar :: line := by
      simp only [List.mem_cons, not_or]
      exact ⟨by decide, hline.1⟩
    have hlt := lineInt_lt line
    rw [hline.lineInt_eq] at hlt
    have hwraps : ¬ (rest.length : Int) < int32 (length + 2) := by
      unfold int32
      omega
    unfold scanBlock
    rw [hs, splitLf_append_cons hlf]
    dsimp only
    rw [hline.lineInt_eq, if_neg (by simp; omega), if_neg hwraps, if_pos (by omega)]

theorem scanArguments_eq_fault {left : Nat} {saved : Arguments} {last : Int} {s : ByteString}
    : scanArguments left saved last s = .fault
        ↔
      ∃ (blocks : List Block) (rest : ByteString), blocks.length < left
        ∧ (∀ b ∈ blocks, b.Matches AnyLine) ∧ scanBlock rest = .fault
        ∧ s = blocks.flatMap Block.bytes ++ rest := by
  induction left generalizing saved last s with
  | zero => simp [scanArguments]
  | succ left ih =>
    constructor
    . intro h
      unfold scanArguments at h
      split at h
      . contradiction
      . contradiction
      . contradiction
      . next hfault => exact ⟨[], s, by simp, by simp, hfault, by simp⟩
      . next data next hblock =>
        rcases exists_block hblock with ⟨b, hb, -, hs⟩
        rcases ih.mp h with ⟨blocks, rest, hlength, hblocks, hfault, hnext⟩
        refine ⟨b :: blocks, rest, by simpa using hlength, ?_, hfault, by simp [hs, hnext]⟩
        rw [List.forall_mem_cons]
        exact ⟨hb, hblocks⟩
    . intro h
      rcases h with ⟨blocks, rest, hlength, hblocks, hfault, hs⟩
      unfold scanArguments
      cases blocks with
      | nil => rw [hs, List.flatMap_nil, List.nil_append, hfault]
      | cons b blocks =>
        rw [List.forall_mem_cons] at hblocks
        rw [hs, List.flatMap_cons, List.append_assoc, scanBlock_of_matches hblocks.1]
        apply ih.mpr
        exact ⟨blocks, rest, by simpa using hlength, hblocks.2, hfault, rfl⟩

/--
The request goes on with the length of an argument that is so large that `length + 2` wraps around,
and there are not enough bytes behind it.
-/
def Overlong (s : ByteString) : Prop :=
  ∃ (f : Frame) (number : Int) (line : ByteString) (length : Int) (rest : ByteString),
    AnyLine f.line number ∧ f.blocks.length < number ∧ (∀ b ∈ f.blocks, b.Matches AnyLine)
      ∧ AnyLine line length ∧ 2 ^ 31 - 2 ≤ length ∧ rest.length ≤ length
      ∧ s = f.bytes ++ (dollar :: line ++ lf :: rest)

theorem overlong_iff_fault {s : ByteString}
    : Overlong (star :: s) ↔ ∃ number, scanRequest (star :: s) = .body number .fault := by
  constructor
  . intro h
    rcases h with ⟨f, number, line, length, rest, hf, hnumber, hblocks, hline, hlong, hrest, hs⟩
    have hfault : scanBlock (dollar :: line ++ lf :: rest) = .fault :=
      scanBlock_eq_fault.mpr ⟨line, length, rest, hline, hlong, hrest, rfl⟩
    refine ⟨number, scanRequest_eq_body.mpr ⟨f.line,
      f.blocks.flatMap Block.bytes ++ (dollar :: line ++ lf :: rest), hf, by omega, ?_, ?_⟩⟩
    . rw [hs]
      simp [Frame.bytes]
    . apply scanArguments_eq_fault.mpr
      exact ⟨f.blocks, _, by omega, hblocks, hfault, rfl⟩
  . intro h
    rcases h with ⟨number, hscan⟩
    rcases scanRequest_eq_body.mp hscan with ⟨header, next, hheader, hpos, hs, hscan⟩
    rcases scanArguments_eq_fault.mp hscan with ⟨blocks, last, hlength, hblocks, hfault, hnext⟩
    rcases scanBlock_eq_fault.mp hfault with ⟨line, length, rest, hline, hlong, hrest, hlast⟩
    refine ⟨⟨header, blocks⟩, number, line, length, rest, hheader, ?_, hblocks, hline, hlong, hrest,
      ?_⟩
    . simp only
      omega
    . rw [hs, hnext, hlast]
      simp [Frame.bytes]

theorem bulk_in_range {h : CommandHandler} (hreachable : Reachable h) (x : ByteString)
    : ((h.commandString ++ x).head? = some star → ∃ fed, h.feedAndParseCommand x = .ok fed)
        ↔
      ¬ Overlong (h.commandString ++ x) := by
  rw [hreachable.holds.feed]
  generalize h.commandString ++ x = s
  by_cases hstar : s.head? = some star
  . rcases List.head?_eq_some_iff.mp hstar with ⟨s, rfl⟩
    rw [feedAndParseCommand_star, overlong_iff_fault]
    cases hscan : scanRequest (star :: s) with
    | headerPending => simp [RequestScan.toFed]
    | rejected => simp [RequestScan.toFed]
    | body number scan =>
      cases scan with
      | fault => simp [RequestScan.toFed]
      | rejected => simp [RequestScan.toFed]
      | stopped left arguments last rest => simp [RequestScan.toFed]
  . apply iff_of_true
    . intro h
      contradiction
    . intro h
      rcases h with ⟨f, number, line, length, rest, -, -, -, -, -, -, rfl⟩
      apply hstar
      rfl

theorem bulk_in_range_ping
    : ¬ Overlong ((headerPending (literal "*1")).commandString ++ literal "\r\n$4\r\nPING\r\n") := by
  apply (bulk_in_range _ _).mp
  . intro _
    have hfeed : (headerPending (literal "*1")).feedAndParseCommand (literal "\r\n$4\r\nPING\r\n")
        = .ok { handler := fresh, needMore := false, executed := [[literal "PING"]] } := by
      decide +kernel
    exact ⟨_, hfeed⟩
  . exact ⟨[literal "*1"], by decide, by decide +kernel⟩

theorem bulk_in_range_int_max
    : ¬ ∀ (h : CommandHandler) (x : ByteString), Reachable h → x ≠ []
        → (h.commandString ++ x).head? = some star → ∃ fed, h.feedAndParseCommand x = .ok fed := by
  intro h
  have hfault : fresh.feedAndParseCommand (literal "*1\r\n$2147483647\r\n")
      = .error .outOfRange := by
    decide +kernel
  rcases h fresh (literal "*1\r\n$2147483647\r\n") ⟨[], by simp, rfl⟩ (by decide) (by decide)
    with ⟨fed, hfed⟩
  rw [hfault] at hfed
  contradiction

end Bulk

section Inline

theorem Holds.eq_fresh {s : ByteString} {h : CommandHandler} (hholds : Holds s h)
    (htype : h.type ≠ .multiBulk)
    : s = [] ∧ h = fresh := by
  cases hholds with
  | idle => exact ⟨rfl, rfl⟩
  | pending hpending =>
    cases hpending with
    | header hscan => contradiction
    | arguments hscan => contradiction

/--
`split` is called with a range of the buffer, and it returns. The end of the range is the position
of the LF or the one in front of it.
-/
def Splits (s : ByteString) : Prop :=
  ∀ lfPtr, memchr s lf 0 s.length = .ok (some lfPtr)
    → ∃ last, deref s ((lfPtr : Int) - 1) = .ok last
      ∧ 0 ≤ (lfPtr : Int) - (if last = cr then 1 else 0)
      ∧ ∃ arguments, split s 0 (if last = cr then lfPtr - 1 else lfPtr) space [] = .ok arguments

theorem splits_of_ne_lf {s : ByteString} (h : s.head? ≠ some lf) : Splits s := by
  intro lfPtr hlf
  by_cases hmem : lf ∈ s
  . rcases List.eq_append_cons_of_mem hmem with ⟨t, rest, rfl, ht⟩
    have hmemchr := memchr_append_cons [] ht rest
    simp only [List.nil_append, List.length_nil, Nat.zero_add] at hmemchr
    rw [hlf] at hmemchr
    injection hmemchr with hmemchr
    injection hmemchr with hlfPtr
    subst hlfPtr
    have hne : t ≠ [] := by
      intro hnil
      simp [hnil] at h
    have hpos : 0 < t.length := List.length_pos_iff.mpr hne
    rcases bind_eq_ok.mp (split_trimCr t rest hne) with ⟨last, hlast, hsplit⟩
    refine ⟨last, hlast, ?_, _, hsplit⟩
    split
    . omega
    . omega
  . have hmemchr := memchr_not_mem [] hmem
    simp only [List.nil_append, List.length_nil] at hmemchr
    rw [hmemchr] at hlf
    injection hlf with hlf
    contradiction

theorem inline_in_range {h : CommandHandler} (hreachable : Reachable h)
    (htype : h.type ≠ .multiBulk) {x : ByteString} (hstar : x.head? ≠ some star)
    : (∃ fed, h.feedAndParseCommand x = .ok fed) ∧ Splits (h.commandString ++ x)
        ↔
      x.head? ≠ some lf := by
  rcases hreachable.holds.eq_fresh htype with ⟨hnil, rfl⟩
  rw [hnil, List.nil_append]
  constructor
  . intro hreads heq
    rcases hreads with ⟨⟨fed, hfeed⟩, -⟩
    rcases List.head?_eq_some_iff.mp heq with ⟨rest, rfl⟩
    rw [feedAndParseCommand_lf] at hfeed
    contradiction
  . intro hlf
    refine ⟨?_, splits_of_ne_lf hlf⟩
    by_cases hmem : lf ∈ x
    . rcases List.eq_append_cons_of_mem hmem with ⟨t, rest, rfl, ht⟩
      have hne : t ≠ [] := by
        intro hnil
        simp [hnil] at hlf
      rw [List.head?_append_of_ne_nil _ hne] at hstar
      rw [feedAndParseCommand_line ht hne hstar]
      split
      . exact ⟨_, rfl⟩
      . exact ⟨_, rfl⟩
    . exact ⟨_, feedAndParseCommand_no_lf hmem hstar⟩

theorem inline_in_range_ping
    : (∃ fed, fresh.feedAndParseCommand (literal "PING\r\n") = .ok fed)
        ∧ Splits (literal "PING\r\n") := by
  have hreachable : Reachable fresh := ⟨[], by simp, rfl⟩
  apply (inline_in_range hreachable (by decide) (by decide)).mpr
  decide

theorem inline_in_range_lf
    : ¬ ∀ (h : CommandHandler) (x : ByteString), Reachable h → h.type ≠ .multiBulk → x ≠ []
        → x.head? ≠ some star
        → (∃ fed, h.feedAndParseCommand x = .ok fed) ∧ Splits (h.commandString ++ x) := by
  intro h
  rcases h fresh (literal "\n") ⟨[], by simp, rfl⟩ (by decide) (by decide) (by decide)
    with ⟨⟨fed, hfeed⟩, -⟩
  rw [show fresh.feedAndParseCommand (literal "\n") = .error .outOfRange by decide +kernel] at hfeed
  contradiction

end Inline

end CommandHandler
