import Boostcache.Kernel.CommandHandler.Run

/-!
The grammar of multi-bulk requests, once with the header lines that the protocol has and once with
those that the `CommandHandler` takes. The latter is exactly what it accepts.
-/

open Cpp Resp

namespace CommandHandler

-- What follows the first byte of a header line up to its LF, and the number it stands for.
abbrev HeaderLine := ByteString → Int → Prop

def IsNumeral (text : ByteString) : Prop :=
  text ≠ [] ∧ ∀ c ∈ text, isDigit c = true

-- Decimal digits and a CR, read as a 32 bit `int`.
def NumeralLine : HeaderLine :=
  fun line n => ∃ digits, IsNumeral digits ∧ line = digits ++ [cr] ∧ numeral digits = n

-- Any bytes and a CR, read up to the first CR with every byte taken for a digit.
def AnyLine : HeaderLine :=
  fun line n => lf ∉ line ∧ line.getLast? = some cr ∧ numeral (line.takeWhile (· != cr)) = n

structure Block where
  line : ByteString
  data : ByteString

structure Frame where
  line : ByteString
  blocks : List Block

def Block.bytes (b : Block) : ByteString :=
  dollar :: b.line ++ lf :: (b.data ++ [cr, lf])

def Frame.bytes (f : Frame) : ByteString :=
  star :: f.line ++ lf :: f.blocks.flatMap Block.bytes

def Frame.arguments (f : Frame) : Arguments :=
  f.blocks.map Block.data

structure Block.Matches (Line : HeaderLine) (b : Block) : Prop where
  line : Line b.line b.data.length
  data : b.data ≠ []

structure Frame.Matches (Line : HeaderLine) (f : Frame) : Prop where
  line : Line f.line f.blocks.length
  ne_nil : f.blocks ≠ []
  blocks : ∀ b ∈ f.blocks, b.Matches Line

theorem AnyLine.lineInt_eq {line : ByteString} {n : Int} (h : AnyLine line n)
    : lineInt line = n := by
  rcases h with ⟨-, hcr, hn⟩
  unfold lineInt
  rw [if_pos hcr, hn]

theorem anyLine_lineInt {line : ByteString} (hlf : lf ∉ line) (hpos : 0 < lineInt line)
    : AnyLine line (lineInt line) := by
  unfold lineInt at hpos ⊢
  split at hpos
  . next hcr =>
    rw [if_pos hcr]
    exact ⟨hlf, hcr, rfl⟩
  . contradiction

theorem NumeralLine.anyLine {line : ByteString} {n : Int} (h : NumeralLine line n)
    : AnyLine line n := by
  rcases h with ⟨digits, ⟨-, hdigits⟩, rfl, hn⟩
  have hcr : cr ∉ digits := not_mem_of_isDigit hdigits (by decide)
  have hlf : lf ∉ digits := not_mem_of_isDigit hdigits (by decide)
  refine ⟨?_, List.getLast?_concat, ?_⟩
  . rw [List.mem_append, not_or]
    exact ⟨hlf, by decide⟩
  . rw [takeWhile_append_cons hcr]
    assumption

theorem Frame.Matches.anyLine {f : Frame} (h : f.Matches NumeralLine) : f.Matches AnyLine where
  line := h.line.anyLine
  ne_nil := h.ne_nil
  blocks := by
    intro b hb
    exact ⟨(h.blocks b hb).line.anyLine, (h.blocks b hb).data⟩

theorem scanBlock_of_matches {b : Block} (h : b.Matches AnyLine) (rest : ByteString)
    : scanBlock (b.bytes ++ rest) = .argument b.data rest := by
  apply scanBlock_eq_argument.mpr
  refine ⟨b.line, h.line.1, h.line.lineInt_eq, h.data, ?_⟩
  simp [Block.bytes]

theorem exists_block {s data rest : ByteString} (h : scanBlock s = .argument data rest)
    : ∃ b : Block, b.Matches AnyLine ∧ b.data = data ∧ s = b.bytes ++ rest := by
  rcases scanBlock_eq_argument.mp h with ⟨line, hlf, hlength, hdata, hs⟩
  have hpos : 0 < data.length := List.length_pos_iff.mpr hdata
  have hline := anyLine_lineInt hlf (by omega)
  rw [hlength] at hline
  refine ⟨⟨line, data⟩, ⟨hline, hdata⟩, rfl, ?_⟩
  rw [hs]
  simp [Block.bytes]

theorem scanArguments_of_matches {blocks : List Block} (h : ∀ b ∈ blocks, b.Matches AnyLine)
    (saved : Arguments) (last : Int) (rest : ByteString)
    : ∃ last',
      scanArguments blocks.length saved last (blocks.flatMap Block.bytes ++ rest)
        =
      .stopped 0 (saved ++ blocks.map Block.data) last' rest := by
  induction blocks generalizing saved last with
  | nil => exact ⟨last, by simp [scanArguments]⟩
  | cons b blocks ih =>
    rcases ih (fun b' hb' => h b' (List.mem_cons_of_mem b hb')) (saved ++ [b.data]) (-1)
      with ⟨last', hscan⟩
    refine ⟨last', ?_⟩
    rw [List.length_cons, scanArguments, List.flatMap_cons, List.append_assoc,
      scanBlock_of_matches (h b (by simp))]
    dsimp only
    rw [hscan]
    simp

theorem exists_blocks {left left' : Nat} {saved arguments : Arguments} {last last' : Int}
    {s rest : ByteString}
    (h : scanArguments left saved last s = .stopped left' arguments last' rest)
    : ∃ blocks : List Block, blocks.length + left' = left ∧ (∀ b ∈ blocks, b.Matches AnyLine)
        ∧ arguments = saved ++ blocks.map Block.data
        ∧ s = blocks.flatMap Block.bytes ++ rest := by
  have hnil {left : Nat} {saved : Arguments} {last : Int} {s : ByteString}
      (h : Scan.stopped left saved last s = .stopped left' arguments last' rest)
      : ∃ blocks : List Block, blocks.length + left' = left ∧ (∀ b ∈ blocks, b.Matches AnyLine)
        ∧ arguments = saved ++ blocks.map Block.data
        ∧ s = blocks.flatMap Block.bytes ++ rest := by
    injection h with hleft harguments _ hs
    exact ⟨[], by simp [hleft], by simp, by simp [harguments], by simp [hs]⟩
  induction left generalizing saved last s with
  | zero => apply hnil h
  | succ left ih =>
    unfold scanArguments at h
    split at h
    . apply hnil h
    . apply hnil h
    . contradiction
    . contradiction
    . next data next hblock =>
      rcases exists_block hblock with ⟨b, hb, rfl, hs⟩
      rcases ih h with ⟨blocks, hlength, hblocks, harguments, hnext⟩
      refine ⟨b :: blocks, ?_, ?_, ?_, ?_⟩
      . rw [List.length_cons]
        omega
      . intro b' hb'
        rcases List.mem_cons.mp hb' with rfl | hb'
        . assumption
        . apply hblocks b' hb'
      . simp [harguments]
      . simp [hs, hnext]

theorem scanRequest_eq_body {s : ByteString} {number : Int} {scan : Scan}
    : scanRequest (star :: s) = .body number scan
        ↔
      ∃ line rest, AnyLine line number ∧ 0 < number ∧ star :: s = star :: line ++ lf :: rest
        ∧ scanArguments number.toNat [] (-1) rest = scan := by
  constructor
  . intro h
    unfold scanRequest at h
    split at h
    . contradiction
    . next line rest hsplit =>
      rcases splitLf_eq_some hsplit with ⟨hs, hlf⟩
      dsimp only at h
      split_ifs at h with hnumber
      injection h with hnumber' hscan
      cases line with
      | nil =>
        injection hs with hstar
        contradiction
      | cons c line =>
        rw [List.cons_append] at hs
        injection hs with hstar hs
        simp only [List.mem_cons, not_or] at hlf
        rw [List.tail_cons] at hnumber hnumber' hscan
        rw [← hnumber']
        refine ⟨line, rest, anyLine_lineInt hlf.2 (by omega), by omega, ?_, hscan⟩
        rw [hs, List.cons_append]
  . intro h
    rcases h with ⟨line, rest, hline, hpos, hs, hscan⟩
    have hlf : lf ∉ star :: line := by
      simp only [List.mem_cons, not_or]
      exact ⟨by decide, hline.1⟩
    unfold scanRequest
    rw [hs, splitLf_append_cons hlf]
    dsimp only
    rw [List.tail_cons, hline.lineInt_eq, if_neg (by omega), hscan]

theorem scanRequest_of_matches {f : Frame} (h : f.Matches AnyLine) (rest : ByteString)
    : ∃ last,
      scanRequest (f.bytes ++ rest) = .body f.blocks.length (.stopped 0 f.arguments last rest) := by
  rcases scanArguments_of_matches h.blocks [] (-1) rest with ⟨last, hscan⟩
  refine ⟨last, ?_⟩
  have hbytes : f.bytes ++ rest
      = star :: (f.line ++ lf :: (f.blocks.flatMap Block.bytes ++ rest)) := by
    simp [Frame.bytes]
  have hpos : 0 < f.blocks.length := List.length_pos_iff.mpr h.ne_nil
  rw [hbytes, scanRequest_eq_body]
  refine ⟨f.line, _, h.line, by omega, rfl, ?_⟩
  rw [Int.toNat_natCast, hscan]
  rfl

theorem exists_frame {s rest : ByteString} {number last : Int} {arguments : Arguments}
    (h : scanRequest (star :: s) = .body number (.stopped 0 arguments last rest))
    : ∃ f : Frame, f.Matches AnyLine ∧ f.arguments = arguments ∧ star :: s = f.bytes ++ rest := by
  rcases scanRequest_eq_body.mp h with ⟨line, next, hline, hpos, hs, hscan⟩
  rcases exists_blocks hscan with ⟨blocks, hlength, hblocks, harguments, hnext⟩
  have hnumber : number = blocks.length := by omega
  have hblocks' : 0 < blocks.length := by omega
  refine ⟨⟨line, blocks⟩, ⟨?_, List.length_pos_iff.mp hblocks', hblocks⟩, ?_, ?_⟩
  . rwa [hnumber] at hline
  . simp [Frame.arguments, harguments]
  . rw [hs, hnext]
    simp [Frame.bytes]

theorem executed_iff_anyLine {s : ByteString} {arguments : Arguments}
    : executed (feedAll fresh [star :: s]) = [arguments]
        ↔
      ∃ f : Frame, f.Matches AnyLine ∧ f.bytes <+: star :: s ∧ f.arguments = arguments := by
  rw [executed_star_eq_singleton]
  constructor
  . intro h
    rcases h with ⟨number, last, rest, hscan⟩
    rcases exists_frame hscan with ⟨f, hf, harguments, hs⟩
    exact ⟨f, hf, ⟨rest, hs.symm⟩, harguments⟩
  . intro h
    rcases h with ⟨f, hf, ⟨rest, hrest⟩, rfl⟩
    rcases scanRequest_of_matches hf rest with ⟨last, hscan⟩
    rw [hrest] at hscan
    exact ⟨_, _, _, hscan⟩

theorem line_unique {c : UInt8} (hc : c ≠ lf) {line line' rest rest' : ByteString}
    (hline : lf ∉ line) (hline' : lf ∉ line')
    (h : c :: line ++ lf :: rest = c :: line' ++ lf :: rest')
    : line = line' ∧ rest = rest' := by
  have hmem {l : ByteString} (hl : lf ∉ l) : lf ∉ c :: l := by
    simp only [List.mem_cons, not_or]
    exact ⟨Ne.symm hc, hl⟩
  have hsplit := splitLf_append_cons (hmem hline) rest
  rw [h, splitLf_append_cons (hmem hline')] at hsplit
  simp only [Option.some.injEq, Prod.mk.injEq, List.cons.injEq, true_and] at hsplit
  exact ⟨hsplit.1.symm, hsplit.2.symm⟩

theorem blocks_unique {blocks blocks' : List Block} (hlength : blocks.length = blocks'.length)
    (h : ∀ b ∈ blocks, b.Matches AnyLine) (h' : ∀ b ∈ blocks', b.Matches AnyLine)
    {rest rest' : ByteString}
    (heq : blocks.flatMap Block.bytes ++ rest = blocks'.flatMap Block.bytes ++ rest')
    : blocks = blocks' := by
  induction blocks generalizing blocks' with
  | nil => rw [List.length_eq_zero_iff.mp hlength.symm]
  | cons b blocks ih =>
    cases blocks' with
    | nil => contradiction
    | cons b' blocks' =>
      have hb := h b (by simp)
      have hb' := h' b' (by simp)
      simp only [List.flatMap_cons, List.append_assoc] at heq
      have hscan := scanBlock_of_matches hb (blocks.flatMap Block.bytes ++ rest)
      rw [heq, scanBlock_of_matches hb'] at hscan
      injection hscan with hdata hrest
      have hline : b.line = b'.line := by
        simp only [Block.bytes, List.append_assoc, List.cons_append] at heq
        exact (line_unique (by decide) hb.line.1 hb'.line.1 heq).1
      have hblock : b = b' := by
        cases b
        cases b'
        simp only [Block.mk.injEq]
        exact ⟨hline, hdata.symm⟩
      rw [hblock, ih (by simpa using hlength) (fun x hx => h x (List.mem_cons_of_mem _ hx))
        (fun x hx => h' x (List.mem_cons_of_mem _ hx)) hrest.symm]

theorem frame_unique {f f' : Frame} (h : f.Matches AnyLine) (h' : f'.Matches AnyLine)
    {s : ByteString} (hs : f.bytes <+: s) (hs' : f'.bytes <+: s)
    : f = f' := by
  rcases hs with ⟨rest, hrest⟩
  rcases hs' with ⟨rest', hrest'⟩
  rw [← hrest'] at hrest
  simp only [Frame.bytes, List.append_assoc, List.cons_append] at hrest
  rcases line_unique (by decide) h.line.1 h'.line.1 hrest with ⟨hline, hblocks⟩
  have hlength : f.blocks.length = f'.blocks.length := by
    have h1 := h.line.lineInt_eq
    have h2 := h'.line.lineInt_eq
    rw [hline] at h1
    omega
  cases f
  cases f'
  simp only [Frame.mk.injEq]
  exact ⟨hline, blocks_unique hlength h.blocks h'.blocks hblocks⟩

-- The bytes are accepted as the protocol says unless they begin with a frame that has anything else
-- than a numeral in one of its header lines.
theorem executed_iff_numeralLine (s : ByteString)
    : ((∀ arguments : Arguments, executed (feedAll fresh [star :: s]) = [arguments]
          ↔ ∃ f : Frame, f.Matches NumeralLine ∧ f.bytes <+: star :: s ∧ f.arguments = arguments)
        ∧
        ((∀ f : Frame, f.Matches NumeralLine → ¬ f.bytes <+: star :: s)
          → executed (feedAll fresh [star :: s]) = []))
        ↔
      ∀ f : Frame, f.Matches AnyLine → f.bytes <+: star :: s → f.Matches NumeralLine := by
  constructor
  . intro h f hf hpref
    have hexecuted := executed_iff_anyLine.mpr ⟨f, hf, hpref, rfl⟩
    rcases (h.1 f.arguments).mp hexecuted with ⟨f', hf', hpref', -⟩
    rw [frame_unique hf hf'.anyLine hpref hpref']
    assumption
  . intro h
    have hiff (arguments : Arguments) : executed (feedAll fresh [star :: s]) = [arguments]
        ↔ ∃ f : Frame, f.Matches NumeralLine ∧ f.bytes <+: star :: s ∧ f.arguments = arguments := by
      rw [executed_iff_anyLine]
      constructor
      . intro hany
        rcases hany with ⟨f, hf, hpref, harguments⟩
        exact ⟨f, h f hf hpref, hpref, harguments⟩
      . intro hnumeral
        rcases hnumeral with ⟨f, hf, hpref, harguments⟩
        exact ⟨f, hf.anyLine, hpref, harguments⟩
    refine ⟨hiff, ?_⟩
    intro hnone
    have hle := length_executed_le fresh [star :: s]
    match hexecuted : executed (feedAll fresh [star :: s]), hle with
    | [], _ => rfl
    | [arguments], _ =>
      rcases (hiff arguments).mp hexecuted with ⟨f, hf, hpref, -⟩
      exact absurd hpref (hnone f hf)

theorem executed_iff_numeralLine_ping
    : ¬ ∀ (s : ByteString) (arguments : Arguments),
        executed (feedAll fresh [star :: s]) = [arguments]
          ↔ ∃ f : Frame, f.Matches NumeralLine ∧ f.bytes <+: star :: s ∧ f.arguments = arguments := by
  intro h
  let f : Frame := ⟨literal "1\rPING\r", [⟨literal "4\r", literal "PING"⟩]⟩
  have hf : f.Matches AnyLine :=
    ⟨⟨by decide, by decide, by decide⟩, by decide, by
      intro b hb
      rw [List.mem_singleton.mp hb]
      exact ⟨⟨by decide, by decide, by decide⟩, by decide⟩⟩
  have hpref : f.bytes <+: literal "*1\rPING\r\n$4\r\nPING\r\n" := by decide
  have hexecuted := (h (literal "1\rPING\r\n$4\r\nPING\r\n") [literal "PING"]).mp (by decide +kernel)
  rcases hexecuted with ⟨f', hf', hpref', -⟩
  have heq := frame_unique hf'.anyLine hf hpref' hpref
  rw [heq] at hf'
  rcases hf'.line with ⟨digits, ⟨-, hdigits⟩, hline, -⟩
  have hcr : cr ∈ digits := by
    have : digits = literal "1\rPING" := by
      apply List.append_cancel_right hline.symm
    rw [this]
    decide
  exact absurd (hdigits cr hcr) (by decide)

end CommandHandler
