import Boostcache.Cpp.Memory
import Mathlib.Data.List.DropRight

/-!
This module contains what `Util::Options` of `util/options.{h,cpp}` does to a config file before it
is parsed: lines are read into a buffer of `PATH_MAX` bytes and quotes round a value are stripped.
-/

open Cpp

namespace Util.Options

def pathMax : Nat := 4096

-- `std::istream`, as far as `getline` and the condition of the loop look at it.
structure IStream where
  rest : ByteString
  eof : Bool
  fail : Bool
  deriving DecidableEq, Repr

def IStream.ofString (text : ByteString) : IStream :=
  { rest := text, eof := false, fail := false }

-- At most `n - 1` bytes are stored. A stream that is at its end before it has stored anything, or
-- that is not at the end of the line then, has failed.
def IStream.getline (s : IStream) (n : Nat) : ByteString × IStream :=
  if s.eof ∨ s.fail then
    ([], { s with fail := true })
  else
    let line := (s.rest.takeWhile (· != lf)).take (n - 1)
    match s.rest.drop line.length with
    | [] => (line, { rest := [], eof := true, fail := line.isEmpty })
    | c :: rest =>
      if c = lf then
        (line, { rest := rest, eof := false, fail := false })
      else
        (line, { rest := c :: rest, eof := false, fail := true })

abbrev apostrophe : UInt8 := 39
abbrev quote : UInt8 := 34

-- `replace_first` twice and `trim_right_if`, on what is in front of the first NUL.
def unquote (line : ByteString) : ByteString :=
  (((cStr line).erase apostrophe).erase quote).rdropWhile (fun c => c == apostrophe || c == quote)

def IStream.rounds (s : IStream) : Nat :=
  if s.fail then 0 else if s.eof then 1 else s.rest.length + 2

theorem IStream.rounds_getline {s : IStream} (h : s.fail = false) (n : Nat)
    : (s.getline n).2.rounds < s.rounds := by
  unfold getline rounds
  by_cases heof : s.eof
  . simp [heof, h]
  . simp only [heof, h, Bool.false_eq_true, or_self, ↓reduceIte]
    split
    . simp only [↓reduceIte]
      split
      . omega
      . omega
    . next c rest hdrop =>
      have hlength := congrArg List.length hdrop
      rw [List.length_drop, List.length_cons] at hlength
      split
      . simp only [Bool.false_eq_true, ↓reduceIte]
        omega
      . simp

def parseConfigFile.loop (fileStream : IStream) : List ByteString :=
  if _ : fileStream.fail = true then
    []
  else
    unquote (fileStream.getline pathMax).1 :: loop (fileStream.getline pathMax).2
termination_by fileStream.rounds
decreasing_by
  apply IStream.rounds_getline
  apply Bool.eq_false_iff.mpr
  assumption

def parseConfigFile (text : ByteString) : ByteString :=
  (parseConfigFile.loop (.ofString text)).flatMap (· ++ [lf])

-- The lines of a text, and what is behind the last LF if there is anything.
def lines (text : ByteString) : List ByteString :=
  if _ : text = [] then
    []
  else
    text.takeWhile (· != lf) :: lines ((text.dropWhile (· != lf)).drop 1)
termination_by text.length
decreasing_by
  have hpos : 0 < text.length := List.length_pos_iff.mpr (by assumption)
  have hle : (text.dropWhile (· != lf)).length ≤ text.length := (List.dropWhile_sublist _).length_le
  rw [List.length_drop]
  omega

theorem bne_of_not_mem {c : UInt8} {s : ByteString} (h : c ∉ s) : ∀ d ∈ s, (d != c) = true := by
  intro d hd
  apply bne_iff_ne.mpr
  intro heq
  rw [heq] at hd
  contradiction

section Loop

variable {text : ByteString}

theorem getline_nil (n : Nat)
    : (IStream.ofString []).getline n = ([], { rest := [], eof := true, fail := true }) := by
  simp [IStream.getline, IStream.ofString]

theorem takeWhile_line {line : ByteString} (hlf : lf ∉ line) (rest : ByteString)
    : (line ++ lf :: rest).takeWhile (· != lf) = line := by
  rw [List.takeWhile_append_of_pos (bne_of_not_mem hlf)]
  simp

theorem takeWhile_last {line : ByteString} (hlf : lf ∉ line)
    : line.takeWhile (· != lf) = line := by
  rw [List.takeWhile_eq_self_iff]
  apply bne_of_not_mem hlf

theorem getline_line {line rest : ByteString} (hlf : lf ∉ line) {n : Nat} (hn : line.length < n)
    : (IStream.ofString (line ++ lf :: rest)).getline n = (line, .ofString rest) := by
  unfold IStream.getline IStream.ofString
  simp only [takeWhile_line hlf, List.take_of_length_le (show line.length ≤ n - 1 by omega)]
  simp

theorem getline_last {line : ByteString} (hlf : lf ∉ line) (hne : line ≠ []) {n : Nat}
    (hn : line.length < n)
    : (IStream.ofString line).getline n = (line, { rest := [], eof := true, fail := false }) := by
  unfold IStream.getline IStream.ofString
  simp only [takeWhile_last hlf, List.take_of_length_le (show line.length ≤ n - 1 by omega)]
  simp [hne]

theorem getline_long {line : ByteString} (hlf : lf ∉ line) {n : Nat} (hpos : 0 < n)
    (hn : n ≤ line.length) (rest : ByteString)
    (hline : (line ++ rest).takeWhile (· != lf) = line)
    : ∃ s, (IStream.ofString (line ++ rest)).getline n = (line.take (n - 1), s) ∧ s.fail = true := by
  have hlength : (line.take (n - 1)).length = n - 1 := by
    rw [List.length_take]
    omega
  have hne : line.drop (n - 1) ≠ [] := by
    rw [List.ne_nil_iff_length_pos, List.length_drop]
    omega
  rcases List.exists_cons_of_ne_nil hne with ⟨c, more, hdrop⟩
  have hc : c ≠ lf := by
    intro heq
    apply hlf
    rw [← heq]
    apply List.mem_of_mem_drop (i := n - 1)
    rw [hdrop]
    apply List.mem_cons_self
  unfold IStream.getline IStream.ofString
  simp only [hline, hlength, List.drop_append_of_le_length (show n - 1 ≤ line.length by omega), hdrop]
  simp [hc]

theorem loop_of_fail {s : IStream} (h : s.fail = true) : parseConfigFile.loop s = [] := by
  rw [parseConfigFile.loop, dif_pos h]

theorem loop_of_getline {s s' : IStream} {line : ByteString} (h : s.fail = false)
    (hgetline : s.getline pathMax = (line, s'))
    : parseConfigFile.loop s = unquote line :: parseConfigFile.loop s' := by
  rw [parseConfigFile.loop, dif_neg (by simp [h]), hgetline]

-- The stream has not failed at the end of a line without LF, so there is another round.
theorem loop_of_eof : parseConfigFile.loop { rest := [], eof := true, fail := false } = [[]] := by
  have hgetline : IStream.getline { rest := [], eof := true, fail := false } pathMax
      = ([], { rest := [], eof := true, fail := true }) := by
    rfl
  rw [loop_of_getline rfl hgetline, loop_of_fail rfl]
  rfl

theorem lines_append_cons {line : ByteString} (hlf : lf ∉ line) (rest : ByteString)
    : lines (line ++ lf :: rest) = line :: lines rest := by
  have hdrop : (line ++ lf :: rest).dropWhile (· != lf) = lf :: rest := by
    have happend := List.takeWhile_append_dropWhile (p := (· != lf)) (l := line ++ lf :: rest)
    rw [takeWhile_line hlf] at happend
    exact List.append_cancel_left happend
  rw [lines, dif_neg (by simp), takeWhile_line hlf, hdrop]
  rfl

theorem lines_of_not_mem (hlf : lf ∉ text) (hne : text ≠ []) : lines text = [text] := by
  rw [lines, dif_neg hne, takeWhile_last hlf, List.dropWhile_eq_nil_iff.mpr (bne_of_not_mem hlf),
    List.drop_nil, lines, dif_pos rfl]

theorem loop_lines (text : ByteString)
    : ((∀ line ∈ lines text, line.length < pathMax)
        ∧ parseConfigFile.loop (.ofString text) = (lines text).map unquote ++ [[]])
      ∨
      ∃ before line after, lines text = before ++ line :: after
        ∧ (∀ l ∈ before, l.length < pathMax) ∧ pathMax ≤ line.length
        ∧ parseConfigFile.loop (.ofString text)
          = before.map unquote ++ [unquote (line.take (pathMax - 1))] := by
  have hfail {text : ByteString} : (IStream.ofString text).fail = false := rfl
  have hpos : 0 < pathMax := by decide
  induction hlength : text.length using Nat.strong_induction_on generalizing text with
  | _ n ih =>
    by_cases hne : text = []
    . apply Or.inl
      rw [hne, loop_of_getline hfail (getline_nil pathMax), loop_of_fail rfl, lines, dif_pos rfl]
      exact ⟨by simp, rfl⟩
    . by_cases hlf : lf ∈ text
      . rcases List.eq_append_cons_of_mem hlf with ⟨line, rest, rfl, hline⟩
        rw [lines_append_cons hline]
        by_cases hshort : line.length < pathMax
        . rw [loop_of_getline hfail (getline_line hline hshort)]
          rw [List.length_append, List.length_cons] at hlength
          rcases ih rest.length (by omega) rest rfl
            with ⟨hall, hloop⟩ | ⟨before, long, after, hsplit, hbefore, hlong, hloop⟩
          . apply Or.inl
            rw [hloop]
            exact ⟨List.forall_mem_cons.mpr ⟨hshort, hall⟩, rfl⟩
          . apply Or.inr
            rw [hloop, hsplit]
            exact ⟨line :: before, long, after, rfl, List.forall_mem_cons.mpr ⟨hshort, hbefore⟩, hlong,
              rfl⟩
        . apply Or.inr
          rcases getline_long hline hpos (Nat.not_lt.mp hshort) (lf :: rest) (takeWhile_line hline rest)
            with ⟨s, hgetline, hs⟩
          rw [loop_of_getline hfail hgetline, loop_of_fail hs]
          exact ⟨[], line, lines rest, rfl, by simp, Nat.not_lt.mp hshort, rfl⟩
      . rw [lines_of_not_mem hlf hne]
        by_cases hshort : text.length < pathMax
        . apply Or.inl
          rw [loop_of_getline hfail (getline_last hlf hne hshort), loop_of_eof]
          exact ⟨by simpa using hshort, rfl⟩
        . apply Or.inr
          have hline : (text ++ []).takeWhile (· != lf) = text := by
            rw [List.append_nil, takeWhile_last hlf]
          rcases getline_long hlf hpos (Nat.not_lt.mp hshort) [] hline with ⟨s, hgetline, hs⟩
          rw [List.append_nil] at hgetline
          rw [loop_of_getline hfail hgetline, loop_of_fail hs]
          exact ⟨[], text, [], rfl, by simp, Nat.not_lt.mp hshort, rfl⟩

end Loop

section Quotes

def Plain (s : ByteString) : Prop :=
  nul ∉ s ∧ apostrophe ∉ s ∧ quote ∉ s

theorem rdropWhile_plain {s : ByteString} (h : Plain s)
    : s.rdropWhile (fun c => c == apostrophe || c == quote) = s := by
  rw [List.rdropWhile_eq_self_iff]
  intro hne hlast
  rw [Bool.or_eq_true, beq_iff_eq, beq_iff_eq] at hlast
  have hmem := List.getLast_mem hne
  rcases hlast with heq | heq
  . rw [heq] at hmem
    exact h.2.1 hmem
  . rw [heq] at hmem
    exact h.2.2 hmem

theorem Plain.append {s s' : ByteString} (h : Plain s) (h' : Plain s') : Plain (s ++ s') := by
  unfold Plain at *
  simp only [List.mem_append, not_or]
  exact ⟨⟨h.1, h'.1⟩, ⟨h.2.1, h'.2.1⟩, h.2.2, h'.2.2⟩

theorem unquote_plain {s : ByteString} (h : Plain s) : unquote s = s := by
  unfold unquote cStr
  rw [List.takeWhile_eq_self_iff.mpr (bne_of_not_mem h.1), List.erase_of_not_mem h.2.1, List.erase_of_not_mem h.2.2,
    rdropWhile_plain h]

theorem erase_append_cons {s rest : ByteString} {q : UInt8} (h : q ∉ s)
    : (s ++ q :: rest).erase q = s ++ rest := by
  rw [List.erase_append_right _ h, List.erase_cons_head]

theorem unquote_quoted {key value : ByteString} (hkey : Plain key) (hvalue : Plain value) {q : UInt8}
    (hq : q = apostrophe ∨ q = quote)
    : unquote (key ++ q :: (value ++ [q])) = key ++ value := by
  have herase : ((key ++ q :: (value ++ [q])).erase apostrophe).erase quote = key ++ value ++ [q] := by
    rcases hq with rfl | rfl
    . rw [erase_append_cons hkey.2.1, List.erase_of_not_mem, List.append_assoc]
      have hne : quote ≠ apostrophe := by decide
      simp [hkey.2.2, hvalue.2.2, hne]
    . have hne : apostrophe ≠ quote := by decide
      have hnot : apostrophe ∉ key ++ quote :: (value ++ [quote]) := by
        simp [hkey.2.1, hvalue.2.1, hne]
      rw [List.erase_of_not_mem hnot, erase_append_cons hkey.2.2, List.append_assoc]
  have hnul : nul ∉ key ++ q :: (value ++ [q]) := by
    have hne : nul ≠ q := by
      rcases hq with rfl | rfl
      . decide
      . decide
    simp [hkey.1, hvalue.1, hne]
  unfold unquote cStr
  rw [List.takeWhile_eq_self_iff.mpr (bne_of_not_mem hnul), herase, List.rdropWhile_concat_pos,
    rdropWhile_plain (hkey.append hvalue)]
  simpa using hq

end Quotes

theorem parseConfigFile_lines (text : ByteString)
    : (((∀ line ∈ lines text, line.length < pathMax)
          ∧ parseConfigFile text = ((lines text).map unquote ++ [[]]).flatMap (· ++ [lf]))
        ∨ ∃ before line after, lines text = before ++ line :: after
          ∧ (∀ l ∈ before, l.length < pathMax) ∧ pathMax ≤ line.length
          ∧ parseConfigFile text
            = (before.map unquote ++ [unquote (line.take (pathMax - 1))]).flatMap (· ++ [lf]))
      ∧
      ∀ key value, Plain key → Plain value
        → unquote (key ++ value) = key ++ value
          ∧ ∀ q, q = apostrophe ∨ q = quote → unquote (key ++ q :: (value ++ [q])) = key ++ value := by
  constructor
  . unfold parseConfigFile
    rcases loop_lines text with ⟨hall, hloop⟩ | ⟨before, line, after, hsplit, hbefore, hlong, hloop⟩
    . apply Or.inl
      rw [hloop]
      exact ⟨hall, rfl⟩
    . apply Or.inr
      rw [hloop]
      exact ⟨before, line, after, hsplit, hbefore, hlong, rfl⟩
  . intro key value hkey hvalue
    refine ⟨unquote_plain (hkey.append hvalue), ?_⟩
    intro q hq
    apply unquote_quoted hkey hvalue hq

theorem parseConfigFile_lines_host
    : Plain (literal "host=") ∧ Plain (literal "::1")
        ∧ unquote (literal "host='::1'") = literal "host=::1" := by
  have hkey : Plain (literal "host=") := by
    unfold Plain
    decide
  have hvalue : Plain (literal "::1") := by
    unfold Plain
    decide
  refine ⟨hkey, hvalue, ?_⟩
  apply ((parseConfigFile_lines []).2 (literal "host=") (literal "::1") hkey hvalue).2 apostrophe
  exact Or.inl rfl

end Util.Options
