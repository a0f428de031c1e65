import Boostcache.Kernel.CommandHandler.Run
import Mathlib.Data.List.TakeWhile

/-!
Inline requests on a connection that cuts what is sent into reads as it likes: without an LF the
parser gives up all it has got, so only lines that arrive in one read are executed as they are.
-/

open Cpp Resp

namespace CommandHandler

theorem filter_takeWhile (line : ByteString)
    : (line.takeWhile (· != space)).filter (· != space) = line.takeWhile (· != space) := by
  apply List.filter_eq_self.mpr
  intro c hc
  apply List.mem_takeWhile_imp (p := (· != space)) hc

theorem filter_dropWhile (line : ByteString)
    : (line.dropWhile (· == space)).filter (· != space) = line.filter (· != space) := by
  induction line with
  | nil => rfl
  | cons c line ih =>
    rw [List.dropWhile_cons]
    split
    . next hc =>
      have hc' : ¬ (c != space) = true := by simpa using hc
      rw [ih, List.filter_cons, if_neg hc']
    . rfl

theorem flatten_words (line : ByteString) : (words line).flatten = line.filter (· != space) := by
  have hline := List.takeWhile_append_dropWhile (p := (· != space)) (l := line)
  have hfilter : line.takeWhile (· != space) ++ (nextWord line).filter (· != space)
      = line.filter (· != space) := by
    unfold nextWord
    rw [filter_dropWhile, ← filter_takeWhile, ← List.filter_append, hline]
  unfold words
  split
  . next hnext =>
    rw [hnext, List.filter_nil, List.append_nil] at hfilter
    rw [List.flatten_singleton]
    assumption
  . rw [List.flatten_cons, flatten_words]
    assumption
termination_by line.length
decreasing_by
  apply length_nextWord_lt
  assumption

theorem trimCr_append {t u : ByteString} (hu : u ≠ []) : trimCr (t ++ u) = t ++ trimCr u := by
  unfold trimCr
  rw [List.getLast?_append_of_ne_nil _ hu]
  split
  . rw [List.dropLast_append_of_ne_nil hu]
  . rfl

-- A handler that has not seen an LF since the last reset.
inductive Waiting : CommandHandler → Prop
  | idle : Waiting fresh
  | header {s : ByteString} {h : CommandHandler}
      : lf ∉ star :: s
          →
        Pending (star :: s) h
          →
        Waiting h

theorem step_waiting {h : CommandHandler} (hwaiting : Waiting h) {read : ByteString}
    (hread : lf ∉ read)
    : ∃ h', step h read = .ok (h', true, []) ∧ Waiting h' := by
  cases hwaiting with
  | idle =>
    by_cases hstar : read.head? = some star
    . rcases List.head?_eq_some_iff.mp hstar with ⟨s, rfl⟩
      rcases step_no_lf hread with ⟨h', hstep, hpending⟩
      exact ⟨h', hstep, .header hread hpending⟩
    . exact ⟨fresh, step_of_feed (feedAndParseCommand_no_lf hread hstar), .idle⟩
  | @header s h hlf hpending =>
    have hmem : lf ∉ star :: (s ++ read) := by
      rw [← List.cons_append, List.mem_append, not_or]
      exact ⟨hlf, hread⟩
    rw [resumable.resume hpending]
    rcases step_no_lf hmem with ⟨h', hstep, hpending'⟩
    exact ⟨h', hstep, .header hmem hpending'⟩

theorem feedAll_waiting {h : CommandHandler} (hwaiting : Waiting h) {reads : List ByteString}
    (hreads : lf ∉ reads.flatten)
    : ∃ h', Waiting h'
        ∧ feedAll h reads
            =
          { outputs := List.replicate reads.length (true, []), final := .ok h' } := by
  induction reads generalizing h with
  | nil => exact ⟨h, hwaiting, rfl⟩
  | cons read reads ih =>
    rw [List.flatten_cons, List.mem_append, not_or] at hreads
    rcases step_waiting hwaiting hreads.1 with ⟨h1, hstep, hwaiting1⟩
    rcases ih hwaiting1 hreads.2 with ⟨h', hwaiting', hrun⟩
    refine ⟨h', hwaiting', ?_⟩
    unfold feedAll at hrun ⊢
    rw [Machine.run_cons_ok hstep, hrun]
    rfl

theorem step_header_line {s : ByteString} (hlf : lf ∉ star :: s)
    : ∃ h, step fresh (star :: s ++ [lf]) = .ok (h, true, []) := by
  have hsplit := splitLf_append_cons hlf []
  have hfeed := feedAndParseCommand_star (s ++ [lf])
  rw [← List.cons_append] at hfeed
  unfold scanRequest at hfeed
  rw [hsplit] at hfeed
  dsimp only at hfeed
  split_ifs at hfeed with hnumber
  . exact ⟨_, step_of_feed hfeed⟩
  . have hsucc : (lineInt (star :: s).tail).toNat = (lineInt (star :: s).tail).toNat - 1 + 1 := by
      omega
    rw [hsucc, scanArguments] at hfeed
    exact ⟨_, step_of_feed hfeed⟩

theorem step_line_waiting {h : CommandHandler} (hwaiting : Waiting h) {t : ByteString}
    (hlf : lf ∉ t) {h' : CommandHandler} {needMore : Bool} {arguments : Arguments}
    (hstep : step h (t ++ [lf]) = .ok (h', needMore, [arguments]))
    : t ≠ [] ∧ arguments = words (trimCr t) := by
  have hstar {s : ByteString} (hs : lf ∉ star :: s)
      (hstep : step fresh (star :: s ++ [lf]) = .ok (h', needMore, [arguments])) : False := by
    rcases step_header_line hs with ⟨h1, hstep1⟩
    rw [hstep1] at hstep
    simp at hstep
  cases hwaiting with
  | @header s h hmem hpending =>
    have hline : lf ∉ star :: (s ++ t) := by
      rw [← List.cons_append, List.mem_append, not_or]
      exact ⟨hmem, hlf⟩
    rw [resumable.resume hpending, ← List.append_assoc] at hstep
    exact (hstar hline hstep).elim
  | idle =>
    by_cases hnil : t = []
    . rw [hnil, List.nil_append] at hstep
      unfold step at hstep
      rw [feedAndParseCommand_lf] at hstep
      contradiction
    . by_cases hhead : t.head? = some star
      . rcases List.head?_eq_some_iff.mp hhead with ⟨s, rfl⟩
        exact (hstar hlf hstep).elim
      . have hfeed := feedAndParseCommand_line hlf hnil hhead []
        split at hfeed
        . rw [step_of_feed hfeed] at hstep
          simp [leave] at hstep
        . rw [step_of_feed hfeed] at hstep
          simp only [Except.ok.injEq, Prod.mk.injEq, List.cons.injEq, and_true] at hstep
          exact ⟨hnil, hstep.2.2.symm⟩

structure InlineLine (t : ByteString) : Prop where
  no_lf : lf ∉ t
  ne_nil : t ≠ []
  head : t.head? ≠ some star ∧ t.head? ≠ some space ∧ t.head? ≠ some cr

theorem length_filter_lt {w u : ByteString} (hw : w ≠ []) (hhead : w.head? ≠ some space)
    (hu : u ≠ [])
    : ((trimCr u).filter (· != space)).length < ((trimCr (w ++ u)).filter (· != space)).length := by
  cases w with
  | nil => contradiction
  | cons c w =>
    have hc : (c != space) = true := by simpa using hhead
    rw [trimCr_append hu, List.filter_append, List.filter_cons, if_pos hc]
    simp only [List.length_append, List.length_cons]
    omega

theorem step_inlineLine {t : ByteString} (h : InlineLine t)
    : step fresh (t ++ [lf]) = .ok (fresh, false, [words (trimCr t)]) := by
  have hfeed := feedAndParseCommand_line h.no_lf h.ne_nil h.head.1 []
  have hwords : ¬ (words (trimCr t)).head? = some [] := by
    rcases words_eq_cons (trimCr t) with ⟨tail, htail⟩
    rw [htail, List.head?_cons]
    cases t with
    | nil => exact absurd rfl h.ne_nil
    | cons c t =>
      have hspace : (c != space) = true := by simpa using h.head.2.1
      have hcr : c ≠ cr := by simpa using h.head.2.2
      have htrim : ∃ t', trimCr (c :: t) = c :: t' := by
        cases t with
        | nil => exact ⟨[], by simp [trimCr, hcr]⟩
        | cons d t => exact ⟨trimCr (d :: t), trimCr_append (t := [c]) (by simp)⟩
      rcases htrim with ⟨t', ht'⟩
      rw [ht', List.takeWhile_cons, if_pos hspace]
      simp
  rw [if_neg hwords] at hfeed
  apply step_of_feed hfeed

def vectors (run : Run) : List (List Arguments) :=
  run.outputs.map (·.2)

theorem vectors_cut {t : ByteString} (h : InlineLine t) {init : List ByteString} {u : ByteString}
    (hinit : init.flatten ≠ []) (hflatten : init.flatten ++ u = t)
    : vectors (feedAll fresh (init ++ [u ++ [lf]]))
        ≠
      List.replicate init.length [] ++ [[words (trimCr t)]] := by
  intro hvectors
  have hlf := h.no_lf
  rw [← hflatten, List.mem_append, not_or] at hlf
  rcases feedAll_waiting .idle hlf.1 with ⟨h1, hwaiting, hrun⟩
  unfold feedAll at hrun hvectors
  unfold vectors at hvectors
  rw [Machine.run_append hrun, List.map_append, List.map_replicate,
    List.append_cancel_left_eq] at hvectors
  cases hstep : step h1 (u ++ [lf]) with
  | error fault =>
    rw [Machine.run_cons_error hstep] at hvectors
    contradiction
  | ok res =>
    rcases res with ⟨h2, needMore, executed⟩
    rw [Machine.run_cons_ok hstep] at hvectors
    injection hvectors with hexecuted
    dsimp only at hexecuted
    rw [hexecuted] at hstep
    rcases step_line_waiting hwaiting hlf.2 hstep with ⟨hu, hwords⟩
    have hhead : init.flatten.head? ≠ some space := by
      have := h.head.2.1
      rwa [← hflatten, List.head?_append_of_ne_nil _ hinit] at this
    have hlt := length_filter_lt hinit hhead hu
    rw [hflatten, ← flatten_words, ← flatten_words, hwords] at hlt
    omega

theorem vectors_inline {t : ByteString} (hlf : lf ∉ t) (hne : t ≠ [])
    (hhead : t.head? ≠ some star ∧ t.head? ≠ some space ∧ t.head? ≠ some cr)
    {reads : List ByteString} (hreads : ∀ read ∈ reads, read ≠ [])
    (hflatten : reads.flatten = t ++ [lf])
    : (∃ arguments, vectors (feedAll fresh [t ++ [lf]]) = [[arguments]]
        ∧ vectors (feedAll fresh reads) = List.replicate (reads.length - 1) [] ++ [[arguments]])
        ↔
      reads.length = 1 := by
  have h : InlineLine t := ⟨hlf, hne, hhead⟩
  have hone : vectors (feedAll fresh [t ++ [lf]]) = [[words (trimCr t)]] := by
    unfold feedAll
    rw [Machine.run_cons_ok (step_inlineLine h)]
    rfl
  constructor
  . intro hexecuted
    rcases hexecuted with ⟨arguments, hsingle, hvectors⟩
    rw [hone] at hsingle
    injection hsingle with hsingle
    injection hsingle with hsingle
    rw [← hsingle] at hvectors
    rcases List.eq_nil_or_concat' reads with rfl | ⟨init, last, rfl⟩
    . simp at hflatten
    . cases init with
      | nil => rfl
      | cons read init =>
        rw [List.flatten_append, List.flatten_singleton] at hflatten
        have hlast : last ≠ [] := hreads last (by simp)
        rcases List.eq_nil_or_concat' last with rfl | ⟨u, c, rfl⟩
        . contradiction
        . rw [← List.append_assoc] at hflatten
          rcases List.append_inj' hflatten rfl with ⟨ht, hc⟩
          have hread : (read :: init).flatten ≠ [] := by
            simp [hreads read (by simp)]
          apply absurd _ (vectors_cut h hread ht)
          rw [hc] at hvectors
          simpa using hvectors
  . intro hlength
    match reads, hlength with
    | [read], _ =>
      rw [List.flatten_singleton] at hflatten
      rw [hflatten]
      exact ⟨_, hone, hone⟩

theorem vectors_inline_hget
    : ∃ arguments, vectors (feedAll fresh [literal "HGET key\r" ++ [lf]]) = [[arguments]]
        ∧ vectors (feedAll fresh [literal "HGET key\r\n"]) = List.replicate 0 [] ++ [[arguments]] := by
  apply (vectors_inline _ _ _ _ _).mpr
  . rfl
  . decide
  . decide
  . decide
  . decide
  . decide

theorem vectors_inline_two_reads
    : ¬ ∀ t : ByteString, lf ∉ t → t ≠ []
        → t.head? ≠ some star ∧ t.head? ≠ some space ∧ t.head? ≠ some cr
        → ∀ reads : List ByteString, (∀ read ∈ reads, read ≠ []) → reads.flatten = t ++ [lf]
        → ∃ arguments, vectors (feedAll fresh [t ++ [lf]]) = [[arguments]]
          ∧ vectors (feedAll fresh reads) = List.replicate (reads.length - 1) [] ++ [[arguments]] := by
  intro h
  rcases h (literal "HGET key") (by decide) (by decide) (by decide)
    [literal "HGET ", literal "key\n"] (by decide) (by decide) with ⟨arguments, hsingle, hvectors⟩
  have hone : vectors (feedAll fresh [literal "HGET key" ++ [lf]])
      = [[[literal "HGET", literal "key"]]] := by
    decide +kernel
  have htwo : vectors (feedAll fresh [literal "HGET ", literal "key\n"])
      = [[], [[literal "key"]]] := by
    decide +kernel
  rw [hone] at hsingle
  rw [htwo] at hvectors
  injection hsingle with hsingle
  rw [← hsingle] at hvectors
  exact absurd hvectors (by decide)

end CommandHandler
