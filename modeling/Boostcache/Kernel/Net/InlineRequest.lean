import Boostcache.Kernel.CommandHandler.InlineFragmentation
import Boostcache.Kernel.Net.CommandServer

/-!
The two encodings of a request: a line with its arguments between spaces means the same as the
multi-bulk request with these arguments.
-/

open Cpp Resp

namespace CommandHandler

-- The arguments with at least one space between them and any number of spaces behind the last one.
inductive Spaced : Arguments → ByteString → Prop
  | last (word : ByteString) (n : Nat) : Spaced [word] (word ++ List.replicate n space)
  | cons (word : ByteString) (n : Nat) {arguments : Arguments} {line : ByteString}
      : Spaced arguments line
          →
        Spaced (word :: arguments) (word ++ (List.replicate (n + 1) space ++ line))

theorem dropWhile_append_cons {c : UInt8} {w : ByteString} (h : c ∉ w) (rest : ByteString)
    : (w ++ c :: rest).dropWhile (· != c) = c :: rest := by
  have := List.takeWhile_append_dropWhile (p := (· != c)) (l := w ++ c :: rest)
  rw [takeWhile_append_cons h] at this
  apply List.append_cancel_left this

theorem dropWhile_replicate (n : Nat) {rest : ByteString} (h : rest.head? ≠ some space)
    : (List.replicate n space ++ rest).dropWhile (· == space) = rest := by
  induction n with
  | zero =>
    cases rest with
    | nil => rfl
    | cons c rest =>
      rw [List.replicate_zero, List.nil_append, List.dropWhile_cons, if_neg]
      simpa using h
  | succ n ih =>
    rw [List.replicate_succ, List.cons_append, List.dropWhile_cons, if_pos (by simp), ih]

theorem nextWord_append {word : ByteString} (hword : space ∉ word) (n : Nat) {rest : ByteString}
    (hrest : rest.head? ≠ some space)
    : nextWord (word ++ (List.replicate (n + 1) space ++ rest)) = rest := by
  unfold nextWord
  rw [List.replicate_succ, List.cons_append, dropWhile_append_cons hword, ← List.cons_append,
    ← List.replicate_succ, dropWhile_replicate (n + 1) hrest]

variable {arguments : Arguments} {line : ByteString}

theorem Spaced.exists_head (h : Spaced arguments line) (hne : ∀ argument ∈ arguments, argument ≠ [])
    : ∃ first c, arguments.head? = some first ∧ first.head? = some c ∧ line.head? = some c := by
  cases h with
  | last word n =>
    rcases List.exists_cons_of_ne_nil (hne word (by simp)) with ⟨c, tail, rfl⟩
    exact ⟨c :: tail, c, rfl, rfl, rfl⟩
  | cons word n h =>
    rcases List.exists_cons_of_ne_nil (hne word (by simp)) with ⟨c, tail, rfl⟩
    exact ⟨c :: tail, c, rfl, rfl, rfl⟩

theorem Spaced.line_ne_nil (h : Spaced arguments line) (hne : ∀ argument ∈ arguments, argument ≠ [])
    : line ≠ [] := by
  rcases h.exists_head hne with ⟨first, c, -, -, hhead⟩
  intro hnil
  simp [hnil] at hhead

theorem Spaced.not_mem (h : Spaced arguments line) {c : UInt8} (hc : c ≠ space)
    (harguments : ∀ argument ∈ arguments, c ∉ argument)
    : c ∉ line := by
  have hreplicate (n : Nat) : c ∉ List.replicate n space := by
    intro hmem
    apply hc (List.eq_of_mem_replicate hmem)
  induction h with
  | last word n =>
    rw [List.mem_append, not_or]
    exact ⟨harguments word (by simp), hreplicate n⟩
  | cons word n h ih =>
    rw [List.forall_mem_cons] at harguments
    rw [List.mem_append, List.mem_append, not_or, not_or]
    exact ⟨harguments.1, hreplicate (n + 1), ih harguments.2⟩

theorem Spaced.getLast?_ne (h : Spaced arguments line) {c : UInt8} (hc : c ≠ space)
    (hne : ∀ argument ∈ arguments, argument ≠ [])
    (hlast : ∀ last, arguments.getLast? = some last → last.getLast? ≠ some c)
    : line.getLast? ≠ some c := by
  induction h with
  | last word n =>
    cases n with
    | zero =>
      rw [List.replicate_zero, List.append_nil]
      apply hlast word rfl
    | succ n =>
      rw [List.replicate_succ', ← List.append_assoc, List.getLast?_concat]
      intro heq
      injection heq with heq
      apply hc heq.symm
  | @cons word n arguments line h ih =>
    rw [List.forall_mem_cons] at hne
    rw [← List.append_assoc, List.getLast?_append_of_ne_nil _ (h.line_ne_nil hne.2)]
    apply ih hne.2
    intro last hgetLast
    apply hlast last
    rw [List.getLast?_cons, hgetLast]
    rfl

theorem Spaced.words_eq (h : Spaced arguments line) (hne : ∀ argument ∈ arguments, argument ≠ [])
    (hspace : ∀ argument ∈ arguments, space ∉ argument)
    : words line = arguments := by
  induction h with
  | last word n =>
    have hword := hspace word (by simp)
    cases n with
    | zero => rw [List.replicate_zero, List.append_nil, words_of_not_mem hword]
    | succ n =>
      have hnext := nextWord_append hword n (show ([] : ByteString).head? ≠ some space by simp)
      rw [List.append_nil] at hnext
      unfold words
      rw [dif_pos hnext, List.replicate_succ, takeWhile_append_cons hword]
  | @cons word n arguments line h ih =>
    rw [List.forall_mem_cons] at hne hspace
    have hhead : line.head? ≠ some space := by
      rcases h.exists_head hne.2 with ⟨first, c, hfirst, hc, hline⟩
      rw [hline]
      intro heq
      rw [heq] at hc
      apply hspace.2 first (List.mem_of_head? hfirst) (List.mem_of_head? hc)
    have hnext := nextWord_append hspace.1 n hhead
    unfold words
    rw [dif_neg (by rw [hnext]; exact h.line_ne_nil hne.2), hnext, ih hne.2 hspace.2,
      List.replicate_succ, List.cons_append, takeWhile_append_cons hspace.1]

-- A separator is trimmed off the line and nothing else is.
theorem step_spaced (h : Spaced arguments line)
    (harguments : ∀ argument ∈ arguments, argument ≠ [] ∧ space ∉ argument ∧ lf ∉ argument)
    (hstar : ∀ first, arguments.head? = some first → first.head? ≠ some star)
    {t : ByteString} (hlf : lf ∉ t) (htrim : trimCr t = line) (hhead : t.head? = line.head?)
    : step fresh (t ++ [lf]) = .ok (fresh, false, [arguments]) := by
  have hne : ∀ argument ∈ arguments, argument ≠ [] := fun a ha => (harguments a ha).1
  have hwords := h.words_eq hne (fun a ha => (harguments a ha).2.1)
  rcases h.exists_head hne with ⟨first, c, hfirst, hc, hline⟩
  rw [hline] at hhead
  have hnil : t ≠ [] := by
    intro hnil
    simp [hnil] at hhead
  have hfeed := feedAndParseCommand_line hlf hnil (by rw [hhead, ← hc]; exact hstar first hfirst) []
  rw [htrim, hwords, hfirst, if_neg] at hfeed
  . apply step_of_feed hfeed
  . intro heq
    injection heq with heq
    rw [heq] at hc
    contradiction

theorem Spaced.step (h : Spaced arguments line)
    (harguments : ∀ argument ∈ arguments, argument ≠ [] ∧ space ∉ argument ∧ lf ∉ argument)
    (hstar : ∀ first, arguments.head? = some first → first.head? ≠ some star)
    {separator : ByteString}
    (hseparator : separator = [cr, lf] ∨ separator = [lf]
      ∧ ∀ last, arguments.getLast? = some last → last.getLast? ≠ some cr)
    : CommandHandler.step fresh (line ++ separator) = .ok (fresh, false, [arguments]) := by
  have hne : ∀ argument ∈ arguments, argument ≠ [] := fun a ha => (harguments a ha).1
  have hlf := h.not_mem (show lf ≠ space by decide) (fun a ha => (harguments a ha).2.2)
  rcases hseparator with rfl | ⟨rfl, hlast⟩
  . have hmem : lf ∉ line ++ [cr] := by
      rw [List.mem_append, not_or]
      exact ⟨hlf, by decide⟩
    have hhead : (line ++ [cr]).head? = line.head? :=
      List.head?_append_of_ne_nil line (h.line_ne_nil hne)
    have := step_spaced h harguments hstar hmem (trimCr_append_cr line) hhead
    rwa [List.append_assoc] at this
  . have htrim : trimCr line = line := by
      unfold trimCr
      rw [if_neg (h.getLast?_ne (by decide) hne hlast)]
    apply step_spaced h harguments hstar hlf htrim rfl

theorem feedAll_singleton {bytes : ByteString} {arguments : Arguments}
    (hstep : CommandHandler.step fresh bytes = .ok (fresh, false, [arguments]))
    : feedAll fresh [bytes] = { outputs := [(false, [arguments])], final := .ok fresh } := by
  unfold feedAll
  rw [Machine.run_cons_ok hstep]
  rfl

end CommandHandler

namespace CommandServer

open CommandHandler

theorem deliver_congr {ρ : Type} {env : Environment ρ} (server : CommandServer env) {client : Nat}
    {bytes bytes' : ByteString}
    (h : step (server.sessions client) bytes = step (server.sessions client) bytes')
    : deliver server ⟨client, bytes⟩ = deliver server ⟨client, bytes'⟩ := by
  unfold deliver
  rw [h]

theorem inline_eq_multiBulk {arguments : Arguments} (hlength : arguments.length ≤ 2 ^ 31 - 1)
    (harguments : ∀ argument ∈ arguments, argument ≠ [] ∧ argument.length ≤ 2 ^ 31 - 3
      ∧ space ∉ argument ∧ lf ∉ argument)
    (hstar : ∀ first, arguments.head? = some first → first.head? ≠ some star) {line : ByteString}
    (hline : Spaced arguments line) {separator : ByteString}
    (hseparator : separator = [cr, lf] ∨ separator = [lf]
      ∧ ∀ last, arguments.getLast? = some last → last.getLast? ≠ some cr)
    : feedAll fresh [line ++ separator] = { outputs := [(false, [arguments])], final := .ok fresh }
      ∧
      feedAll fresh [request arguments] = { outputs := [(false, [arguments])], final := .ok fresh }
      ∧
      ∀ (ρ : Type) (env : Environment ρ) (server : CommandServer env) (client : Nat),
        server.sessions client = fresh
          → deliver server ⟨client, line ++ separator⟩ = deliver server ⟨client, request arguments⟩ := by
  have hne : ∀ argument ∈ arguments, argument ≠ [] := fun a ha => (harguments a ha).1
  have hplain (a : ByteString) (ha : a ∈ arguments) : a ≠ [] ∧ space ∉ a ∧ lf ∉ a :=
    ⟨(harguments a ha).1, (harguments a ha).2.2⟩
  have hinline := hline.step hplain hstar hseparator
  have hencodable : Encodable arguments := by
    refine ⟨?_, hlength, fun a ha => (harguments a ha).2.1⟩
    intro hnil
    rw [hnil] at hline
    contradiction
  have hbulk := step_request hencodable hne []
  rw [List.append_nil] at hbulk
  refine ⟨feedAll_singleton hinline, feedAll_singleton hbulk, ?_⟩
  intro ρ env server client hfresh
  apply deliver_congr
  rw [hfresh, hinline, hbulk]

theorem inline_eq_multiBulk_hset
    : feedAll fresh [literal "HSET a\rb  c \r\n"]
        =
      {
        outputs := [(false, [[literal "HSET", literal "a\rb", literal "c"]])]
        final := .ok fresh
      } := by
  have hline : Spaced [literal "HSET", literal "a\rb", literal "c"] (literal "HSET a\rb  c ") :=
    .cons (literal "HSET") 0 (.cons (literal "a\rb") 1 (.last (literal "c") 1))
  apply (inline_eq_multiBulk (by decide) (by decide) (by decide) hline (Or.inl rfl)).1

end CommandServer
