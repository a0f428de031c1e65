import Boostcache.Kernel.CommandHandler.Reparse

/-!
What becomes of a request that starts with `*`, well formed or not, is settled by the shortest of its
prefixes that is not pending any more. How the bytes are cut into reads only decides which read gets
the answer, and what is lost behind it.
-/

open Cpp Resp

namespace CommandHandler

theorem scanBlock_line {line : ByteString} (hlf : lf ∉ line) (hlength : 0 < lineInt line)
    (rest : ByteString)
    : scanBlock (dollar :: line ++ lf :: rest)
        =
      if (rest.length : Int) < int32 (lineInt line + 2) then
        .noData (lineInt line)
      else if rest.length + 1 < (lineInt line).toNat + 2 then
        .fault
      else if (rest.drop (lineInt line).toNat).take 2 = [cr, lf] then
        .argument (rest.take (lineInt line).toNat) (rest.drop ((lineInt line).toNat + 2))
      else
        .rejected := by
  have hmem : lf ∉ dollar :: line := by
    simp only [List.mem_cons, not_or]
    exact ⟨by decide, hlf⟩
  unfold scanBlock
  rw [splitLf_append_cons hmem]
  dsimp only
  rw [if_neg]
  simp only [ne_eq, not_true_eq_false, false_or]
  omega

-- A length to which 2 cannot be added is already out of range at the end of its line.
theorem int32_of_not_fault {line : ByteString} (hlf : lf ∉ line) (hlength : 0 < lineInt line)
    (hfault : scanBlock (dollar :: line ++ [lf]) ≠ .fault)
    : int32 (lineInt line + 2) = lineInt line + 2 := by
  have hlt := lineInt_lt line
  apply Decidable.byContradiction
  intro hwraps
  have hneg : int32 (lineInt line + 2) < 0 := by
    unfold int32 at hwraps ⊢
    omega
  apply hfault
  rw [scanBlock_line hlf hlength, if_neg, if_pos]
  . simp only [List.length_nil]
    omega
  . simp only [List.length_nil]
    omega

theorem take_drop_append {rest : ByteString} {n : Nat} (h : n + 2 ≤ rest.length) (y : ByteString)
    : ((rest ++ y).drop n).take 2 = (rest.drop n).take 2 := by
  rw [List.drop_append_of_le_length (by omega), List.take_append_of_le_length]
  rw [List.length_drop]
  omega

theorem scanBlock_rejected_append {s : ByteString} (h : scanBlock s = .rejected)
    (hfault : ∀ b, b <+: s → scanBlock b ≠ .fault) (y : ByteString)
    : scanBlock (s ++ y) = .rejected := by
  cases hsplit : splitLf s with
  | none =>
    have hnoLine := scanBlock_eq_noLine.mpr (splitLf_eq_none.mp hsplit)
    rw [h] at hnoLine
    contradiction
  | some split =>
    rcases split with ⟨line, rest⟩
    rcases splitLf_eq_some hsplit with ⟨hs, hlf⟩
    have hsplit' := splitLf_append hsplit y
    cases line with
    | nil =>
      unfold scanBlock
      rw [hsplit']
    | cons c line =>
      by_cases hheader : c ≠ dollar ∨ lineInt line ≤ 0
      . unfold scanBlock
        rw [hsplit']
        dsimp only
        rw [if_pos hheader]
      . simp only [ne_eq, not_or, not_not, Int.not_le] at hheader
        rcases hheader with ⟨rfl, hlength⟩
        simp only [List.mem_cons, not_or] at hlf
        have hsum := int32_of_not_fault hlf.2 hlength (hfault _ ⟨rest, by simp [hs]⟩)
        rw [hs, scanBlock_line hlf.2 hlength, hsum] at h
        have happend : s ++ y = dollar :: line ++ lf :: (rest ++ y) := by simp [hs]
        rw [happend, scanBlock_line hlf.2 hlength, hsum]
        split_ifs at h with hshort hover hcrlf
        have hle : (lineInt line).toNat + 2 ≤ rest.length := by omega
        rw [if_neg, if_neg, take_drop_append hle, if_neg hcrlf]
        . rw [List.length_append]
          omega
        . rw [List.length_append]
          omega

theorem scanArguments_rejected_append {left : Nat} {saved : Arguments} {last : Int} {s : ByteString}
    (h : scanArguments left saved last s = .rejected)
    (hfault : ∀ b, b <+: s → scanArguments left saved last b ≠ .fault) (y : ByteString)
    : scanArguments left saved last (s ++ y) = .rejected := by
  induction left generalizing saved last s with
  | zero => contradiction
  | succ left ih =>
    unfold scanArguments at h ⊢
    split at h
    . contradiction
    . contradiction
    . next hblock =>
      have hrejected : scanBlock (s ++ y) = .rejected := by
        apply scanBlock_rejected_append hblock
        intro b hb heq
        apply hfault b hb
        unfold scanArguments
        rw [heq]
      rw [hrejected]
    . contradiction
    . next data rest hblock =>
      rw [scanBlock_argument_append hblock]
      apply ih h
      intro b hb heq
      rcases scanBlock_eq_argument.mp hblock with ⟨line, hmem, hlength, hdata, hs⟩
      apply hfault (dollar :: line ++ lf :: (data ++ [cr, lf] ++ b))
      . rcases hb with ⟨z, rfl⟩
        exact ⟨z, by simp [hs]⟩
      . unfold scanArguments
        rw [scanBlock_eq_argument.mpr ⟨line, hmem, hlength, hdata, rfl⟩]
        exact heq

theorem scanRequest_rejected_append {s : ByteString} (h : scanRequest s = .rejected) (y : ByteString)
    : scanRequest (s ++ y) = .rejected := by
  unfold scanRequest at h ⊢
  split at h
  . contradiction
  . next line rest hsplit =>
    rw [splitLf_append hsplit]
    dsimp only at h ⊢
    split_ifs at h with hnumber
    rw [if_pos hnumber]

theorem scanRequest_body_rejected_append {s : ByteString} {number : Int}
    (h : scanRequest s = .body number .rejected)
    (hfault : ∀ b, b <+: s → ∀ number, scanRequest b ≠ .body number .fault) (y : ByteString)
    : scanRequest (s ++ y) = .body number .rejected := by
  unfold scanRequest at h ⊢
  split at h
  . contradiction
  . next line rest hsplit =>
    rcases splitLf_eq_some hsplit with ⟨hs, hlf⟩
    rw [splitLf_append hsplit]
    dsimp only at h ⊢
    split_ifs at h with hnumber
    injection h with hnumber' hscan
    rw [if_neg hnumber, scanArguments_rejected_append hscan _ y, hnumber']
    intro b hb heq
    apply hfault (line ++ lf :: b) _ (lineInt line.tail)
    . unfold scanRequest
      rw [splitLf_append_cons hlf]
      dsimp only
      rw [if_neg hnumber, heq]
    . rcases hb with ⟨z, rfl⟩
      exact ⟨z, by simp [hs]⟩

structure Decides (x : ByteString) : Prop where
  star : x.head? = some star
  settled : parse x = .dropped ∨ ∃ arguments, parse x = .request arguments
  shortest : ∀ b, b ≠ [] → b <+: x → b ≠ x → parse b = .pending

theorem head?_eq_of_isPrefix {b x : ByteString} (hb : b ≠ []) (hpref : b <+: x) : b.head? = x.head? := by
  rcases hpref with ⟨z, rfl⟩
  rw [List.head?_append_of_ne_nil _ hb]

theorem Decides.not_fault {x b : ByteString} (h : Decides x) (hb : b <+: x) (number : Int)
    : scanRequest b ≠ .body number .fault := by
  intro hscan
  have hne : b ≠ [] := by
    intro hnil
    rw [hnil] at hscan
    contradiction
  have hfault : parse b = .fault := by
    unfold parse
    rw [if_pos (by rw [head?_eq_of_isPrefix hne hb, h.star]), hscan]
  by_cases heq : b = x
  . rw [heq] at hfault
    rcases h.settled with hdropped | ⟨arguments, hrequest⟩
    . rw [hfault] at hdropped
      contradiction
    . rw [hfault] at hrequest
      contradiction
  . rw [h.shortest b hne hb heq] at hfault
    contradiction

theorem Decides.parse_append {x : ByteString} (h : Decides x) (y : ByteString)
    : parse (x ++ y) = parse x := by
  have hstar := h.star
  have hne : x ≠ [] := by
    intro hnil
    rw [hnil] at hstar
    contradiction
  have hstar' : (x ++ y).head? = some CommandHandler.star := by
    rw [List.head?_append_of_ne_nil _ hne, hstar]
  have hsettled := h.settled
  unfold parse at hsettled ⊢
  rw [if_pos hstar] at hsettled ⊢
  rw [if_pos hstar']
  cases hscan : scanRequest x with
  | headerPending => simp [hscan] at hsettled
  | rejected => rw [scanRequest_rejected_append hscan]
  | body number scan =>
    cases scan with
    | fault => exact absurd hscan (h.not_fault (List.prefix_refl x) number)
    | rejected =>
      rw [scanRequest_body_rejected_append hscan]
      intro b hb number
      apply h.not_fault hb
    | stopped left arguments last rest =>
      cases left with
      | zero =>
        rw [scanRequest_append hscan]
        rfl
      | succ left => simp [hscan] at hsettled

def Parse.answer : Parse → Answer
  | .request arguments => (false, [arguments])
  | _ => (true, [])

theorem step_of_pending {s : ByteString} (h : parse (star :: s) = .pending)
    : ∃ h, step fresh (star :: s) = .ok (h, true, []) ∧ Pending (star :: s) h := by
  unfold parse at h
  rw [if_pos (List.head?_cons ..)] at h
  cases hscan : scanRequest (star :: s) with
  | headerPending =>
    have hfeed := feedAndParseCommand_star s
    rw [hscan] at hfeed
    exact ⟨_, step_of_feed hfeed, .header hscan⟩
  | rejected => simp [hscan] at h
  | body number scan =>
    cases scan with
    | fault => simp [hscan] at h
    | rejected => simp [hscan] at h
    | stopped left arguments last rest =>
      cases left with
      | zero => simp [hscan] at h
      | succ left => exact step_waits hscan ⟨left, arguments, last, rest, rfl⟩

theorem step_of_settled {s : ByteString}
    (h : parse (star :: s) = .dropped ∨ ∃ arguments, parse (star :: s) = .request arguments)
    : step fresh (star :: s) = .ok (fresh, (parse (star :: s)).answer) := by
  have hfeed := feedAndParseCommand_star s
  unfold parse at h ⊢
  rw [if_pos (List.head?_cons ..)] at h ⊢
  cases hscan : scanRequest (star :: s) with
  | headerPending => simp [hscan] at h
  | rejected =>
    rw [hscan] at hfeed
    apply step_of_feed hfeed
  | body number scan =>
    cases scan with
    | fault => simp [hscan] at h
    | rejected => exact step_rejected hscan
    | stopped left arguments last rest =>
      cases left with
      | zero => exact step_executed hscan
      | succ left => simp [hscan] at h

theorem Decides.step_prefix {x b : ByteString} (h : Decides x) (hne : b ≠ []) (hpref : b <+: x)
    (hproper : b ≠ x)
    : ∃ h, step fresh b = .ok (h, true, []) ∧ Pending b h := by
  have hpending := h.shortest b hne hpref hproper
  have hstar := h.star
  rw [← head?_eq_of_isPrefix hne hpref] at hstar
  rcases List.head?_eq_some_iff.mp hstar with ⟨s, rfl⟩
  apply step_of_pending hpending

theorem Decides.step_append {x : ByteString} (h : Decides x) (y : ByteString)
    : step fresh (x ++ y) = .ok (fresh, (parse x).answer) := by
  have hparse := h.parse_append y
  have hsettled := h.settled
  rcases List.head?_eq_some_iff.mp h.star with ⟨s, rfl⟩
  rw [← hparse] at hsettled ⊢
  apply step_of_settled hsettled

theorem feedAll_decides {x : ByteString} (h : Decides x) {init rest : List ByteString}
    {last : ByteString} (hreads : ∀ read ∈ init ++ [last], read ≠ []) (hinit : ¬ x <+: init.flatten)
    (hlast : x <+: init.flatten ++ last)
    : feedAll fresh (init ++ last :: rest)
        =
      {
        outputs :=
          List.replicate init.length (true, []) ++ (parse x).answer :: (feedAll fresh rest).outputs
        final := (feedAll fresh rest).final
      } := by
  have hne : [] ≠ x := by
    intro hnil
    apply hinit
    rw [← hnil]
    apply List.nil_prefix
  rcases hlast with ⟨y, hy⟩
  have hflatten : [] ++ (init ++ [last]).flatten = x ++ y := by simp [hy]
  rcases Machine.run_until resumable (fun b => h.step_prefix) h.step_append hreads List.nil_prefix
    hne hflatten (fun _ => rfl) with ⟨init', last', rest', hsplit, hprefix, hrun⟩
  have hrest : rest' = [] := by
    rcases List.eq_nil_or_concat rest' with hnil | ⟨more, read, rfl⟩
    . exact hnil
    . rw [List.concat_eq_append, ← List.cons_append, ← List.append_assoc] at hsplit
      have hsplit := (List.append_inj' hsplit rfl).1
      exfalso
      apply hinit
      apply hprefix.trans
      rw [hsplit]
      exact ⟨more.flatten, by simp⟩
  rw [hrest] at hsplit hrun
  rcases List.append_inj' hsplit rfl with ⟨rfl, -⟩
  have hdone : Machine.run step fresh (init ++ [last])
      = { outputs := List.replicate init.length (true, []) ++ [(parse x).answer], final := .ok fresh } := by
    rw [hrun]
    rfl
  unfold feedAll
  rw [← List.singleton_append, ← List.append_assoc, Machine.run_append hdone]
  simp

-- The block does not end with CRLF. The request behind it is lost, but not the next one.
def unterminated : ByteString :=
  literal "*1\r\n$4\r\nPINGxx"

theorem decides_unterminated : Decides unterminated where
  star := by decide
  settled := Or.inl (by decide +kernel)
  shortest := by
    intro b hne hpref hproper
    have hprefixes : ∀ b ∈ unterminated.inits, b ≠ [] → b ≠ unterminated → parse b = .pending := by
      decide +kernel
    apply hprefixes b ((List.mem_inits b unterminated).mpr hpref) hne hproper

theorem feedAll_decides_unterminated
    : feedAll fresh
        [literal "*1\r\n$4\r\nPI", literal "NGxx*1\r\n$4\r\nPING\r\n", literal "PING\r\n"]
        =
      { outputs := [(true, []), (true, []), (false, [[literal "PING"]])], final := .ok fresh } := by
  have h : feedAll fresh ([literal "*1\r\n$4\r\nPI"]
      ++ literal "NGxx*1\r\n$4\r\nPING\r\n" :: [literal "PING\r\n"]) = _ :=
    feedAll_decides decides_unterminated (by decide) (by decide) (by decide)
  rw [List.singleton_append] at h
  rw [h]
  decide +kernel

end CommandHandler
