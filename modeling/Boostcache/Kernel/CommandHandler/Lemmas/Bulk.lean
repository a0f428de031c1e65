import Boostcache.Kernel.CommandHandler.Scan

/-!
The multi-bulk half of the parser computes what `scanRequest` says: `toInt` computes `lineInt`, one
round of the loop of `parseArguments` is one step of `scanArguments` and so the loop is
`scanArguments`.
-/

open Cpp

namespace CommandHandler

namespace toInt

theorem go_of_deref {s : ByteString} {b : Nat} {c : UInt8} (hc : deref s b = .ok c) (num : Int)
    : go s b num = if c = cr then .ok num else go s (b + 1) (digit num c) := by
  rw [go]
  split
  . next hc' =>
    rw [hc] at hc'
    contradiction
  . next hc' =>
    rw [hc] at hc'
    injection hc' with hc'
    rw [hc', digit]

theorem go_append_cons {text : ByteString} (h : cr ∉ text) (a rest : ByteString) (num : Int)
    : go (a ++ (text ++ cr :: rest)) a.length num = .ok (text.foldl digit num) := by
  induction text generalizing a num with
  | nil =>
    rw [List.nil_append, go_of_deref (deref_append_cons ..)]
    simp
  | cons c text ih =>
    simp only [List.mem_cons, not_or] at h
    have happend : a ++ (c :: text ++ cr :: rest) = (a ++ [c]) ++ (text ++ cr :: rest) := by simp
    have hlength : a.length + 1 = (a ++ [c]).length := by simp
    rw [List.cons_append, go_of_deref (deref_append_cons ..), if_neg (Ne.symm h.1),
      ← List.cons_append, happend, hlength, ih h.2]
    rfl

end toInt

theorem lineInt_append_cons {text : ByteString} (h : cr ∉ text) (rest : ByteString)
    : lineInt (text ++ cr :: rest)
        =
      if (cr :: rest).getLast? = some cr then numeral text else -1 := by
  unfold lineInt
  rw [takeWhile_append_cons h, List.getLast?_append_of_ne_nil _ (by simp)]

theorem toInt_line (a : ByteString) {c : UInt8} (hc : c ≠ cr) (line rest : ByteString)
    : toInt (a ++ (c :: line ++ lf :: rest)) (a.length + 1) (a.length + (c :: line).length)
        =
      .ok (lineInt line) := by
  have happend : a ++ (c :: line ++ lf :: rest) = (a ++ [c]) ++ (line ++ lf :: rest) := by simp
  have hlength : a.length + 1 = (a ++ [c]).length := by simp
  cases hlast : line.getLast? with
  | none =>
    -- the byte in front of the LF is `c` itself
    have hline : line = [] := by simpa using hlast
    have hderef := deref_pred (show (c :: line).getLast? = some c by simp [hline]) a (lf :: rest)
    unfold toInt
    rw [hderef, ok_bind, if_pos hc]
    simp [lineInt, hlast]
    rfl
  | some last =>
    have hderef := deref_pred (show (c :: line).getLast? = some last by
      rw [List.getLast?_cons, hlast]
      rfl) a (lf :: rest)
    unfold toInt
    rw [hderef, ok_bind]
    by_cases hcr : last = cr
    . subst hcr
      have hmem : cr ∈ line := List.mem_of_getLast? hlast
      rcases List.eq_append_cons_of_mem hmem with ⟨text, rest', hline, htext⟩
      have hgo := toInt.go_append_cons htext (a ++ [c]) (rest' ++ lf :: rest) 0
      have hrest : (cr :: rest').getLast? = some cr := by
        rw [hline, List.getLast?_append_of_ne_nil _ (by simp)] at hlast
        apply hlast
      rw [if_neg (by simp), happend, hlength, hline, lineInt_append_cons htext, if_pos hrest]
      simpa [numeral] using hgo
    . rw [if_pos hcr]
      unfold lineInt
      rw [hlast, if_neg (by simpa using hcr)]
      rfl

namespace parseArguments

theorem iteration_of_ne_dollar {h : CommandHandler} {a s : ByteString} {d : UInt8}
    (hs : h.commandString = a ++ d :: s) (hd : d ≠ dollar) (prevCommandOffset b e lfPtr : Nat)
    : iteration h prevCommandOffset b a.length e lfPtr = .ok (.break fresh) := by
  have hderef : deref h.commandString a.length = .ok d := by
    rw [hs, deref_append_cons]
  unfold iteration
  simp only [hderef, ok_bind, if_pos hd]
  rfl

theorem iteration_eq {h : CommandHandler} {a line rest : ByteString} {b : Nat}
    (hs : h.commandString = a ++ (dollar :: line ++ lf :: rest)) (hb : b ≤ a.length)
    : iteration h b b a.length h.commandString.length (a.length + (dollar :: line).length)
        =
      if lineInt line ≤ 0 then
        .ok (.break fresh)
      else if (rest.length : Int) < int32 (lineInt line + 2) then
        .ok (.break { h with lastArgumentLength := lineInt line })
      else if rest.length + 1 < (lineInt line).toNat + 2 then
        .error .outOfRange
      else if (rest.drop (lineInt line).toNat).take 2 = [cr, lf] then
        let next := rest.drop ((lineInt line).toNat + 2)
        .ok (.next
          { h with
              commandArguments := h.commandArguments ++ [rest.take (lineInt line).toNat]
              numberOfArgumentsLeft := h.numberOfArgumentsLeft - 1
              commandOffset := h.commandString.length - next.length
              lastArgumentLength := -1
          }
          (h.commandString.length - next.length))
      else
        .ok (.break fresh) := by
  have hderef : deref h.commandString a.length = .ok dollar := by
    rw [hs, List.cons_append, deref_append_cons]
  have htoInt : toInt h.commandString (a.length + 1) (a.length + (dollar :: line).length)
      = .ok (lineInt line) := by
    rw [hs]
    apply toInt_line
    decide
  have hsplit : h.commandString = (a ++ (dollar :: line ++ [lf])) ++ rest := by
    simp [hs]
  have hlfPtr : a.length + (dollar :: line).length + 1 = (a ++ (dollar :: line ++ [lf])).length := by
    simp
    omega
  have hlength : h.commandString.length = (a ++ (dollar :: line ++ [lf])).length + rest.length := by
    rw [hsplit, List.length_append]
  unfold iteration
  simp only [hderef, htoInt, ok_bind, ne_eq, not_true_eq_false, ↓reduceIte, reset_eq_fresh, hlfPtr]
  generalize hl : lineInt line = length
  generalize ha : a ++ (dollar :: line ++ [lf]) = consumed at *
  split
  . rfl
  . have hleft : (h.commandString.length : Int) - consumed.length = rest.length := by omega
    rw [hleft]
    split
    . rfl
    . split
      . rw [memcmp_out_of_range]
        . rfl
        . simp only [List.length_cons, List.length_nil]
          omega
      . have hmemcmp : memcmp h.commandString (consumed.length + length.toNat) [cr, lf]
            = .ok ((rest.drop length.toNat).take 2 == [cr, lf]) := by
          rw [memcmp_of_le _ (by decide) (by decide), hsplit, List.drop_length_add_append]
          . rfl
          . simp only [List.length_cons, List.length_nil]
            omega
        rw [hmemcmp]
        simp only [ok_bind, Bool.not_eq_true', beq_eq_false_iff_ne, ne_eq, ite_not]
        split
        . next hcrlf =>
          have hle : length.toNat + 2 ≤ rest.length := by
            have := congrArg List.length hcrlf
            simp only [List.length_take, List.length_drop, List.length_cons, List.length_nil] at this
            omega
          have hsub : substring h.commandString consumed.length length.toNat
              = .ok (rest.take length.toNat) := by
            rw [substring_of_le, hsplit, List.drop_left]
            omega
          have hoffset : consumed.length + length.toNat + 2
              = h.commandString.length - (rest.drop (length.toNat + 2)).length := by
            rw [List.length_drop]
            omega
          have hprev : b + (consumed.length + length.toNat + 2 - b)
              = h.commandString.length - (rest.drop (length.toNat + 2)).length := by
            omega
          simp only [hsub, ok_bind]
          rw [hprev, hoffset]
          rfl
        . rfl

theorem iteration_eq_scanBlock {h : CommandHandler} {a s line rest : ByteString} {b : Nat}
    (hs : h.commandString = a ++ s) (hsplit : splitLf s = some (line, rest)) (hb : b ≤ a.length)
    : iteration h b b a.length h.commandString.length (a.length + line.length)
        =
      match scanBlock s with
      | .noLine => .ok (.break h)
      | .noData length => .ok (.break { h with lastArgumentLength := length })
      | .rejected => .ok (.break fresh)
      | .fault => .error .outOfRange
      | .argument data rest =>
        .ok (.next
          { h with
              commandArguments := h.commandArguments ++ [data]
              numberOfArgumentsLeft := h.numberOfArgumentsLeft - 1
              commandOffset := h.commandString.length - rest.length
              lastArgumentLength := -1
          }
          (h.commandString.length - rest.length)) := by
  rcases splitLf_eq_some hsplit with ⟨hline, -⟩
  unfold scanBlock
  rw [hsplit]
  cases line with
  | nil =>
    have hlf : lf ≠ dollar := by decide
    rw [iteration_of_ne_dollar (by rw [hs, hline, List.nil_append]) hlf]
  | cons d line =>
    by_cases hd : d = dollar
    . subst hd
      rw [iteration_eq (by rw [hs, hline]) hb]
      simp only [ne_eq, not_true_eq_false, false_or]
      split_ifs <;> rfl
    . rw [iteration_of_ne_dollar (by rw [hs, hline, List.cons_append]) hd]
      simp [hd]

theorem go_of_memchr_none {h : CommandHandler} {c e : Nat} (hleft : h.numberOfArgumentsLeft ≠ 0)
    (hlf : memchr h.commandString lf c e = .ok none) (prevCommandOffset b : Nat)
    : go h prevCommandOffset b c e = .ok h := by
  rw [go, if_neg hleft]
  split
  . next hlf' => simp [hlf] at hlf'
  . rfl
  . next hlf' => simp [hlf] at hlf'

theorem go_of_memchr_some {h : CommandHandler} {c e lfPtr : Nat}
    (hleft : h.numberOfArgumentsLeft ≠ 0)
    (hlf : memchr h.commandString lf c e = .ok (some lfPtr)) (prevCommandOffset b : Nat)
    : go h prevCommandOffset b c e
        =
      match iteration h prevCommandOffset b c e lfPtr with
      | .error fault => .error fault
      | .ok (.break h) => .ok h
      | .ok (.next h c) => go h prevCommandOffset b c e := by
  rw [go, if_neg hleft]
  split
  . next hlf' => simp [hlf] at hlf'
  . next hlf' => simp [hlf] at hlf'
  . next hlf' =>
    rw [hlf] at hlf'
    injection hlf' with hlf'
    injection hlf' with hlf'
    subst hlf'
    split
    . next hiter => rw [hiter]
    . next hiter => rw [hiter]
    . next hiter => rw [hiter]

theorem toHandler_stopped {h : CommandHandler} {a s : ByteString} {left : Nat}
    (hs : h.commandString = a ++ s) (hoffset : h.commandOffset = a.length)
    (hleft : h.numberOfArgumentsLeft = left) (lastArgumentLength : Int)
    : (Scan.stopped left h.commandArguments lastArgumentLength s).toHandler h
        =
      .ok { h with lastArgumentLength := lastArgumentLength } := by
  have : h.commandString.length - s.length = h.commandOffset := by
    rw [hs, hoffset, List.length_append]
    omega
  simp only [Scan.toHandler, this, ← hleft]

theorem go_eq_scanArguments {left : Nat} {h : CommandHandler} {a s : ByteString} {b : Nat}
    (hs : h.commandString = a ++ s) (hoffset : h.commandOffset = a.length)
    (hleft : h.numberOfArgumentsLeft = left) (hb : b ≤ a.length)
    : go h b b a.length h.commandString.length
        =
      (scanArguments left h.commandArguments h.lastArgumentLength s).toHandler h := by
  induction left generalizing h a s with
  | zero =>
    rw [go, if_pos (by simpa using hleft), scanArguments, toHandler_stopped hs hoffset hleft]
  | succ left ih =>
    have hne : h.numberOfArgumentsLeft ≠ 0 := by omega
    unfold scanArguments
    cases hsplit : splitLf s with
    | none =>
      have hlf := memchr_not_mem a (splitLf_eq_none.mp hsplit)
      rw [← hs] at hlf
      have hblock : scanBlock s = .noLine := by simp [scanBlock, hsplit]
      rw [go_of_memchr_none hne hlf, hblock, toHandler_stopped hs hoffset hleft]
    | some split =>
      rcases split with ⟨line, rest⟩
      rcases splitLf_eq_some hsplit with ⟨hline, hmem⟩
      have hlf := memchr_append_cons a hmem rest
      rw [← hline, ← hs] at hlf
      rw [go_of_memchr_some hne hlf, iteration_eq_scanBlock hs hsplit hb]
      cases hblock : scanBlock s with
      | noLine => simp only [toHandler_stopped hs hoffset hleft]
      | noData length => simp only [toHandler_stopped hs hoffset hleft]
      | rejected => rfl
      | fault => rfl
      | argument data next =>
        rcases scanBlock_suffix hblock with ⟨block, hblock⟩
        have hs' : h.commandString = (a ++ block) ++ next := by
          rw [hs, ← hblock, List.append_assoc]
        have hlength : h.commandString.length - next.length = (a ++ block).length := by
          rw [hs', List.length_append]
          omega
        have hb' : b ≤ (a ++ block).length := by
          rw [List.length_append]
          omega
        dsimp only
        rw [hlength]
        refine Eq.trans (ih hs' rfl ?_ hb') ?_
        . simp only [hleft]
          omega
        . cases scanArguments left _ _ next with
          | fault => rfl
          | rejected => rfl
          | stopped => rfl

end parseArguments

theorem parseArguments_eq_scanArguments {left : Nat} {h : CommandHandler} {a s : ByteString}
    (hs : h.commandString = a ++ s) (hoffset : h.commandOffset = a.length)
    (hleft : h.numberOfArgumentsLeft = left)
    : h.parseArguments h.commandOffset h.commandString.length
        =
      match scanArguments left h.commandArguments h.lastArgumentLength s with
      | .fault => .error .outOfRange
      | .rejected => .ok (false, fresh)
      | .stopped left arguments lastArgumentLength rest =>
        .ok
          (
            left == 0,
            { h with
                commandOffset := h.commandString.length - rest.length
                numberOfArgumentsLeft := left
                lastArgumentLength := lastArgumentLength
                commandArguments := arguments
            }
          ) := by
  unfold parseArguments
  rw [hoffset, parseArguments.go_eq_scanArguments hs hoffset hleft (Nat.le_refl _)]
  split
  . next hscan => rw [hscan]; rfl
  . next hscan => rw [hscan]; rfl
  . next left arguments lastArgumentLength rest hscan =>
    rw [hscan]
    simp only [Scan.toHandler, ok_bind]
    have hbeq : ((left : Int) == 0) = (left == 0) := by
      rw [Bool.eq_iff_iff, beq_iff_eq, beq_iff_eq]
      omega
    rw [hbeq]
    rfl

theorem parseNumberOfArguments_eq {h : CommandHandler} {s : ByteString}
    (hs : h.commandString = star :: s) (hoffset : h.commandOffset = 0)
    : h.parseNumberOfArguments 0 h.commandString.length
        =
      match splitLf (star :: s) with
      | none => .ok (none, { h with type := .multiBulk })
      | some (line, rest) =>
        let number := lineInt line.tail
        if number ≤ 0 then
          .ok (none, fresh)
        else
          .ok
            (
              some (h.commandString.length - rest.length),
              { h with
                  type := .multiBulk
                  numberOfArguments := number
                  numberOfArgumentsLeft := number
                  commandOffset := h.commandString.length - rest.length
              }
            ) := by
  unfold parseNumberOfArguments
  split
  . next hsplit =>
    have hlf := memchr_not_mem [] (splitLf_eq_none.mp hsplit)
    rw [List.nil_append, ← hs] at hlf
    simp only [List.length_nil] at hlf
    simp only [hlf, ok_bind]
    rfl
  . next line rest hsplit =>
    rcases splitLf_eq_some hsplit with ⟨hline, hmem⟩
    cases line with
    | nil =>
      injection hline with hline _
      exact absurd hline (by decide)
    | cons c line =>
      have hlf := memchr_append_cons [] hmem rest
      rw [← hline, List.nil_append, ← hs] at hlf
      have hc : c = star := by
        injection hline with hc _
        apply hc.symm
      subst hc
      have htoInt := toInt_line [] (show star ≠ cr by decide) line rest
      rw [← hline, List.nil_append, ← hs] at htoInt
      have hderef : deref h.commandString (0 : Nat) = .ok star := by
        rw [hs]
        apply deref_append_cons [] star s
      simp only [List.length_nil, Nat.zero_add] at hlf htoInt
      simp only [hlf, htoInt, hderef, ok_bind, ne_eq, not_true_eq_false, ↓reduceIte, reset_eq_fresh,
        List.tail_cons, Nat.zero_add]
      by_cases hnumber : lineInt line ≤ 0
      . simp only [hnumber, ↓reduceIte]
        rfl
      . have : h.commandString.length - rest.length = (star :: line).length + 1 := by
          rw [hs, hline]
          simp
          omega
        simp only [hnumber, ↓reduceIte, this, hoffset, Nat.zero_add, Nat.sub_zero]
        rfl

end CommandHandler
