import Boostcache.Kernel.CommandHandler.Scan

/-!
The inline half of the parser: `split` computes `words` of the line without its line separator. The
byte in front of the line separator is read even if the line separator is the first byte of the
buffer.
-/

open Cpp

namespace CommandHandler

namespace split

theorem trim_of_deref {s : ByteString} {found : Nat} {c : UInt8} (hc : deref s found = .ok c)
    (delimiter : UInt8)
    : trim s delimiter found
        =
      if c = delimiter then trim s delimiter (found + 1) else .ok found := by
  rw [trim]
  split
  . next hc' => simp [hc] at hc'
  . next hc' =>
    rw [hc] at hc'
    injection hc' with hc'
    rw [hc']

theorem trim_append_cons {c delimiter : UInt8} (hc : c ≠ delimiter) (a t rest : ByteString)
    : trim (a ++ (t ++ c :: rest)) delimiter a.length
        =
      .ok (a.length + t.length - (t.dropWhile (· == delimiter)).length) := by
  induction t generalizing a with
  | nil =>
    rw [List.nil_append, trim_of_deref (deref_append_cons ..), if_neg hc]
    simp
  | cons d t ih =>
    have happend : a ++ (d :: t ++ c :: rest) = (a ++ [d]) ++ (t ++ c :: rest) := by simp
    have hlength : a.length + 1 = (a ++ [d]).length := by simp
    rw [List.cons_append, trim_of_deref (deref_append_cons ..), ← List.cons_append,
      List.dropWhile_cons]
    by_cases hd : d = delimiter
    . rw [if_pos hd, happend, hlength, ih, if_pos (by simpa using hd)]
      simp only [List.length_append, List.length_cons, List.length_nil]
      congr 2
      omega
    . rw [if_neg hd, if_neg (by simpa using hd)]
      simp

theorem memchr_range (a t rest : ByteString) (c : UInt8)
    : memchr (a ++ (t ++ rest)) c a.length (a.length + t.length)
        =
      .ok ((t.idxOf? c).map (a.length + ·)) := by
  unfold memchr
  rw [readRange_append]
  rfl

theorem getD_idxOf? (t : ByteString) (c : UInt8) (n : Nat)
    : ((t.idxOf? c).map (n + ·)).getD (n + t.length) = n + (t.takeWhile (· != c)).length := by
  by_cases hmem : c ∈ t
  . rcases List.eq_append_cons_of_mem hmem with ⟨w, r, ht, hw⟩
    rw [ht, idxOf?_append_cons hw, takeWhile_append_cons hw]
    rfl
  . rw [List.idxOf?_eq_none_iff.mpr hmem, takeWhile_of_not_mem hmem]
    rfl

theorem nextWord_suffix (line : ByteString) : nextWord line <:+ line := by
  unfold nextWord
  apply List.IsSuffix.trans (List.dropWhile_suffix _) (List.dropWhile_suffix _)

theorem word_eq {c : UInt8} (hc : c ≠ space) (a t rest : ByteString)
    : word (a ++ (t ++ c :: rest)) a.length (a.length + t.length) space
        =
      .ok (t.takeWhile (· != space), a.length + t.length - (nextWord t).length) := by
  unfold word
  rw [memchr_range, ok_bind, getD_idxOf?]
  generalize hw : t.takeWhile (· != space) = w
  generalize hr : t.dropWhile (· != space) = r
  have ht : t = w ++ r := by
    rw [← hw, ← hr, List.takeWhile_append_dropWhile]
  have hsub : substring (a ++ (t ++ c :: rest)) a.length w.length = .ok w := by
    rw [ht, List.append_assoc, substring_append]
  have htrim := trim_append_cons hc (a ++ w) r rest
  have happend : a ++ w ++ (r ++ c :: rest) = a ++ (t ++ c :: rest) := by
    simp [ht]
  rw [happend, List.length_append] at htrim
  dsimp only
  rw [Nat.add_sub_cancel_left, hsub, ok_bind, htrim, ok_bind]
  unfold nextWord
  rw [hr, ht, List.length_append, Nat.add_assoc]
  rfl

end split

theorem split_of_word {s : ByteString} {b e found : Nat} {delimiter : UInt8}
    {argument : ByteString} (hword : split.word s b e delimiter = .ok (argument, found))
    (destination : Arguments)
    : split s b e delimiter destination
        =
      if found = e then
        .ok (destination ++ [argument])
      else
        split s found e delimiter (destination ++ [argument]) := by
  rw [split]
  split
  . next hword' => simp [hword] at hword'
  . next hword' =>
    rw [hword] at hword'
    injection hword' with hword'
    injection hword' with hargument hfound
    rw [hargument, hfound]
    split
    . rfl
    . rfl

theorem split_eq_words {c : UInt8} (hc : c ≠ space) (a t rest : ByteString)
    (destination : Arguments)
    : split (a ++ (t ++ c :: rest)) a.length (a.length + t.length) space destination
        =
      .ok (destination ++ words t) := by
  induction t using words.induct generalizing a destination with
  | case1 t hnext =>
    rw [split_of_word (split.word_eq hc a t rest), words]
    simp [hnext]
  | case2 t hnext ih =>
    rw [split_of_word (split.word_eq hc a t rest), words]
    rcases split.nextWord_suffix t with ⟨consumed, ht⟩
    have hlength : 0 < (nextWord t).length := List.length_pos_iff.mpr hnext
    have hlengtht : t.length = consumed.length + (nextWord t).length := by
      rw [← List.length_append, ht]
    have happend : a ++ (t ++ c :: rest) = (a ++ consumed) ++ (nextWord t ++ c :: rest) := by
      rw [List.append_assoc, ← List.append_assoc consumed, ht]
    have hfound : a.length + t.length - (nextWord t).length = (a ++ consumed).length := by
      rw [List.length_append]
      omega
    have he : a.length + t.length = (a ++ consumed).length + (nextWord t).length := by
      rw [List.length_append]
      omega
    rw [if_neg (by omega), hfound, happend, he, ih, dif_neg hnext]
    simp

theorem words_eq_cons (line : ByteString)
    : ∃ tail, words line = line.takeWhile (· != space) :: tail := by
  unfold words
  split
  . exact ⟨_, rfl⟩
  . exact ⟨_, rfl⟩

theorem words_of_not_mem {line : ByteString} (h : space ∉ line) : words line = [line] := by
  have htake := takeWhile_of_not_mem h
  have hdrop : line.dropWhile (· != space) = [] := by
    have := List.takeWhile_append_dropWhile (p := (· != space)) (l := line)
    rw [htake] at this
    simpa using this
  unfold words
  rw [dif_pos (by simp [nextWord, hdrop]), htake]

theorem trimCr_append_cr (line : ByteString) : trimCr (line ++ [cr]) = line := by
  unfold trimCr
  rw [List.getLast?_concat, if_pos rfl, List.dropLast_concat]

theorem split_trimCr (t rest : ByteString) (ht : t ≠ [])
    : (do
        let last ← deref (t ++ lf :: rest) ((t.length : Int) - 1)
        let lfPtr := if last = cr then t.length - 1 else t.length
        split (t ++ lf :: rest) 0 lfPtr space [])
        =
      .ok (words (trimCr t)) := by
  cases hlast : t.getLast? with
  | none => simp_all
  | some last =>
    have hderef := deref_pred hlast [] (lf :: rest)
    simp only [List.nil_append, List.length_nil, Nat.zero_add] at hderef
    rw [hderef, ok_bind]
    unfold trimCr
    by_cases hcr : last = cr
    . subst hcr
      rcases List.getLast?_eq_some_iff.mp hlast with ⟨init, rfl⟩
      have := split_eq_words (show cr ≠ space by decide) [] init (lf :: rest) []
      simpa using this
    . have := split_eq_words (show lf ≠ space by decide) [] t rest []
      rw [hlast, if_neg hcr, if_neg (by simpa using hcr)]
      simpa using this

theorem parseInline_no_lf {h : CommandHandler} (hlf : lf ∉ h.commandString)
    : h.parseInline 0 h.commandString.length = .ok (false, { h with type := .inline }) := by
  have := memchr_not_mem [] hlf
  simp only [List.nil_append, List.length_nil] at this
  unfold parseInline
  simp only [this, ok_bind]
  rfl

theorem parseInline_lf {h : CommandHandler} {rest : ByteString}
    (hs : h.commandString = lf :: rest)
    : h.parseInline 0 h.commandString.length = .error .outOfRange := by
  have := memchr_append_cons [] (show lf ∉ [] by simp) rest
  simp only [List.nil_append, List.length_nil, ← hs] at this
  unfold parseInline
  simp [this]

theorem parseInline_line {h : CommandHandler} {t rest : ByteString}
    (hs : h.commandString = t ++ lf :: rest) (hlf : lf ∉ t) (ht : t ≠ [])
    (harguments : h.commandArguments = [])
    : h.parseInline 0 h.commandString.length
        =
      .ok
        (
          (words (trimCr t)).head? != some [],
          { h with
              type := .inline
              commandOffset := h.commandOffset + t.length
              commandArguments := words (trimCr t)
          }
        ) := by
  have hmem := memchr_append_cons [] hlf rest
  have hsplit := split_trimCr t rest ht
  simp only [List.nil_append, List.length_nil, Nat.zero_add, ← hs] at hmem hsplit
  rcases bind_eq_ok.mp hsplit with ⟨last, hlast, hsplit⟩
  unfold parseInline
  simp only [hmem, ok_bind, hlast, hsplit, harguments, Nat.sub_zero]
  rcases words_eq_cons (trimCr t) with ⟨tail, hwords⟩
  rw [hwords]
  cases (trimCr t).takeWhile (· != space) with
  | nil => rfl
  | cons c word => rfl

end CommandHandler
