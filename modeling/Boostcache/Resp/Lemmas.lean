import Boostcache.Resp.Basic

namespace Resp

open Cpp

section Decimal

theorem toNat_ofNat_digit {d : Nat} (h : d < 10) : (UInt8.ofNat (48 + d)).toNat = 48 + d := by
  rw [UInt8.toNat_ofNat']
  omega

theorem isDigit_ofNat {d : Nat} (h : d < 10) : isDigit (UInt8.ofNat (48 + d)) = true := by
  unfold isDigit
  rw [toNat_ofNat_digit h]
  simp
  omega

theorem decimal_digits (n : Nat) : ∀ c ∈ decimal n, isDigit c = true := by
  induction n using decimal.induct with
  | case1 n h =>
    unfold decimal
    rw [if_pos h]
    intro c hc
    rw [List.mem_singleton.mp hc]
    apply isDigit_ofNat h
  | case2 n h ih =>
    unfold decimal
    rw [if_neg h]
    intro c hc
    rcases List.mem_append.mp hc with hc | hc
    . apply ih c hc
    . rw [List.mem_singleton.mp hc]
      apply isDigit_ofNat (by omega)

theorem decimal_ne_nil (n : Nat) : decimal n ≠ [] := by
  unfold decimal
  split <;> simp

theorem value_append_singleton (t : ByteString) (c : UInt8)
    : value (t ++ [c]) = value t * 10 + (c.toNat - 48) := by
  simp [value]

@[simp]
theorem value_decimal (n : Nat) : value (decimal n) = n := by
  induction n using decimal.induct with
  | case1 n h =>
    unfold decimal
    rw [if_pos h]
    simp only [value, List.foldl_cons, List.foldl_nil]
    rw [toNat_ofNat_digit h]
    omega
  | case2 n h ih =>
    unfold decimal
    rw [if_neg h, value_append_singleton, ih, toNat_ofNat_digit (by omega)]
    omega

theorem not_mem_of_isDigit {t : ByteString} {c : UInt8} (h : ∀ c ∈ t, isDigit c = true)
    (hc : isDigit c = false) : c ∉ t := by
  intro hmem
  have := h c hmem
  simp [hc] at this

end Decimal

section Lines

theorem not_infix_of_not_mem {t : ByteString} (h : lf ∉ t) : ¬ crlf <:+: t := by
  intro hin
  apply h
  apply hin.subset
  decide

theorem takeLine_append (line rest : ByteString) (h : ¬ crlf <:+: line)
    : takeLine (line ++ crlf ++ rest) = some (line, rest) := by
  induction line with
  | nil => simp [crlf, takeLine]
  | cons c line ih =>
    have hline : ¬ crlf <:+: line := by
      intro hin
      apply h (hin.trans (List.infix_cons (List.infix_refl line)))
    specialize ih hline
    cases line with
    | nil =>
      have hne : ¬ (c = cr ∧ cr = lf) := by
        rintro ⟨_, h⟩
        exact absurd h (by decide)
      simp only [crlf, List.cons_append, List.nil_append] at ih ⊢
      unfold takeLine
      rw [if_neg hne, ih]
      rfl
    | cons d line =>
      have hne : ¬ (c = cr ∧ d = lf) := by
        rintro ⟨rfl, rfl⟩
        apply h
        exact (List.prefix_append crlf line).isInfix
      simp only [List.cons_append] at ih ⊢
      unfold takeLine
      rw [if_neg hne, ih]
      rfl

theorem takeLine_eq_some {s line rest : ByteString} (h : takeLine s = some (line, rest))
    : s = line ++ crlf ++ rest ∧ ¬ crlf <:+: line := by
  induction s using takeLine.induct generalizing line rest with
  | case1 c d s hc =>
    unfold takeLine at h
    rw [if_pos hc] at h
    obtain ⟨rfl, rfl⟩ := hc
    simp only [Option.some.injEq, Prod.mk.injEq] at h
    obtain ⟨rfl, rfl⟩ := h
    simp [crlf]
  | case2 c d s hc ih =>
    unfold takeLine at h
    rw [if_neg hc] at h
    obtain ⟨⟨line', rest'⟩, hrec, heq⟩ := Option.map_eq_some_iff.mp h
    simp only [Prod.mk.injEq] at heq
    obtain ⟨rfl, rfl⟩ := heq
    obtain ⟨hs, hno⟩ := ih hrec
    refine ⟨by simp [hs], ?_⟩
    intro hin
    rcases List.infix_cons_iff.mp hin with hpre | hin
    . obtain ⟨tail, htail⟩ := hpre
      simp only [crlf, List.cons_append, List.nil_append, List.cons.injEq] at htail
      obtain ⟨rfl, rfl⟩ := htail
      simp only [crlf, List.cons_append, List.cons.injEq] at hs
      apply hc ⟨rfl, hs.1⟩
    . apply hno hin
  | case3 s hs =>
    unfold takeLine at h
    split at h
    . next c d s => exact absurd rfl (hs c d s)
    . simp at h

end Lines

section Replies

theorem decimal_ne_minus_one (n : Nat) : decimal n ≠ literal "-1" := by
  intro h
  have := decimal_digits n 45 (by rw [h]; decide)
  simp [isDigit] at this

theorem not_crlf_infix_decimal (n : Nat) : ¬ crlf <:+: decimal n := by
  apply not_infix_of_not_mem
  apply not_mem_of_isDigit (decimal_digits n) (by decide)

theorem takeBulk_append (data rest : ByteString)
    : takeBulk data.length (data ++ crlf ++ rest) = some (.bulk data, rest) := by
  have h1 : data ++ crlf ++ rest = data ++ (crlf ++ rest) := by simp
  have h2 : data.length + 2 = (data ++ crlf).length := by simp [crlf]
  unfold takeBulk
  rw [h1, List.drop_left, List.take_left, if_pos (by simp [crlf]), ← h1, h2, List.drop_left]

theorem decode_cons (c : UInt8) {line : ByteString} (h : ¬ crlf <:+: line) (rest : ByteString)
    : decode (c :: (line ++ crlf ++ rest)) = decodeLine c line rest := by
  unfold decode
  simp only [takeLine_append line rest h]

theorem isReply_bulk (data : ByteString) : IsReply (block data) (.bulk data) := by
  intro rest
  have hs : block data ++ rest
      = 36 :: (decimal data.length ++ crlf ++ (data ++ crlf ++ rest)) := by
    simp [block, literal]
  have hdigits : (decimal data.length).all isDigit = true := by
    simpa using decimal_digits data.length
  rw [hs, decode_cons _ (not_crlf_infix_decimal _)]
  unfold decodeLine
  rw [if_neg (by decide), if_neg (by decide), if_neg (by decide), if_pos (by decide),
    if_neg (decimal_ne_minus_one _), if_pos ⟨decimal_ne_nil _, hdigits⟩, value_decimal,
    takeBulk_append]

theorem isReply_encode (reply : Reply) (h : reply.WellFormed) : IsReply reply.encode reply := by
  intro rest
  cases reply with
  | status line => apply decode_cons 43 h rest
  | error line => apply decode_cons 45 h rest
  | integer line => apply decode_cons 58 h rest
  | bulk data => apply isReply_bulk data rest
  | nil =>
    have hline : ¬ crlf <:+: literal "-1" := by decide
    apply decode_cons 36 hline rest

theorem crlf_infix_append_left {a : ByteString} (h : cr ∉ a) (s : ByteString)
    : crlf <:+: a ++ s ↔ crlf <:+: s := by
  induction a with
  | nil => rfl
  | cons c a ih =>
    simp only [List.mem_cons, not_or] at h
    rw [List.cons_append, List.infix_cons_iff, ih h.2]
    simp [crlf, h.1]

theorem crlf_infix_append_right {b : ByteString} (h : lf ∉ b) (s : ByteString)
    : crlf <:+: s ++ b ↔ crlf <:+: s := by
  induction s with
  | nil =>
    rw [List.nil_append]
    apply iff_of_false
    . apply not_infix_of_not_mem h
    . decide
  | cons c s ih =>
    rw [List.cons_append, List.infix_cons_iff, List.infix_cons_iff, ih]
    have hpref : crlf <+: c :: (s ++ b) ↔ crlf <+: c :: s := by
      cases s with
      | cons d s => simp [crlf]
      | nil =>
        cases b with
        | nil => rfl
        | cons d b =>
          simp only [List.mem_cons, not_or] at h
          simp [crlf, h.1]
    rw [hpref]

theorem isReply_error_iff (line : ByteString)
    : (∃ reply, IsReply (literal "-" ++ line ++ crlf) reply) ↔ ¬ crlf <:+: line := by
  constructor
  . intro h
    rcases h with ⟨reply, hreply⟩
    have hdecode : decode (45 :: (line ++ crlf)) = some (reply, []) := by
      have := hreply []
      rwa [List.append_nil, List.append_assoc] at this
    unfold decode at hdecode
    split at hdecode
    . contradiction
    . next hcons =>
      injection hcons with hc hs
      subst hc hs
      split at hdecode
      . contradiction
      . next line' rest htake =>
        have hrest : rest = [] := by
          injection hdecode with hdecode
          injection hdecode
        rcases takeLine_eq_some htake with ⟨happend, hline'⟩
        rw [hrest, List.append_nil, List.append_cancel_right_eq] at happend
        rwa [happend]
  . intro h
    exact ⟨_, isReply_encode (.error line) h⟩

/--
If every string that is written is exactly one reply, the `k`-th reply that is read is the `k`-th
reply that was written.
-/
theorem decodeMany_flatten {strings : List ByteString} {replies : List Reply}
    (h : List.Forall₂ IsReply strings replies) (rest : ByteString)
    : decodeMany strings.length (strings.flatten ++ rest) = some (replies, rest) := by
  induction h with
  | nil => rfl
  | cons hhead _ ih =>
    simp only [List.length_cons, List.flatten_cons, List.append_assoc]
    unfold decodeMany
    simp only [hhead _, ih]
    rfl

end Replies

end Resp
