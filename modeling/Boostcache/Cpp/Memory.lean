import Mathlib.Algebra.Ring.Int.Defs
import Mathlib.Algebra.Ring.Nat
import Mathlib.Data.List.Basic

/-!
This module contains the part of C++ that a hand written scanner over a `std::string` relies on:
reading through a pointer into the buffer of the string, `memchr` and `memcmp` on such pointers,
32 bit `int` arithmetic, `char` as a signed type and what is left of a string that is handed on as a
C string.

A pointer into the buffer is the index of the byte it points to. `c_str()` guarantees a NUL behind
the last byte, so the indices `0` to `size()` may be read. A read anywhere else is undefined
behaviour and modelled as a `Fault`, and so is following an iterator or a pointer to an element that
is not there.
-/

abbrev ByteString := List UInt8

namespace Cpp

inductive Fault where
  | outOfRange
  | dangling
  | nullPointer
  deriving DecidableEq, Repr

abbrev nul : UInt8 := 0
abbrev lf : UInt8 := 10
abbrev cr : UInt8 := 13
abbrev space : UInt8 := 32

def literal (s : String) : ByteString :=
  s.toList.map (fun c => UInt8.ofNat c.toNat)

-- `v[i]`, `std::vector` does not check the index.
def subscript {α : Type} (v : List α) (i : Nat) : Except Fault α :=
  match v[i]? with
  | some x => .ok x
  | none => .error .outOfRange

def deref (s : ByteString) (p : Int) : Except Fault UInt8 :=
  if p < 0 then
    .error .outOfRange
  else
    match (s ++ [nul])[p.toNat]? with
    | some c => .ok c
    | none => .error .outOfRange

def readRange (s : ByteString) (b e : Nat) : Except Fault ByteString :=
  if b ≤ e ∧ e ≤ s.length + 1 then
    .ok (((s ++ [nul]).take e).drop b)
  else
    .error .outOfRange

-- `memchr(b, c, e - b)`, if `e` is in front of `b` the difference is a huge `size_t`.
def memchr (s : ByteString) (c : UInt8) (b e : Nat) : Except Fault (Option Nat) := do
  let bytes ← readRange s b e
  return (bytes.idxOf? c).map (b + ·)

-- `memcmp(p, other, other.size()) == 0`, not only the bytes up to the first difference are read.
def memcmp (s : ByteString) (p : Nat) (other : ByteString) : Except Fault Bool := do
  let bytes ← readRange s p (p + other.length)
  return bytes == other

def substring (s : ByteString) (p n : Nat) : Except Fault ByteString :=
  readRange s p (p + n)

-- `std::string(s.c_str())`
def cStr (s : ByteString) : ByteString :=
  s.takeWhile (· != nul)

def int32 (x : Int) : Int :=
  (x + 2 ^ 31) % 2 ^ 32 - 2 ^ 31

def char (c : UInt8) : Int :=
  if c.toNat < 128 then c.toNat else (c.toNat : Int) - 256

theorem int32_of_range {x : Int} (h1 : -2 ^ 31 ≤ x) (h2 : x < 2 ^ 31) : int32 x = x := by
  unfold int32
  omega

theorem int32_lt (x : Int) : int32 x < 2 ^ 31 := by
  unfold int32
  omega

theorem int32_int32_add (x y : Int) : int32 (int32 x + y) = int32 (x + y) := by
  unfold int32
  omega

@[simp]
theorem ok_bind {α β : Type} (a : α) (f : α → Except Fault β)
    : (Except.ok a >>= f) = f a := by
  rfl

@[simp]
theorem error_bind {α β : Type} (e : Fault) (f : α → Except Fault β)
    : ((Except.error e : Except Fault α) >>= f) = .error e := by
  rfl

theorem bind_eq_ok {α β : Type} {x : Except Fault α} {f : α → Except Fault β} {r : β}
    : (x >>= f) = .ok r ↔ ∃ a, x = .ok a ∧ f a = .ok r := by
  cases x with
  | error => simp
  | ok => simp

theorem deref_le_length {s : ByteString} {p : Nat} {c : UInt8} (h : deref s p = .ok c)
    : p ≤ s.length := by
  unfold deref at h
  split at h
  . simp at h
  . split at h
    . next heq =>
      obtain ⟨hlt, _⟩ := List.getElem?_eq_some_iff.mp heq
      simp only [Int.toNat_natCast, List.length_append, List.length_singleton] at hlt
      omega
    . simp at h

@[simp]
theorem deref_append_cons (a : ByteString) (c : UInt8) (rest : ByteString)
    : deref (a ++ c :: rest) a.length = .ok c := by
  simp [deref]

@[simp]
theorem deref_length (s : ByteString) : deref s s.length = .ok nul := by
  simp [deref]

theorem deref_pred {t : ByteString} {c : UInt8} (h : t.getLast? = some c) (a rest : ByteString)
    : deref (a ++ (t ++ rest)) (((a.length + t.length : Nat) : Int) - 1) = .ok c := by
  rcases List.getLast?_eq_some_iff.mp h with ⟨init, rfl⟩
  have happend : a ++ (init ++ [c] ++ rest) = (a ++ init) ++ c :: rest := by simp
  have hindex : ((a.length + (init ++ [c]).length : Nat) : Int) - 1 = (a ++ init).length := by
    simp only [List.length_append, List.length_singleton]
    omega
  rw [happend, hindex, deref_append_cons]

@[simp]
theorem deref_neg_one (s : ByteString) : deref s (-1) = .error .outOfRange := by
  simp [deref]

@[simp]
theorem readRange_append (a t rest : ByteString)
    : readRange (a ++ (t ++ rest)) a.length (a.length + t.length) = .ok t := by
  unfold readRange
  have h1 : a.length ≤ a.length + t.length := by omega
  have h2 : a.length + t.length ≤ (a ++ (t ++ rest)).length + 1 := by
    simp
    omega
  have h3 : a ++ (t ++ rest) ++ [nul] = (a ++ t) ++ (rest ++ [nul]) := by simp
  rw [if_pos ⟨h1, h2⟩, h3, ← List.length_append, List.take_left, List.drop_left]

theorem readRange_to_end (a t : ByteString)
    : readRange (a ++ t) a.length (a ++ t).length = .ok t := by
  have := readRange_append a t []
  simpa using this

theorem readRange_out_of_range {s : ByteString} {b e : Nat} (h : s.length + 1 < e)
    : readRange s b e = .error .outOfRange := by
  unfold readRange
  rw [if_neg]
  omega

theorem idxOf?_append_cons {c : UInt8} {t : ByteString} (h : c ∉ t) (rest : ByteString)
    : (t ++ c :: rest).idxOf? c = some t.length := by
  induction t with
  | nil => simp [List.idxOf?_cons]
  | cons b t ih =>
    simp only [List.mem_cons, not_or] at h
    rw [List.cons_append, List.idxOf?_cons, ih h.2]
    have : (b == c) = false := by simpa using Ne.symm h.1
    simp [this]

theorem memchr_append_cons (a : ByteString) {c : UInt8} {t : ByteString} (h : c ∉ t)
    (rest : ByteString)
    : memchr (a ++ (t ++ c :: rest)) c a.length (a ++ (t ++ c :: rest)).length
        =
      .ok (some (a.length + t.length)) := by
  unfold memchr
  rw [readRange_to_end]
  simp [idxOf?_append_cons h]

theorem memchr_not_mem (a : ByteString) {c : UInt8} {t : ByteString} (h : c ∉ t)
    : memchr (a ++ t) c a.length (a ++ t).length = .ok none := by
  unfold memchr
  rw [readRange_to_end]
  simp [List.idxOf?_eq_none_iff.mpr h]

theorem memchr_le {s : ByteString} {c : UInt8} {b e : Nat} {res : Option Nat}
    (h : memchr s c b e = .ok res)
    : b ≤ e := by
  unfold memchr readRange at h
  split at h
  . omega
  . simp at h

theorem memchr_eq_some {s : ByteString} {c : UInt8} {b e i : Nat}
    (h : memchr s c b e = .ok (some i))
    : b ≤ i ∧ i < e ∧ deref s i = .ok c := by
  unfold memchr readRange at h
  split at h
  . next hrange =>
    simp only [ok_bind] at h
    injection h with h
    rcases Option.map_eq_some_iff.mp h with ⟨j, hj, rfl⟩
    rcases List.idxOf?_eq_some_iff.mp hj with ⟨hlt, hget, -⟩
    simp only [List.getElem_drop, List.getElem_take] at hget
    simp only [List.length_drop, List.length_take, List.length_append,
      List.length_singleton] at hlt
    refine ⟨by omega, by omega, ?_⟩
    have hget' : (s ++ [nul])[b + j]? = some c := by
      rw [← hget]
      apply List.getElem?_eq_getElem
    unfold deref
    rw [if_neg (by omega), Int.toNat_natCast, hget']
  . simp at h

theorem readRange_add_of_le {s : ByteString} {p n : Nat} (h : p + n ≤ s.length)
    : readRange s p (p + n) = .ok ((s.drop p).take n) := by
  unfold readRange
  rw [if_pos (by omega), List.take_append_of_le_length h, List.drop_take, Nat.add_sub_cancel_left]

theorem memcmp_of_le {s : ByteString} {p : Nat} {other : ByteString}
    (h : p + other.length ≤ s.length + 1) (hother : other ≠ []) (hnul : nul ∉ other)
    : memcmp s p other = .ok ((s.drop p).take other.length == other) := by
  unfold memcmp
  by_cases hle : p + other.length ≤ s.length
  . rw [readRange_add_of_le hle]
    rfl
  . -- the terminating NUL is the last byte of the range and cannot be equal to a byte of `other`
    have hread : readRange s p (p + other.length) = .ok ((s ++ [nul]).drop p) := by
      unfold readRange
      rw [if_pos (by omega), List.take_of_length_le]
      simp only [List.length_append, List.length_singleton]
      omega
    have hlength : 0 < other.length := List.length_pos_iff.mpr hother
    have hne1 : ((s ++ [nul]).drop p == other) = false := by
      rw [List.drop_append_of_le_length (by omega), beq_eq_false_iff_ne]
      intro heq
      apply hnul
      rw [← heq]
      simp
    have hne2 : ((s.drop p).take other.length == other) = false := by
      rw [beq_eq_false_iff_ne]
      intro heq
      have := congrArg List.length heq
      simp only [List.length_take, List.length_drop] at this
      omega
    rw [hread, hne2, ← hne1]
    rfl

theorem memcmp_out_of_range {s : ByteString} {p : Nat} {other : ByteString}
    (h : s.length + 1 < p + other.length)
    : memcmp s p other = .error .outOfRange := by
  unfold memcmp
  rw [readRange_out_of_range h]
  rfl

@[simp]
theorem substring_append (a t rest : ByteString)
    : substring (a ++ (t ++ rest)) a.length t.length = .ok t := by
  unfold substring
  apply readRange_append

theorem substring_of_le {s : ByteString} {p n : Nat} (h : p + n ≤ s.length)
    : substring s p n = .ok ((s.drop p).take n) := by
  unfold substring
  apply readRange_add_of_le h

end Cpp
