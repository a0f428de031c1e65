import Boostcache.Db.Lemmas.AvlTree
import Boostcache.Db.Lemmas.HashTable

/-!
`foreach` assigns every result before the next entry is visited, so what a user function that throws
leaves behind depends on the calls in front of the one that threw.
-/

open Cpp CommandHandler JsVm

namespace JsVm

variable {ρ α : Type}

/--
Either the script fails, or no call throws, or every call in front of the one that throws returns
the value it was called with.
-/
def Harmless (v8 : V8 ρ) (access : Access α) (code : ByteString) (xs : List α) : Prop :=
  ∀ vm, init v8 code = some vm → none ∈ results v8 access vm xs
    → ∀ p ∈ xs.zip (results v8 access vm xs), p.2 = none ∨ p.2 = some (access.value p.1)

theorem harmless_iff_forEach (v8 : V8 ρ) (access : Access α) (code : ByteString) (xs : List α)
    : Harmless v8 access code xs
        ↔
      ∀ vm, init v8 code = some vm → (forEach v8 access vm xs).1 = false
        → (forEach v8 access vm xs).2 = xs := by
  unfold Harmless
  simp only [forEach_fst_eq_false, forEach_snd_eq_self]

end JsVm

namespace Db

variable {ρ : Type}

theorem ite_eq_replyError {done : Bool}
    : (if done then replyTrue else replyError) = replyError ↔ done = false := by
  cases done with
  | true => decide
  | false => decide

theorem HashTable.foreach_harmless (v8 : V8 ρ) (t : HashTable) (name code : ByteString)
    : (∀ t', t.foreach v8 [name, code] = .ok (t', replyError)
        → ∀ key, t'.table.lookup key = t.table.lookup key)
        ↔
      Harmless v8 access code t.table.entries := by
  rw [harmless_iff_forEach, foreach_eq]
  cases init v8 code with
  | none =>
    constructor
    . intro _ vm hvm
      contradiction
    . intro _ t' ht' key
      injection ht' with ht'
      injection ht' with ht'
      rw [ht']
  | some vm =>
    simp only [Except.ok.injEq, Prod.mk.injEq, ite_eq_replyError, Option.some.injEq, forall_eq']
    constructor
    . intro h hdone
      have hlookup := h _ ⟨rfl, hdone⟩
      apply entries_eq _ t.table.nodupKeys
      . apply hlookup
      . apply forEach_map v8 access access.key_assign vm t.table.entries
    . intro h t' ht' key
      rw [← ht'.1]
      show (forEach v8 access vm t.table.entries).2.dlookup key = t.table.entries.dlookup key
      rw [h ht'.2]

def AvlTree.bindings {boost : Boost} (t : AvlTree boost) : List (Key × Value) :=
  t.nodes.map (fun e => (e.2.key, e.2.value))

theorem AvlTree.foreach_harmless {boost : Boost} (v8 : V8 ρ) (t : AvlTree boost)
    (name code : ByteString)
    : (∀ t', t.foreach v8 [name, code] = .ok (t', replyError) → t'.bindings = t.bindings)
        ↔
      Harmless v8 access code t.nodes := by
  rw [harmless_iff_forEach, foreach_eq]
  cases init v8 code with
  | none =>
    constructor
    . intro _ vm hvm
      contradiction
    . intro _ t' ht'
      injection ht' with ht'
      injection ht' with ht'
      rw [ht']
  | some vm =>
    simp only [Except.ok.injEq, Prod.mk.injEq, ite_eq_replyError, Option.some.injEq, forall_eq']
    constructor
    . intro h hdone
      apply forEach_eq_self_of_bindings
      apply h _ ⟨rfl, hdone⟩
    . intro h t' ht'
      rw [← ht'.1]
      unfold bindings
      dsimp only
      rw [h ht'.2]

theorem foreach_error (v8 : V8 ρ) (name code : ByteString)
    : (∀ t : HashTable,
        (∀ t', t.foreach v8 [name, code] = .ok (t', replyError)
          → ∀ key, t'.table.lookup key = t.table.lookup key)
          ↔ Harmless v8 HashTable.access code t.table.entries)
      ∧
      ∀ (boost : Boost) (t : AvlTree boost),
        (∀ t', t.foreach v8 [name, code] = .ok (t', replyError) → t'.bindings = t.bindings)
          ↔ Harmless v8 AvlTree.access code t.nodes := by
  constructor
  . intro t
    apply HashTable.foreach_harmless
  . intro boost t
    apply AvlTree.foreach_harmless

def throwAtB : V8 Unit :=
  .ofFunctions (fun _ => some ())
    (fun _ key value =>
      if key = literal "b" then (none, ()) else (some (value ++ literal "_updated"), ()))

theorem foreach_error_partial
    : (¬ ∀ (ρ : Type) (v8 : V8 ρ) (name code : ByteString) (t t' : HashTable),
        t.foreach v8 [name, code] = .ok (t', replyError)
          → ∀ key, t'.table.lookup key = t.table.lookup key)
      ∧
      ¬ ∀ (ρ : Type) (v8 : V8 ρ) (name code : ByteString) (boost : Boost) (t t' : AvlTree boost),
        t.foreach v8 [name, code] = .ok (t', replyError) → t'.bindings = t.bindings := by
  constructor
  . intro h
    let t : HashTable := ⟨[⟨literal "a", literal "1"⟩, ⟨literal "b", literal "2"⟩].toAList⟩
    let t' : HashTable := ⟨[⟨literal "a", literal "1_updated"⟩, ⟨literal "b", literal "2"⟩].toAList⟩
    have := h Unit throwAtB (literal "HFOR") [] t t' (by rfl) (literal "a")
    exact absurd this (by decide)
  . intro h
    let boost : Boost := Boost.Intrusive.sortedList Hook.internalKey
    let a : Node := { Node.data (fun _ => 0) (literal "a") (literal "1") with listIterator := some 1 }
    let b : Node := { Node.data (fun _ => 1) (literal "b") (literal "2") with listIterator := some 2 }
    let t : AvlTree boost := { nodes := [(1, a), (2, b)], tree := [⟨1, 0⟩, ⟨2, 1⟩] }
    let t' : AvlTree boost :=
      { t with nodes := [(1, { a with value := literal "1_updated" }), (2, b)] }
    have := h Unit throwAtB (literal "ATFOR") [] boost t t' (by rfl)
    exact absurd this (by decide)

end Db
