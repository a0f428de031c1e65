import Boostcache.Db.Foreach
import Mathlib.Data.List.TakeWhile

/-!
`foreach` with a function that never throws maps this function over the entries, as long as neither
an entry nor a result contains a NUL: keys, values and results cross the border to V8 as C strings.
-/

open Cpp CommandHandler JsVm

namespace JsVm

variable {ρ α : Type}

def utf8 (s : String) : ByteString :=
  s.toList.flatMap String.utf8EncodeChar

def IsUtf8 (bytes : ByteString) : Prop :=
  ∃ s, utf8 s = bytes

/--
The script evaluates to a function that computes `f`, whatever it has been called with before.
-/
def Evaluates (v8 : V8 ρ) (code : ByteString) (f : String → String → String) : Prop :=
  ∃ states : ρ → Prop,
    (∃ vm, init v8 code = some vm ∧ states vm)
      ∧ ∀ vm, states vm → ∀ key value,
        ∃ vm', v8.call vm (utf8 key) (utf8 value) = (.returned (some (utf8 (f key value))), vm')
          ∧ states vm'

-- The arguments of the calls of the function if the elements are visited in this order.
def calls (v8 : V8 ρ) (access : Access α) (vm : ρ) : List α → List (ByteString × ByteString)
  | [] => []
  | x :: xs =>
    (cStr (access.key x), cStr (access.value x))
      ::
    match call v8 vm (access.key x) (access.value x) with
    | (none, _) => []
    | (some _, vm) => calls v8 access vm xs

def CalledOnEach (v8 : V8 ρ) (access : Access α) (code : ByteString) (xs : List α) : Prop :=
  ∀ vm, init v8 code = some vm
    → calls v8 access vm xs = xs.map (fun x => (access.key x, access.value x))

def NulFree (f : String → String → String) (key value : String) : Prop :=
  nul ∉ utf8 key ∧ nul ∉ utf8 value ∧ nul ∉ utf8 (f key value)

theorem calledOnEach_iff {v8 : V8 ρ} {access : Access α} {code : ByteString} {vm : ρ}
    (hinit : init v8 code = some vm) {xs : List α}
    : CalledOnEach v8 access code xs
        ↔
      calls v8 access vm xs = xs.map (fun x => (access.key x, access.value x)) := by
  unfold CalledOnEach
  simp only [hinit, Option.some.injEq, forall_eq']

theorem cStr_eq_self {s : ByteString} : cStr s = s ↔ nul ∉ s := by
  unfold cStr
  rw [List.takeWhile_eq_self_iff]
  constructor
  . intro h hmem
    have := h nul hmem
    simp at this
  . intro h c hc
    have hne : c ≠ nul := by
      intro heq
      apply h
      rwa [← heq]
    simpa using hne

theorem nul_not_mem_cStr (s : ByteString) : nul ∉ cStr s := by
  intro hmem
  have := List.mem_takeWhile_imp hmem
  simp at this

variable {v8 : V8 ρ} {access : Access α}

theorem nul_not_mem_of_call {vm vm' : ρ} {key value newValue : ByteString}
    (h : call v8 vm key value = (some newValue, vm'))
    : nul ∉ newValue := by
  rcases heq : v8.call vm (cStr key) (cStr value) with ⟨_ | ⟨_ | result⟩, vm1⟩
  . rw [call_of_threw heq] at h
    injection h with h
    contradiction
  . exact absurd (congrArg Prod.fst heq) (v8.call_string vm (cStr key) (cStr value))
  . rw [call_of_returned heq] at h
    injection h with h
    injection h with h
    rw [← h]
    apply nul_not_mem_cStr

theorem nulFree_of_calls {vm : ρ} {xs : List α}
    (h : calls v8 access vm xs = xs.map (fun x => (access.key x, access.value x)))
    : ∀ x ∈ xs, nul ∉ access.key x ∧ nul ∉ access.value x := by
  induction xs generalizing vm with
  | nil => simp
  | cons x xs ih =>
    unfold calls at h
    rw [List.map_cons, List.cons.injEq, Prod.mk.injEq, cStr_eq_self, cStr_eq_self] at h
    rcases h with ⟨hx, hxs⟩
    rw [List.forall_mem_cons]
    refine ⟨hx, ?_⟩
    split at hxs
    . rw [List.map_eq_nil_iff.mp hxs.symm]
      simp
    . apply ih hxs

theorem nulFree_of_mem_forEach {vm : ρ} {xs : List α} (h : (forEach v8 access vm xs).1 = true)
    : ∀ x ∈ (forEach v8 access vm xs).2, nul ∉ access.value x := by
  induction xs generalizing vm with
  | nil => simp [forEach]
  | cons x xs ih =>
    unfold forEach at h ⊢
    split
    . next hcall =>
      simp [hcall] at h
    . next newValue vm' hcall =>
      simp only [hcall] at h
      rw [List.forall_mem_cons, access.value_assign]
      refine ⟨?_, ih h⟩
      apply nul_not_mem_of_call hcall

section Evaluates

variable {f : String → String → String} {states : ρ → Prop}
  (hcall : ∀ vm, states vm → ∀ key value,
    ∃ vm', v8.call vm (utf8 key) (utf8 value) = (.returned (some (utf8 (f key value))), vm')
      ∧ states vm')

include hcall

theorem call_eq {vm : ρ} (hvm : states vm) {key value : String} (h : NulFree f key value)
    : ∃ vm', call v8 vm (utf8 key) (utf8 value) = (some (utf8 (f key value)), vm')
        ∧ states vm' := by
  rcases h with ⟨hkey, hvalue, hresult⟩
  rcases hcall vm hvm key value with ⟨vm', heq, hvm'⟩
  refine ⟨vm', ?_, hvm'⟩
  rw [← cStr_eq_self.mpr hkey, ← cStr_eq_self.mpr hvalue] at heq
  rw [call_of_returned heq, cStr_eq_self.mpr hresult]

theorem forEach_evaluates {vm : ρ} (hvm : states vm) {xs : List α}
    (hutf8 : ∀ x ∈ xs, IsUtf8 (access.key x) ∧ IsUtf8 (access.value x))
    (h : ∀ x ∈ xs, ∀ key value, utf8 key = access.key x → utf8 value = access.value x
      → NulFree f key value)
    : (forEach v8 access vm xs).1 = true
      ∧ calls v8 access vm xs = xs.map (fun x => (access.key x, access.value x))
      ∧ ∀ (i : Nat) (x : α) (key value : String), xs[i]? = some x → utf8 key = access.key x
          → utf8 value = access.value x
          → (forEach v8 access vm xs).2[i]? = some (access.assign x (utf8 (f key value))) := by
  induction xs generalizing vm with
  | nil => simp [forEach, calls]
  | cons x xs ih =>
    rw [List.forall_mem_cons] at hutf8 h
    rcases hutf8 with ⟨⟨⟨key, hkey⟩, ⟨value, hvalue⟩⟩, hutf8⟩
    have hfree := h.1 key value hkey hvalue
    rcases call_eq hcall hvm hfree with ⟨vm', heq, hvm'⟩
    rw [hkey, hvalue] at heq
    rcases ih hvm' hutf8 h.2 with ⟨hdone, hcalls, hget⟩
    simp only [forEach, calls, heq]
    refine ⟨hdone, ?_, ?_⟩
    . rw [hcalls, List.map_cons, ← hkey, ← hvalue, cStr_eq_self.mpr hfree.1,
        cStr_eq_self.mpr hfree.2.1]
    . intro i y key' value' hy hkey' hvalue'
      cases i with
      | zero =>
        injection hy with hy
        subst hy
        -- `utf8` is injective, but the call has only one result anyway
        rcases call_eq hcall hvm (h.1 key' value' hkey' hvalue') with ⟨vm1, heq', -⟩
        rw [hkey', hvalue', heq, Prod.mk.injEq, Option.some.injEq] at heq'
        rw [heq'.1]
        rfl
      | succ i => exact hget i y key' value' hy hkey' hvalue'

end Evaluates

end JsVm

namespace Db

variable {ρ : Type}

def HashTable.MappedBy (f : String → String → String) (t t' : HashTable) : Prop :=
  (∀ key, key ∈ t'.table ↔ key ∈ t.table)
    ∧ ∀ key value, t.table.lookup (utf8 key) = some (utf8 value)
      → t'.table.lookup (utf8 key) = some (utf8 (f key value))

def AvlTree.MappedBy {boost : Boost} (f : String → String → String) (t t' : AvlTree boost) : Prop :=
  t'.bindings.map Prod.fst = t.bindings.map Prod.fst
    ∧ ∀ (i : Nat) (key value : String), t.bindings[i]? = some (utf8 key, utf8 value)
      → t'.bindings[i]? = some (utf8 key, utf8 (f key value))

theorem ite_eq_replyTrue {done : Bool}
    : (if done then replyTrue else replyError) = replyTrue ↔ done = true := by
  cases done with
  | true => decide
  | false => decide

variable {v8 : V8 ρ} {code : ByteString} {f : String → String → String}

theorem HashTable.foreach_mappedBy (hf : Evaluates v8 code f) {t : HashTable}
    (hutf8 : ∀ key value, t.table.lookup key = some value → IsUtf8 key ∧ IsUtf8 value)
    (name : ByteString)
    : (∃ t', t.foreach v8 [name, code] = .ok (t', replyTrue) ∧ t.MappedBy f t'
        ∧ CalledOnEach v8 access code t.table.entries)
        ↔
      ∀ key value, t.table.lookup (utf8 key) = some (utf8 value) → NulFree f key value := by
  rcases hf with ⟨states, ⟨vm, hinit, hvm⟩, hcall⟩
  rw [foreach_eq, hinit]
  simp only [Except.ok.injEq, Prod.mk.injEq, ite_eq_replyTrue, calledOnEach_iff hinit]
  constructor
  . intro h key value hlookup
    rcases h with ⟨t', ⟨ht', hdone⟩, hmapped, hcalls⟩
    have hentry := nulFree_of_calls hcalls _ (AList.mem_lookup_iff.mp hlookup)
    have hnew := hmapped.2 key value hlookup
    rw [← ht'] at hnew
    exact ⟨hentry.1, hentry.2, nulFree_of_mem_forEach hdone _ (AList.mem_lookup_iff.mp hnew)⟩
  . intro h
    have hentries : ∀ x ∈ t.table.entries, IsUtf8 (access.key x) ∧ IsUtf8 (access.value x) := by
      intro x hx
      apply hutf8 _ _ (AList.mem_lookup_iff.mpr hx)
    have hfree : ∀ x ∈ t.table.entries, ∀ key value, utf8 key = access.key x
        → utf8 value = access.value x → NulFree f key value := by
      intro x hx key value hkey hvalue
      apply h key value
      rw [hkey, hvalue]
      apply AList.mem_lookup_iff.mpr hx
    rcases forEach_evaluates hcall hvm hentries hfree with ⟨hdone, hcalls, hget⟩
    refine ⟨_, ⟨rfl, hdone⟩, ⟨?_, ?_⟩, hcalls⟩
    . intro key
      have hkeys := forEach_map v8 access access.key_assign vm t.table.entries
      rw [AList.mem_keys, AList.mem_keys]
      exact iff_of_eq (congrArg (key ∈ ·) hkeys)
    . intro key value hlookup
      have hmem := AList.mem_lookup_iff.mp hlookup
      rcases List.mem_iff_getElem?.mp hmem with ⟨i, hi⟩
      have := hget i _ key value hi rfl rfl
      apply AList.mem_lookup_iff.mpr
      apply List.mem_of_getElem? this

theorem AvlTree.mem_bindings {boost : Boost} {t : AvlTree boost} {key : Key} {value : Value}
    : (key, value) ∈ t.bindings ↔ ∃ x ∈ t.nodes, x.2.key = key ∧ x.2.value = value := by
  simp [bindings]

theorem AvlTree.foreach_mappedBy (hf : Evaluates v8 code f) {boost : Boost} {t : AvlTree boost}
    (hutf8 : ∀ e ∈ t.bindings, IsUtf8 e.1 ∧ IsUtf8 e.2) (name : ByteString)
    : (∃ t', t.foreach v8 [name, code] = .ok (t', replyTrue) ∧ t.MappedBy f t'
        ∧ CalledOnEach v8 access code t.nodes)
        ↔
      ∀ key value, (utf8 key, utf8 value) ∈ t.bindings → NulFree f key value := by
  rcases hf with ⟨states, ⟨vm, hinit, hvm⟩, hcall⟩
  rw [foreach_eq, hinit]
  simp only [Except.ok.injEq, Prod.mk.injEq, ite_eq_replyTrue, calledOnEach_iff hinit]
  constructor
  . intro h key value hmem
    rcases h with ⟨t', ⟨ht', hdone⟩, hmapped, hcalls⟩
    rcases List.mem_iff_getElem?.mp hmem with ⟨i, hi⟩
    have hnew := List.mem_of_getElem? (hmapped.2 i key value hi)
    rw [← ht'] at hnew
    rcases mem_bindings.mp hmem with ⟨x, hx, hkey, hvalue⟩
    rcases mem_bindings.mp hnew with ⟨x', hx', -, hresult⟩
    unfold NulFree
    rw [← hkey, ← hvalue, ← hresult]
    have hentry := nulFree_of_calls hcalls x hx
    exact ⟨hentry.1, hentry.2, nulFree_of_mem_forEach hdone x' hx'⟩
  . intro h
    have hentries : ∀ x ∈ t.nodes, IsUtf8 (access.key x) ∧ IsUtf8 (access.value x) := by
      intro x hx
      apply hutf8 _ (List.mem_map_of_mem hx)
    have hfree : ∀ x ∈ t.nodes, ∀ key value, utf8 key = access.key x
        → utf8 value = access.value x → NulFree f key value := by
      intro x hx key value hkey hvalue
      apply h key value
      rw [hkey, hvalue]
      apply List.mem_map_of_mem hx
    rcases forEach_evaluates hcall hvm hentries hfree with ⟨hdone, hcalls, hget⟩
    refine ⟨_, ⟨rfl, hdone⟩, ⟨?_, ?_⟩, hcalls⟩
    . unfold bindings
      rw [List.map_map, List.map_map]
      apply forEach_map v8 access access.key_assign vm t.nodes
    . intro i key value hi
      unfold bindings at hi ⊢
      rw [List.getElem?_map, Option.map_eq_some_iff] at hi
      rcases hi with ⟨x, hx, hentry⟩
      rw [Prod.mk.injEq] at hentry
      have := hget i x key value hx hentry.1.symm hentry.2.symm
      dsimp only
      rw [List.getElem?_map, this, ← hentry.1]
      rfl

theorem foreach_mapped (hf : Evaluates v8 code f) (name : ByteString)
    : (∀ t : HashTable,
        (∀ key value, t.table.lookup key = some value → IsUtf8 key ∧ IsUtf8 value)
          → ((∃ t', t.foreach v8 [name, code] = .ok (t', replyTrue) ∧ t.MappedBy f t'
                ∧ CalledOnEach v8 HashTable.access code t.table.entries)
              ↔ ∀ key value, t.table.lookup (utf8 key) = some (utf8 value) → NulFree f key value))
      ∧
      ∀ (boost : Boost) (t : AvlTree boost),
        (∀ e ∈ t.bindings, IsUtf8 e.1 ∧ IsUtf8 e.2)
          → ((∃ t', t.foreach v8 [name, code] = .ok (t', replyTrue) ∧ t.MappedBy f t'
                ∧ CalledOnEach v8 AvlTree.access code t.nodes)
              ↔ ∀ key value, (utf8 key, utf8 value) ∈ t.bindings → NulFree f key value) := by
  constructor
  . intro t hutf8
    apply HashTable.foreach_mappedBy hf hutf8
  . intro boost t hutf8
    apply AvlTree.foreach_mappedBy hf hutf8

def identity : ByteString :=
  literal "(function(key, value) \x7b return value; \x7d)"

def keepValue : V8 Unit :=
  .ofFunctions (fun code => if code = identity then some () else none)
    (fun _ _ value => (some value, ()))

theorem evaluates_keepValue : Evaluates keepValue identity (fun _ value => value) := by
  refine ⟨fun _ => True, ⟨(), by decide +kernel, trivial⟩, ?_⟩
  intro vm _ key value
  exact ⟨(), rfl, trivial⟩

def oneEntry (value : String) : HashTable :=
  { table := AList.singleton (utf8 "key") (utf8 value) }

def oneNode (value : String) : AvlTree (Boost.Intrusive.sortedList Hook.internalKey) :=
  {
    nodes := [(1, { Node.data (fun _ => 0) (utf8 "key") (utf8 value) with listIterator := some 1 })]
    tree := [⟨1, 0⟩]
  }

theorem oneEntry_lookup {value : String} {key' value' : ByteString}
    (h : (oneEntry value).table.lookup key' = some value')
    : key' = utf8 "key" ∧ value' = utf8 value := by
  have hmem := List.mem_singleton.mp (AList.mem_lookup_iff.mp h)
  injection hmem with hkey hvalue
  exact ⟨hkey, hvalue⟩

theorem oneEntry_isUtf8 (value : String) (key' value' : ByteString)
    (h : (oneEntry value).table.lookup key' = some value')
    : IsUtf8 key' ∧ IsUtf8 value' := by
  rcases oneEntry_lookup h with ⟨hkey, hvalue⟩
  exact ⟨⟨_, hkey.symm⟩, ⟨_, hvalue.symm⟩⟩

theorem oneNode_isUtf8 (value : String) : ∀ e ∈ (oneNode value).bindings, IsUtf8 e.1 ∧ IsUtf8 e.2 := by
  intro e he
  rw [List.mem_singleton.mp he]
  exact ⟨⟨_, rfl⟩, ⟨_, rfl⟩⟩

theorem foreach_mapped_identity
    : (∃ t', (oneEntry "grün").foreach keepValue [literal "HFOR", identity] = .ok (t', replyTrue)
        ∧ (oneEntry "grün").MappedBy (fun _ value => value) t'
        ∧ CalledOnEach keepValue HashTable.access identity (oneEntry "grün").table.entries)
      ∧
      ∃ t', (oneNode "grün").foreach keepValue [literal "ATFOR", identity] = .ok (t', replyTrue)
        ∧ (oneNode "grün").MappedBy (fun _ value => value) t'
        ∧ CalledOnEach keepValue AvlTree.access identity (oneNode "grün").nodes := by
  have hfree {key value : String} (hkey : utf8 key = utf8 "key") (hvalue : utf8 value = utf8 "grün")
      : NulFree (fun _ value => value) key value := by
    unfold NulFree
    rw [hkey, hvalue]
    decide +kernel
  constructor
  . apply ((foreach_mapped evaluates_keepValue (literal "HFOR")).1 _ (oneEntry_isUtf8 "grün")).mpr
    intro key value h
    rcases oneEntry_lookup h with ⟨hkey, hvalue⟩
    apply hfree hkey hvalue
  . apply ((foreach_mapped evaluates_keepValue (literal "ATFOR")).2 _ _ (oneNode_isUtf8 "grün")).mpr
    intro key value h
    have hentry := List.mem_singleton.mp h
    rw [Prod.mk.injEq] at hentry
    apply hfree hentry.1 hentry.2

-- The reply is `:1`, but what is stored is only the part in front of the NUL.
theorem foreach_mapped_nul
    : (¬ ∀ (ρ : Type) (v8 : V8 ρ) (name code : ByteString) (f : String → String → String),
        Evaluates v8 code f → ∀ t : HashTable,
          (∀ key value, t.table.lookup key = some value → IsUtf8 key ∧ IsUtf8 value)
            → ∃ t', t.foreach v8 [name, code] = .ok (t', replyTrue) ∧ t.MappedBy f t'
              ∧ CalledOnEach v8 HashTable.access code t.table.entries)
      ∧
      ¬ ∀ (ρ : Type) (v8 : V8 ρ) (name code : ByteString) (f : String → String → String),
        Evaluates v8 code f → ∀ (boost : Boost) (t : AvlTree boost),
          (∀ e ∈ t.bindings, IsUtf8 e.1 ∧ IsUtf8 e.2)
            → ∃ t', t.foreach v8 [name, code] = .ok (t', replyTrue) ∧ t.MappedBy f t'
              ∧ CalledOnEach v8 AvlTree.access code t.nodes := by
  constructor
  . intro h
    have hforeach : (oneEntry "a\x00b").foreach keepValue [literal "HFOR", identity]
        = .ok (oneEntry "a", replyTrue) := by
      rfl
    rcases h Unit keepValue (literal "HFOR") identity _ evaluates_keepValue _ (oneEntry_isUtf8 _)
      with ⟨t', hforeach', hmapped, -⟩
    rw [hforeach] at hforeach'
    injection hforeach' with hpair
    injection hpair with ht'
    have := hmapped.2 "key" "a\x00b" (by decide +kernel)
    rw [← ht'] at this
    exact absurd this (by decide +kernel)
  . intro h
    have hforeach : (oneNode "a\x00b").foreach keepValue [literal "ATFOR", identity]
        = .ok (oneNode "a", replyTrue) := by
      rfl
    rcases h Unit keepValue (literal "ATFOR") identity _ evaluates_keepValue _ _ (oneNode_isUtf8 _)
      with ⟨t', hforeach', hmapped, -⟩
    rw [hforeach] at hforeach'
    injection hforeach' with hpair
    injection hpair with ht'
    have := hmapped.2 0 "key" "a\x00b" rfl
    rw [← ht'] at this
    exact absurd this (by decide +kernel)

end Db
