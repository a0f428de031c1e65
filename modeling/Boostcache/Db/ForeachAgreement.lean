import Boostcache.Db.Bindings

/-!
The two stores also agree on `foreach` if what the function returns depends on the key and the value
only: the order in which the entries are visited does not show then.
-/

open Cpp CommandHandler JsVm

namespace JsVm

variable {ρ α : Type}

/--
The function of the script never throws and computes `f`, whatever it has been called with before.
-/
def Total (v8 : V8 ρ) (code : ByteString) (f : ByteString → ByteString → ByteString) : Prop :=
  ∃ states : ρ → Prop,
    (∀ vm, init v8 code = some vm → states vm)
      ∧ ∀ vm, states vm → ∀ key value,
        ∃ vm', call v8 vm key value = (some (f key value), vm') ∧ states vm'

theorem forEach_total {v8 : V8 ρ} {f : ByteString → ByteString → ByteString} {states : ρ → Prop}
    (hcall : ∀ vm, states vm → ∀ key value,
      ∃ vm', call v8 vm key value = (some (f key value), vm') ∧ states vm')
    (access : Access α) {vm : ρ} (hvm : states vm) (xs : List α)
    : forEach v8 access vm xs
        =
      (true, xs.map (fun x => access.assign x (f (access.key x) (access.value x)))) := by
  induction xs generalizing vm with
  | nil => rfl
  | cons x xs ih =>
    rcases hcall vm hvm (access.key x) (access.value x) with ⟨vm', heq, hvm'⟩
    simp only [forEach, heq, ih hvm', List.map_cons]

-- `(function(key, value) { return value + "_updated"; })`
example (code : ByteString)
    : Total
        (.ofFunctions (fun _ => some ()) (fun _ _ value => (some (value ++ literal "_updated"), ())))
        code (fun _ value => cStr (cStr value ++ literal "_updated")) :=
  ⟨fun _ => True, fun _ _ => trivial, fun _ _ _ _ => ⟨(), rfl, trivial⟩⟩

end JsVm

namespace Db

variable {ρ : Type} {boost : Boost} {hash : Key → UInt64}

def HashTable.serve (v8 : V8 ρ) (t : HashTable) : Query → Except Fault (HashTable × ByteString)
  | .operation operation => t.step operation
  | .foreach code => t.foreach v8 [literal "HFOR", code]

namespace Related

variable {t : AvlTree boost} {s : HashTable}

theorem map (h : Related hash t s) {f : ByteString → ByteString → ByteString} {t' : AvlTree boost}
    {s' : HashTable} (hvalid : t'.Valid hash)
    (ht' : t'.nodes = t.nodes.map (fun e => (e.1, { e.2 with value := f e.2.key e.2.value })))
    (hs' : s'.table.entries = s.table.entries.map (fun e => ⟨e.1, f e.1 e.2⟩))
    : Related hash t' s' where
  valid := hvalid
  lookup := by
    intro key value
    have hentries : s'.table.lookup key = some value
        ↔ ∃ v, s.table.lookup key = some v ∧ f key v = value := by
      rw [← Option.mem_def, AList.mem_lookup_iff, hs', List.mem_map]
      constructor
      . intro hex
        rcases hex with ⟨e, he, heq⟩
        cases heq
        exact ⟨e.2, AList.mem_lookup_iff.mpr he, rfl⟩
      . intro hex
        rcases hex with ⟨v, hlookup, rfl⟩
        exact ⟨⟨key, v⟩, AList.mem_lookup_iff.mp hlookup, rfl⟩
    rw [hentries, ht']
    simp only [List.mem_map, exists_exists_and_eq_and, h.lookup]
    constructor
    . intro hex
      rcases hex with ⟨v, ⟨e, he, rfl, rfl⟩, rfl⟩
      exact ⟨e, he, rfl, rfl⟩
    . intro hex
      rcases hex with ⟨e, he, rfl, rfl⟩
      exact ⟨e.2.value, ⟨e, he, rfl, rfl⟩, rfl⟩

theorem foreach (h : Related hash t s) {v8 : V8 ρ} {code : ByteString}
    {f : ByteString → ByteString → ByteString} (htotal : Total v8 code f)
    : ∃ t' s' o, t.serve hash v8 (.foreach code) = .ok (t', o)
        ∧ s.serve v8 (.foreach code) = .ok (s', o) ∧ Related hash t' s' := by
  rcases htotal with ⟨states, hinit, hcall⟩
  simp only [AvlTree.serve, HashTable.serve, AvlTree.foreach_eq, HashTable.foreach_eq]
  cases hvm : init v8 code with
  | none => exact ⟨t, s, _, rfl, rfl, h⟩
  | some vm =>
    have hstates := hinit vm hvm
    have htree := forEach_total hcall AvlTree.access hstates t.nodes
    have htable := forEach_total hcall HashTable.access hstates s.table.entries
    refine
      ⟨
        { t with nodes := (forEach v8 AvlTree.access vm t.nodes).2 },
        {
          table :=
            ⟨(forEach v8 HashTable.access vm s.table.entries).2,
              HashTable.nodupKeys_forEach v8 vm s.table⟩
        },
        replyTrue, ?_, ?_, h.map (f := f) (h.valid.foreach v8 vm) ?_ ?_
      ⟩
    . simp only [htree, if_true]
    . simp only [htable, if_true]
    . exact congrArg Prod.snd htree
    . exact congrArg Prod.snd htable

end Related

def Query.Admissible (v8 : V8 ρ) (K : Set Key) : Query → Prop
  | .operation op => op.key ∈ K
  | .foreach code => ∃ f, Total v8 code f

theorem HashTable.mem_serve {v8 : V8 ρ} {K : Set Key} {s s' : HashTable} {query : Query}
    {o : ByteString} (hserve : s.serve v8 query = .ok (s', o)) (hquery : query.Admissible v8 K)
    (hs : ∀ key ∈ s.table, key ∈ K)
    : ∀ key ∈ s'.table, key ∈ K := by
  intro key hkey
  cases query with
  | operation operation =>
    rcases mem_step hserve hkey with rfl | hmem
    . apply hquery
    . apply hs key hmem
  | foreach code =>
    apply hs
    simp only [HashTable.serve, foreach_eq] at hserve
    split at hserve
    . injection hserve with hserve
      injection hserve with hserve
      rw [hserve]
      exact hkey
    . next vm hvm =>
      injection hserve with hserve
      injection hserve with hserve
      rw [← hserve] at hkey
      have hkeys : (forEach v8 access vm s.table.entries).2.keys = s.table.entries.keys :=
        forEach_map v8 access access.key_assign vm s.table.entries
      have hmem : key ∈ (forEach v8 access vm s.table.entries).2.keys := hkey
      rw [hkeys] at hmem
      exact hmem

theorem Related.serve {t : AvlTree boost} {s : HashTable} (h : Related hash t s) {v8 : V8 ρ}
    {K : Set Key} (hinj : Set.InjOn hash K) (hs : ∀ key ∈ s.table, key ∈ K) {query : Query}
    (hquery : query.Admissible v8 K)
    : ∃ t' s' o, t.serve hash v8 query = .ok (t', o) ∧ s.serve v8 query = .ok (s', o)
        ∧ Related hash t' s' := by
  cases query with
  | operation operation =>
    apply h.step
    intro e he hhash
    apply hinj _ hquery hhash
    apply hs
    rw [← AList.lookup_isSome, h.lookup.mpr ⟨e, he, rfl, rfl⟩]
    rfl
  | foreach code =>
    rcases hquery with ⟨f, hf⟩
    apply h.foreach hf

theorem serve_replies (boost : Boost) (hash : Key → UInt64) (v8 : V8 ρ) (K : Set Key)
    : (∀ queries : List Query, (∀ query ∈ queries, query.Admissible v8 K)
        → (Machine.run (AvlTree.serve hash v8) (AvlTree.empty : AvlTree boost) queries).outputs
          = (Machine.run (HashTable.serve v8) HashTable.empty queries).outputs)
        ↔
      Set.InjOn hash K := by
  constructor
  . intro h
    apply injOn_of_replies
    intro operations hoperations
    have hqueries : ∀ query ∈ operations.map Query.operation, query.Admissible v8 K := by
      intro query hquery
      rcases List.mem_map.mp hquery with ⟨operation, hoperation, rfl⟩
      apply hoperations operation hoperation
    have hreplies := h _ hqueries
    rw [Machine.run_comap, Machine.run_comap] at hreplies
    exact hreplies
  . intro hinj queries hqueries
    apply (Machine.run_simulation
      (R := fun queries t s => Related hash t s ∧ (∀ key ∈ s.table, key ∈ K)
        ∧ ∀ query ∈ queries, query.Admissible v8 K)
      _ ⟨related_empty, by simp [HashTable.empty], hqueries⟩).1
    intro query queries t s h
    rcases h with ⟨hrelated, hs, hqueries⟩
    rw [List.forall_mem_cons] at hqueries
    rcases hrelated.serve hinj hs hqueries.1 with ⟨t', s', o, htree, htable, hrelated'⟩
    exact ⟨t', s', o, htree, htable, hrelated', HashTable.mem_serve htable hqueries.1 hs, hqueries.2⟩

end Db
