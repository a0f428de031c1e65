import Boostcache.Db.Lemmas.AvlTree
import Boostcache.Db.Lemmas.HashTable
import Boostcache.Machine.Basic
import Mathlib.Data.Fintype.EquivFin
import Mathlib.Data.Set.Function

/-!
The `AvlTree` answers like the `HashTable` as long as it is never given two keys with the same hash,
and no longer.
-/

open Cpp CommandHandler

namespace Db

inductive Operation where
  | get (key : Key)
  | set (key : Key) (value : Value)
  | del (key : Key)
  deriving DecidableEq, Repr

def Operation.key : Operation → Key
  | .get key => key
  | .set key _ => key
  | .del key => key

def HashTable.step (t : HashTable) : Operation → Except Fault (HashTable × ByteString)
  | .get key => t.get [literal "HGET", key]
  | .set key value => t.set [literal "HSET", key, value]
  | .del key => t.del [literal "HDEL", key]

def AvlTree.step {boost : Boost} (hash : Key → UInt64) (t : AvlTree boost)
    : Operation → Except Fault (AvlTree boost × ByteString)
  | .get key => t.get hash [literal "ATGET", key]
  | .set key value => t.set hash [literal "ATSET", key, value]
  | .del key => t.del hash [literal "ATDEL", key]

def HashTable.replies (operations : List Operation) : List ByteString :=
  (Machine.run HashTable.step HashTable.empty operations).outputs

def AvlTree.replies (boost : Boost) (hash : Key → UInt64) (operations : List Operation)
    : List ByteString :=
  (Machine.run (AvlTree.step hash) (AvlTree.empty : AvlTree boost) operations).outputs

variable {boost : Boost} {hash : Key → UInt64}

def AvlTree.NoCollision (hash : Key → UInt64) (t : AvlTree boost) (key : Key) : Prop :=
  ∀ e ∈ t.nodes, hash e.2.key = hash key → e.2.key = key

structure Related (hash : Key → UInt64) (t : AvlTree boost) (s : HashTable) : Prop where
  valid : t.Valid hash
  lookup : ∀ {key value}, s.table.lookup key = some value
    ↔ ∃ e ∈ t.nodes, e.2.key = key ∧ e.2.value = value

theorem related_empty : Related hash (AvlTree.empty : AvlTree boost) HashTable.empty where
  valid := AvlTree.valid_empty
  lookup := by
    intro key value
    simp [AvlTree.empty, HashTable.empty]

namespace Related

variable {t : AvlTree boost} {s : HashTable} (h : Related hash t s) {key : Key}

include h

theorem lookup_absent (habsent : t.Absent hash key) : s.table.lookup key = none := by
  cases hlookup : s.table.lookup key with
  | none => rfl
  | some value =>
    rcases h.lookup.mp hlookup with ⟨e, he, rfl, -⟩
    exact absurd (h.valid.internalKey e he) (habsent e he)

theorem key_eq (hkey : t.NoCollision hash key) {e : Nat × Node} (he : e ∈ t.nodes)
    (hhash : e.2.internalKey = hash key)
    : e.2.key = key := by
  apply hkey e he
  rw [← h.valid.internalKey e he, hhash]

theorem lookup_present (hkey : t.NoCollision hash key) {e : Nat × Node} (he : e ∈ t.nodes)
    (hhash : e.2.internalKey = hash key)
    : s.table.lookup key = some e.2.value := by
  apply h.lookup.mpr ⟨e, he, h.key_eq hkey he hhash, rfl⟩

theorem get_step (hkey : t.NoCollision hash key)
    : ∃ o, t.step hash (.get key) = .ok (t, o) ∧ s.step (.get key) = .ok (s, o) := by
  simp only [AvlTree.step, HashTable.step, HashTable.get_eq]
  rcases AvlTree.get_cases h.valid (literal "ATGET") key [] with ⟨habsent, hget⟩ | ⟨e, he, hhash, hget⟩
  . rw [h.lookup_absent habsent]
    exact ⟨_, hget, rfl⟩
  . rw [h.lookup_present hkey he hhash]
    exact ⟨_, hget, rfl⟩

theorem push_back (habsent : t.Absent hash key) {value : Value} {t' : AvlTree boost}
    {e : Nat × Node} (hvalid : t'.Valid hash) (hnodes : t'.nodes = t.nodes ++ [e])
    (hekey : e.2.key = key) (hevalue : e.2.value = value)
    : Related hash t' { table := s.table.insert key value } where
  valid := hvalid
  lookup := by
    intro k v
    simp only [hnodes, List.mem_append, List.mem_singleton, or_and_right, exists_or, exists_eq_left,
      hekey, hevalue]
    by_cases hk : k = key
    . have hnone : ¬ ∃ e ∈ t.nodes, e.2.key = k ∧ e.2.value = v := by
        rw [← h.lookup, hk, h.lookup_absent habsent]
        simp
      rw [hk, AList.lookup_insert]
      rw [hk] at hnone
      simp [hnone]
    . rw [AList.lookup_insert_ne hk, h.lookup]
      simp [Ne.symm hk]

theorem assign (hkey : t.NoCollision hash key) {value : Value} {t' : AvlTree boost}
    {e : Nat × Node} (he : e ∈ t.nodes) (hhash : e.2.internalKey = hash key)
    (hvalid : t'.Valid hash) (hnodes : t'.nodes = AvlTree.assign t.nodes e.1 value)
    : Related hash t' { table := s.table.insert key value } where
  valid := hvalid
  lookup := by
    intro k v
    have hekey := h.key_eq hkey he hhash
    have hother {e' : Nat × Node} (he' : e' ∈ t.nodes) (hk : e'.2.key = key) : e' = e := by
      apply h.valid.eq_of_internalKey he' he
      rw [h.valid.internalKey e' he', hk, hhash]
    have hmem : (∃ e' ∈ t'.nodes, e'.2.key = k ∧ e'.2.value = v)
        ↔ ∃ e' ∈ t.nodes, e'.2.key = k ∧ (if e'.1 = e.1 then value else e'.2.value) = v := by
      rw [hnodes]
      unfold AvlTree.assign
      simp only [List.mem_map, exists_exists_and_eq_and]
      apply exists_congr
      intro e'
      split
      . rfl
      . rfl
    rw [hmem]
    by_cases hk : k = key
    . rw [hk, AList.lookup_insert]
      constructor
      . intro hv
        injection hv with hv
        exact ⟨e, he, hekey, by rw [if_pos rfl, hv]⟩
      . intro hex
        rcases hex with ⟨e1, he1, hk1, hv⟩
        rw [hother he1 hk1, if_pos rfl] at hv
        rw [hv]
    . rw [AList.lookup_insert_ne hk, h.lookup]
      have hne {e' : Nat × Node} (he' : e' ∈ t.nodes) (hk' : e'.2.key = k) : ¬ e'.1 = e.1 := by
        intro heq
        rw [h.valid.eq_of_address he' he heq, hekey] at hk'
        apply hk hk'.symm
      constructor
      . intro hex
        rcases hex with ⟨e1, he1, hk1, hv⟩
        exact ⟨e1, he1, hk1, by rw [if_neg (hne he1 hk1), hv]⟩
      . intro hex
        rcases hex with ⟨e1, he1, hk1, hv⟩
        rw [if_neg (hne he1 hk1)] at hv
        exact ⟨e1, he1, hk1, hv⟩

theorem set_step (hkey : t.NoCollision hash key) (value : Value)
    : ∃ t' s' o, t.step hash (.set key value) = .ok (t', o) ∧ s.step (.set key value) = .ok (s', o)
        ∧ Related hash t' s' := by
  simp only [AvlTree.step, HashTable.step, HashTable.set_eq]
  rcases AvlTree.set_spec h.valid (literal "ATSET") key value []
    with ⟨t', hset, hvalid, ⟨habsent, e, hekey, hevalue, hadds⟩ | ⟨e, hhash, hoverwrites⟩⟩
  . exact ⟨_, _, _, hset, rfl, h.push_back habsent hvalid hadds.nodes hekey hevalue⟩
  . exact ⟨_, _, _, hset, rfl, h.assign hkey hoverwrites.mem hhash hvalid hoverwrites.nodes⟩

theorem erase (hkey : t.NoCollision hash key) {t' : AvlTree boost} {e : Nat × Node}
    {l1 l2 : List (Nat × Node)} (hsplit : t.nodes = l1 ++ e :: l2)
    (hhash : e.2.internalKey = hash key) (hvalid : t'.Valid hash) (hnodes : t'.nodes = l1 ++ l2)
    : Related hash t' { table := s.table.erase key } where
  valid := hvalid
  lookup := by
    intro k v
    have he : e ∈ t.nodes := by simp [hsplit]
    have hekey := h.key_eq hkey he hhash
    by_cases hk : k = key
    . rw [hk, AList.lookup_erase]
      constructor
      . intro hv
        contradiction
      . intro hex
        rcases hex with ⟨e', he', hk', -⟩
        have hmem : e' ∈ t.nodes := by
          rw [hnodes, List.mem_append] at he'
          rw [hsplit, List.mem_append, List.mem_cons]
          rcases he' with he' | he'
          . exact Or.inl he'
          . exact Or.inr (Or.inr he')
        have heq : e' = e := by
          apply h.valid.eq_of_internalKey hmem he
          rw [h.valid.internalKey e' hmem, hk', hhash]
        have hnodup := h.valid.addresses.of_map
        rw [hsplit, List.nodup_middle, List.nodup_cons] at hnodup
        rw [hnodes, heq] at he'
        exact absurd he' hnodup.1
    . rw [AList.lookup_erase_ne hk, h.lookup, hsplit, hnodes]
      simp only [List.mem_append, List.mem_cons, or_and_right, exists_or, exists_eq_left, hekey,
        Ne.symm hk, false_and, false_or]

theorem del_step (hkey : t.NoCollision hash key)
    : ∃ t' s' o, t.step hash (.del key) = .ok (t', o) ∧ s.step (.del key) = .ok (s', o)
        ∧ Related hash t' s' := by
  simp only [AvlTree.step, HashTable.step, HashTable.del_eq]
  rcases AvlTree.del_spec h.valid (literal "ATDEL") key []
    with ⟨t', reply, hdel, hvalid, ⟨rfl, e, hhash, hremoves⟩ | ⟨rfl, rfl, habsent⟩⟩
  . rcases hremoves.nodes with ⟨l1, l2, hsplit, hnodes⟩
    rw [h.lookup_present hkey (by simp [hsplit]) hhash]
    exact ⟨_, _, _, hdel, rfl, h.erase hkey hsplit hhash hvalid hnodes⟩
  . rw [h.lookup_absent habsent, HashTable.erase_of_lookup_eq_none (h.lookup_absent habsent)]
    exact ⟨_, _, _, hdel, rfl, h⟩

theorem step {operation : Operation} (hkey : t.NoCollision hash operation.key)
    : ∃ t' s' o, t.step hash operation = .ok (t', o) ∧ s.step operation = .ok (s', o)
        ∧ Related hash t' s' := by
  cases operation with
  | get key =>
    rcases h.get_step hkey with ⟨o, ht, hs⟩
    exact ⟨t, s, o, ht, hs, h⟩
  | set key value => apply h.set_step hkey
  | del key => apply h.del_step hkey

end Related

theorem HashTable.mem_step {s s' : HashTable} {operation : Operation} {o : ByteString}
    (hstep : s.step operation = .ok (s', o)) {key : Key} (hkey : key ∈ s'.table)
    : key = operation.key ∨ key ∈ s.table := by
  cases operation with
  | get k =>
    simp only [HashTable.step, get_eq] at hstep
    injection hstep with hstep
    injection hstep with hstep
    rw [hstep]
    exact Or.inr hkey
  | set k v =>
    simp only [HashTable.step, set_eq] at hstep
    injection hstep with hstep
    injection hstep with hstep
    rw [← hstep] at hkey
    exact (AList.mem_insert s.table).mp hkey
  | del k =>
    simp only [HashTable.step, del_eq] at hstep
    injection hstep with hstep
    injection hstep with hstep
    rw [← hstep] at hkey
    exact Or.inr (AList.mem_erase.mp hkey).2

theorem replies_of_noCollision {operations : List Operation}
    (h : ∀ before operation after t, operations = before ++ operation :: after
      → (Machine.run (AvlTree.step hash) (AvlTree.empty : AvlTree boost) before).final = .ok t
      → t.NoCollision hash operation.key)
    : AvlTree.replies boost hash operations = HashTable.replies operations := by
  apply Machine.run_simulation_of_pre (R := Related hash)
    (P := fun t operation => t.NoCollision hash operation.key) _ related_empty h
  intro t s operation hrelated hpre
  apply hrelated.step hpre

theorem replies_of_injOn {K : Set Key} (hinj : Set.InjOn hash K) {operations : List Operation}
    (hkeys : ∀ operation ∈ operations, operation.key ∈ K)
    : AvlTree.replies boost hash operations = HashTable.replies operations := by
  apply (Machine.run_simulation
    (R := fun operations t s => Related hash t s ∧ (∀ key ∈ s.table, key ∈ K)
      ∧ ∀ operation ∈ operations, operation.key ∈ K)
    _ ⟨related_empty, by simp [HashTable.empty], hkeys⟩).1
  intro operation operations t s h
  rcases h with ⟨hrelated, htable, hkeys⟩
  rw [List.forall_mem_cons] at hkeys
  have hkey : t.NoCollision hash operation.key := by
    intro e he hhash
    apply hinj _ hkeys.1 hhash
    apply htable
    rw [← AList.lookup_isSome, hrelated.lookup.mpr ⟨e, he, rfl, rfl⟩]
    rfl
  rcases hrelated.step hkey with ⟨t', s', o, ht, hs, hrelated'⟩
  refine ⟨t', s', o, ht, hs, hrelated', ?_, hkeys.2⟩
  intro key hmem
  rcases HashTable.mem_step hs hmem with rfl | hmem
  . apply hkeys.1
  . apply htable key hmem

theorem AvlTree.replies_collision {key key' : Key} (hhash : hash key = hash key') (value : Value)
    : AvlTree.replies boost hash [.set key value, .get key'] = [replyOk, toReplyString value] := by
  unfold replies
  have hempty : (empty : AvlTree boost).Valid hash := valid_empty
  rcases set_spec hempty (literal "ATSET") key value []
    with ⟨t, hset, hvalid, ⟨-, e, hkey, hvalue, hadds⟩ | ⟨e, -, hoverwrites⟩⟩
  . have he : t.nodes = [e] := hadds.nodes
    have hinternal : e.2.internalKey = hash key' := by
      rw [hvalid.internalKey e (by simp [he]), hkey, hhash]
    have hset : step hash empty (.set key value) = .ok (t, replyOk) := hset
    rw [Machine.run_cons_ok hset]
    rcases get_cases hvalid (literal "ATGET") key' [] with ⟨habsent, -⟩ | ⟨e', he', -, hget⟩
    . exact absurd hinternal (habsent e (by simp [he]))
    . rw [he, List.mem_singleton] at he'
      rw [he', hvalue] at hget
      have hget : step hash t (.get key') = .ok (t, toReplyString value) := hget
      rw [Machine.run_cons_ok hget]
      rfl
  . exact absurd hoverwrites.mem List.not_mem_nil

theorem HashTable.replies_ne {key key' : Key} (hne : key ≠ key') (value : Value)
    : HashTable.replies [.set key value, .get key'] = [replyOk, replyNil] := by
  unfold replies
  have hget : HashTable.step { table := empty.table.insert key value } (.get key')
      = .ok ({ table := empty.table.insert key value }, replyNil) := by
    simp only [step, get_eq, AList.lookup_insert_ne (Ne.symm hne)]
    rfl
  rw [Machine.run_cons_ok (o := replyOk) rfl, Machine.run_cons_ok hget]
  rfl

theorem injOn_of_replies {K : Set Key}
    (h : ∀ operations, (∀ operation ∈ operations, operation.key ∈ K)
      → AvlTree.replies boost hash operations = HashTable.replies operations)
    : Set.InjOn hash K := by
  intro key hkey key' hkey' hhash
  apply Decidable.byContradiction
  intro hne
  have hmem : ∀ operation ∈ [Operation.set key [], Operation.get key'], operation.key ∈ K := by
    simp [Operation.key, hkey, hkey']
  have hreplies := h _ hmem
  rw [AvlTree.replies_collision hhash, HashTable.replies_ne hne] at hreplies
  exact absurd hreplies (by decide +kernel)

theorem avlTree_replies (boost : Boost) (hash : Key → UInt64)
    : (∀ operations : List Operation,
        (∀ before operation after t, operations = before ++ operation :: after
          → (Machine.run (AvlTree.step hash) (AvlTree.empty : AvlTree boost) before).final = .ok t
          → t.NoCollision hash operation.key)
        → AvlTree.replies boost hash operations = HashTable.replies operations)
      ∧
      ∀ K : Set Key,
        (∀ operations, (∀ operation ∈ operations, operation.key ∈ K)
          → AvlTree.replies boost hash operations = HashTable.replies operations)
          ↔ Set.InjOn hash K := by
  refine ⟨fun operations => replies_of_noCollision, ?_⟩
  intro K
  constructor
  . intro h
    apply injOn_of_replies h
  . intro h operations
    apply replies_of_injOn h

theorem not_injective_hash (hash : Key → UInt64) : ¬ Function.Injective hash := by
  have : Finite UInt64 := Finite.of_injective UInt64.toFin (fun _ _ => UInt64.toFin_inj.mp)
  apply not_injective_infinite_finite hash

-- There are more keys than hashes, so the replies differ whatever the hash function is.
theorem avlTree_replies_collision
    : AvlTree.replies (Boost.Intrusive.sortedList Hook.internalKey) (fun _ => 0)
        [.set (literal "a") (literal "1"), .get (literal "b")]
        ≠
      HashTable.replies [.set (literal "a") (literal "1"), .get (literal "b")]
      ∧
      ¬ ∃ (boost : Boost) (hash : Key → UInt64), ∀ operations : List Operation,
        AvlTree.replies boost hash operations = HashTable.replies operations := by
  constructor
  . decide +kernel
  . intro h
    rcases h with ⟨boost, hash, h⟩
    apply not_injective_hash hash
    rw [← Set.injOn_univ]
    apply injOn_of_replies
    intro operations _
    apply h

end Db
