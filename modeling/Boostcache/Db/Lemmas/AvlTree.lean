import Boostcache.Db.AvlTree

/-!
The representation invariant of the `AvlTree` and what each of its operations does to a tree that
satisfies it.
-/

open Cpp CommandHandler JsVm

namespace Db.AvlTree

variable {boost : Boost} {hash : Key → UInt64}

def hook (e : Nat × Node) : Hook :=
  { address := e.1, internalKey := e.2.internalKey }

structure Valid (hash : Key → UInt64) (t : AvlTree boost) : Prop where
  addresses : (t.nodes.map Prod.fst).Nodup
  linked : (boost.values t.tree).Perm (t.nodes.map hook)
  internalKey : ∀ e ∈ t.nodes, e.2.internalKey = hash e.2.key
  internalKeys : (t.nodes.map (fun e => e.2.internalKey)).Nodup
  listIterator : ∀ e ∈ t.nodes, e.2.listIterator = some e.1

theorem valid_empty : Valid hash (empty : AvlTree boost) where
  addresses := by simp [empty]
  linked := by simp [empty, boost.values_empty]
  internalKey := by simp [empty]
  internalKeys := by simp [empty]
  listIterator := by simp [empty]

def shape (e : Nat × Node) : Nat × Node :=
  (e.1, { e.2 with value := [] })

theorem Valid.of_shape {t t' : AvlTree boost} (h : Valid hash t) (htree : t'.tree = t.tree)
    (hshape : t'.nodes.map shape = t.nodes.map shape)
    : Valid hash t' := by
  have hmap {β : Type} (f : Nat × Node → β) (hf : ∀ e, f (shape e) = f e)
      : t'.nodes.map f = t.nodes.map f := by
    have hcomp : f ∘ shape = f := funext hf
    have := congrArg (List.map f) hshape
    rwa [List.map_map, List.map_map, hcomp] at this
  have hforall (p : Nat × Node → Prop) (hp : ∀ e, p (shape e) ↔ p e) (h : ∀ e ∈ t.nodes, p e)
      : ∀ e ∈ t'.nodes, p e := by
    intro e he
    have hmem : shape e ∈ t.nodes.map shape := by
      rw [← hshape]
      apply List.mem_map_of_mem he
    rcases List.mem_map.mp hmem with ⟨e', he', heq⟩
    rw [← hp e, ← heq, hp e']
    apply h e' he'
  constructor
  . rw [hmap Prod.fst (fun e => rfl)]
    apply h.addresses
  . rw [htree, hmap hook (fun e => rfl)]
    apply h.linked
  . apply hforall (fun e => e.2.internalKey = hash e.2.key) (fun e => Iff.rfl) h.internalKey
  . rw [hmap (fun e => e.2.internalKey) (fun e => rfl)]
    apply h.internalKeys
  . apply hforall (fun e => e.2.listIterator = some e.1) (fun e => Iff.rfl) h.listIterator

variable {t : AvlTree boost}

theorem Valid.find_eq_none (h : Valid hash t) {k : UInt64}
    (hfind : boost.find k t.tree = none)
    : ∀ e ∈ t.nodes, e.2.internalKey ≠ k := by
  intro e he
  apply boost.find_eq_none.mp hfind (hook e)
  rw [h.linked.mem_iff]
  apply List.mem_map_of_mem he

theorem Valid.find_eq_some (h : Valid hash t) {k : UInt64} {found : Hook}
    (hfind : boost.find k t.tree = some found)
    : ∃ e ∈ t.nodes, hook e = found ∧ e.2.internalKey = k := by
  rcases boost.find_eq_some hfind with ⟨hmem, hkey⟩
  rw [h.linked.mem_iff] at hmem
  rcases List.mem_map.mp hmem with ⟨e, he, rfl⟩
  exact ⟨e, he, rfl, hkey⟩

theorem Valid.eq_of_address (h : Valid hash t) {e e' : Nat × Node} (he : e ∈ t.nodes)
    (he' : e' ∈ t.nodes) (heq : e.1 = e'.1)
    : e = e' := by
  apply List.inj_on_of_nodup_map h.addresses he he' heq

theorem Valid.eq_of_internalKey (h : Valid hash t) {e e' : Nat × Node} (he : e ∈ t.nodes)
    (he' : e' ∈ t.nodes) (heq : e.2.internalKey = e'.2.internalKey)
    : e = e' := by
  apply List.inj_on_of_nodup_map h.internalKeys he he' heq

theorem Valid.node_eq (h : Valid hash t) {e : Nat × Node} (he : e ∈ t.nodes)
    : t.node e.1 = .ok e.2 := by
  unfold node
  cases hlookup : t.nodes.lookup e.1 with
  | none =>
    have := List.lookup_eq_none_iff.mp hlookup e he
    simp at this
  | some n =>
    rcases List.lookup_eq_some_iff.mp hlookup with ⟨l1, l2, hl, -⟩
    have hmem : (e.1, n) ∈ t.nodes := by simp [hl]
    rw [← h.eq_of_address hmem he rfl]

-- The key of a request is either new to the tree or stands for the node that has its hash.
def Absent (hash : Key → UInt64) (t : AvlTree boost) (key : Key) : Prop :=
  ∀ e ∈ t.nodes, e.2.internalKey ≠ hash key

theorem absent_or_present (hash : Key → UInt64) (t : AvlTree boost) (key : Key)
    : Absent hash t key ∨ ∃ e ∈ t.nodes, e.2.internalKey = hash key := by
  by_cases h : ∃ e ∈ t.nodes, e.2.internalKey = hash key
  . exact Or.inr h
  . apply Or.inl
    intro e he hkey
    apply h ⟨e, he, hkey⟩

theorem Valid.values_absent (h : Valid hash t) {key : Key} (habsent : Absent hash t key)
    : ∀ b ∈ boost.values t.tree, b.internalKey ≠ hash key := by
  intro b hb
  rw [h.linked.mem_iff] at hb
  rcases List.mem_map.mp hb with ⟨e, he, rfl⟩
  apply habsent e he

theorem Valid.find_absent (h : Valid hash t) {key : Key} (habsent : Absent hash t key)
    : boost.find (hash key) t.tree = none := by
  rw [boost.find_eq_none]
  apply h.values_absent habsent

theorem Valid.find_present (h : Valid hash t) {e : Nat × Node} (he : e ∈ t.nodes) {key : Key}
    (hkey : e.2.internalKey = hash key)
    : boost.find (hash key) t.tree = some (hook e) := by
  cases hfind : boost.find (hash key) t.tree with
  | none => exact absurd hkey (h.find_eq_none hfind e he)
  | some found =>
    rcases h.find_eq_some hfind with ⟨e', he', rfl, hkey'⟩
    rw [h.eq_of_internalKey he' he (hkey'.trans hkey.symm)]

theorem get_cases (h : Valid hash t) (name key : ByteString) (rest : Arguments)
    : (Absent hash t key ∧ t.get hash (name :: key :: rest) = .ok (t, replyNil))
      ∨
      ∃ e ∈ t.nodes, e.2.internalKey = hash key
        ∧ t.get hash (name :: key :: rest) = .ok (t, toReplyString e.2.value) := by
  unfold get
  simp only [subscript, List.getElem?_cons_succ, List.getElem?_cons_zero, ok_bind]
  rcases absent_or_present hash t key with habsent | ⟨e, he, hkey⟩
  . apply Or.inl
    rw [h.find_absent habsent]
    exact ⟨habsent, rfl⟩
  . apply Or.inr
    refine ⟨e, he, hkey, ?_⟩
    rw [h.find_present he hkey]
    simp only [hook, h.node_eq he, ok_bind]
    rfl

theorem allocate_not_mem (nodes : List (Nat × Node)) : allocate nodes ∉ nodes.map Prod.fst := by
  have hle (l : List Nat) : ∀ a ∈ l, a ≤ l.foldr max 0 := by
    induction l with
    | nil => simp
    | cons b l ih =>
      intro a ha
      rw [List.foldr_cons]
      rcases List.mem_cons.mp ha with rfl | ha
      . omega
      . have := ih a ha
        omega
  intro hmem
  have := hle _ _ hmem
  unfold allocate at this
  omega

theorem Valid.push_back (h : Valid hash t) {key : Key} (habsent : Absent hash t key)
    (value : Value)
    : Valid hash
        {
          nodes := t.nodes ++ [(allocate t.nodes,
            { Node.data hash key value with listIterator := some (allocate t.nodes) })]
          tree := boost.insertUnique ⟨allocate t.nodes, hash key⟩ t.tree
        } where
  addresses := by
    rw [List.map_append, List.map_singleton, List.nodup_append]
    refine ⟨h.addresses, by simp, ?_⟩
    intro a ha b hb heq
    have hb : b = allocate t.nodes := List.mem_singleton.mp hb
    apply allocate_not_mem t.nodes
    rwa [← hb, ← heq]
  linked := by
    apply (boost.insertUnique_perm (h.values_absent habsent)).trans
    apply (List.Perm.cons _ h.linked).trans
    rw [List.map_append]
    apply (List.perm_append_singleton _ _).symm
  internalKey := by
    intro e he
    rcases List.mem_append.mp he with he | he
    . apply h.internalKey e he
    . rw [List.mem_singleton.mp he]
      rfl
  internalKeys := by
    rw [List.map_append, List.map_singleton, List.nodup_append]
    refine ⟨h.internalKeys, by simp, ?_⟩
    intro a ha b hb
    rcases List.mem_map.mp ha with ⟨e, he, rfl⟩
    rw [List.mem_singleton.mp hb]
    apply habsent e he
  listIterator := by
    intro e he
    rcases List.mem_append.mp he with he | he
    . apply h.listIterator e he
    . rw [List.mem_singleton.mp he]

theorem assign_shape (nodes : List (Nat × Node)) (address : Nat) (value : Value)
    : (assign nodes address value).map shape = nodes.map shape := by
  unfold assign
  rw [List.map_map]
  apply List.map_congr_left
  intro e _
  dsimp only [Function.comp]
  split
  . rfl
  . rfl

theorem Valid.set_absent (h : Valid hash t) {key : Key} (habsent : Absent hash t key)
    (name value : ByteString) (rest : Arguments)
    : t.set hash (name :: key :: value :: rest)
        =
      .ok
        (
          {
            nodes := t.nodes ++ [(allocate t.nodes,
              { Node.data hash key value with listIterator := some (allocate t.nodes) })]
            tree := boost.insertUnique ⟨allocate t.nodes, hash key⟩ t.tree
          },
          replyOk
        ) := by
  unfold set
  simp only [subscript, List.getElem?_cons_succ, List.getElem?_cons_zero, ok_bind]
  rw [h.find_absent habsent]
  rfl

theorem Valid.set_present (h : Valid hash t) {e : Nat × Node} (he : e ∈ t.nodes) {key : Key}
    (hkey : e.2.internalKey = hash key) (name value : ByteString) (rest : Arguments)
    : t.set hash (name :: key :: value :: rest)
        =
      .ok ({ t with nodes := assign t.nodes e.1 value }, replyOk) := by
  unfold set
  simp only [subscript, List.getElem?_cons_succ, List.getElem?_cons_zero, ok_bind]
  rw [h.find_present he hkey]
  simp only [hook, h.node_eq he, ok_bind]
  rfl

theorem Valid.assign (h : Valid hash t) (address : Nat) (value : Value)
    : Valid hash { t with nodes := assign t.nodes address value } := by
  apply h.of_shape
  . rfl
  . apply assign_shape

-- `insert_unique` does not meet a node with this hash, so the node joins both containers.
structure Adds (t t' : AvlTree boost) (e : Nat × Node) : Prop where
  nodes : t'.nodes = t.nodes ++ [e]
  tree : t'.tree = boost.insertUnique (hook e) t.tree
  unique : ∀ b ∈ boost.values t.tree, b.internalKey ≠ e.2.internalKey
  linked : (boost.values t'.tree).Perm (hook e :: boost.values t.tree)

structure Overwrites (t t' : AvlTree boost) (e : Nat × Node) (value : Value) : Prop where
  mem : e ∈ t.nodes
  nodes : t'.nodes = assign t.nodes e.1 value
  tree : t'.tree = t.tree

theorem set_spec (h : Valid hash t) (name key value : ByteString) (rest : Arguments)
    : ∃ t', t.set hash (name :: key :: value :: rest) = .ok (t', replyOk) ∧ Valid hash t'
        ∧ ((Absent hash t key ∧ ∃ e, e.2.key = key ∧ e.2.value = value ∧ Adds t t' e)
          ∨ ∃ e, e.2.internalKey = hash key ∧ Overwrites t t' e value) := by
  rcases absent_or_present hash t key with habsent | ⟨e, he, hkey⟩
  . have hset := h.set_absent habsent name value rest
    have hunique := h.values_absent habsent
    refine ⟨_, hset, h.push_back habsent value, Or.inl ⟨habsent, _, ?_, ?_, rfl, rfl, hunique, ?_⟩⟩
    . rfl
    . rfl
    . apply boost.insertUnique_perm hunique
  . have hset := h.set_present he hkey name value rest
    exact ⟨_, hset, h.assign e.1 value, Or.inr ⟨e, hkey, he, rfl, rfl⟩⟩

theorem Valid.dispose_eq (h : Valid hash t) {e : Nat × Node} (he : e ∈ t.nodes)
    : ∃ l1 l2, t.nodes = l1 ++ e :: l2 ∧ dispose t.nodes e.2 = .ok (l1 ++ l2) := by
  rcases List.exists_of_eraseP (p := fun e' => e'.1 == e.1) he (by simp)
    with ⟨e', l1, l2, -, hkey, hl, herase⟩
  have heq : e' = e := by
    apply h.eq_of_address _ he
    . simpa using hkey
    . simp [hl]
  refine ⟨l1, l2, by rw [hl, heq], ?_⟩
  unfold dispose
  simp only [h.listIterator e he]
  rw [if_pos (List.mem_map_of_mem he), herase]

theorem Valid.erase (h : Valid hash t) {e : Nat × Node} {l1 l2 : List (Nat × Node)}
    (hnodes : t.nodes = l1 ++ e :: l2)
    : Valid hash { nodes := l1 ++ l2, tree := boost.erase (hook e) t.tree } := by
  have hsub : (l1 ++ l2).Sublist t.nodes := by
    rw [hnodes]
    apply List.Sublist.append (List.Sublist.refl l1) (List.sublist_cons_self e l2)
  have he : e ∈ t.nodes := by simp [hnodes]
  constructor
  . exact (hsub.map _).nodup h.addresses
  . have hmem : hook e ∈ boost.values t.tree := by
      rw [h.linked.mem_iff]
      apply List.mem_map_of_mem he
    apply List.Perm.cons_inv (a := hook e)
    apply (boost.erase_perm hmem).trans
    apply h.linked.trans
    rw [hnodes, List.map_append, List.map_cons, List.map_append]
    apply List.perm_middle
  . intro e' he'
    apply h.internalKey e' (hsub.subset he')
  . exact (hsub.map _).nodup h.internalKeys
  . intro e' he'
    apply h.listIterator e' (hsub.subset he')

theorem Valid.del_absent (h : Valid hash t) {key : Key} (habsent : Absent hash t key)
    (name : ByteString) (rest : Arguments)
    : t.del hash (name :: key :: rest) = .ok (t, replyFalse) := by
  unfold del
  simp only [subscript, List.getElem?_cons_succ, List.getElem?_cons_zero, ok_bind]
  rw [h.find_absent habsent]
  rfl

theorem Valid.del_present (h : Valid hash t) {e : Nat × Node} (he : e ∈ t.nodes) {key : Key}
    (hkey : e.2.internalKey = hash key) (name : ByteString) (rest : Arguments)
    : ∃ l1 l2, t.nodes = l1 ++ e :: l2
        ∧ t.del hash (name :: key :: rest)
            = .ok ({ nodes := l1 ++ l2, tree := boost.erase (hook e) t.tree }, replyTrue) := by
  rcases h.dispose_eq he with ⟨l1, l2, hnodes, hdispose⟩
  refine ⟨l1, l2, hnodes, ?_⟩
  unfold del
  simp only [subscript, List.getElem?_cons_succ, List.getElem?_cons_zero, ok_bind]
  rw [h.find_present he hkey]
  have hnode := h.node_eq he
  simp only [hook, hnode, ok_bind, hdispose]
  rfl

structure Removes (t t' : AvlTree boost) (e : Nat × Node) : Prop where
  nodes : ∃ l1 l2, t.nodes = l1 ++ e :: l2 ∧ t'.nodes = l1 ++ l2
  linked : (hook e :: boost.values t'.tree).Perm (boost.values t.tree)

theorem del_spec (h : Valid hash t) (name key : ByteString) (rest : Arguments)
    : ∃ t' reply, t.del hash (name :: key :: rest) = .ok (t', reply) ∧ Valid hash t'
        ∧ ((reply = replyTrue ∧ ∃ e, e.2.internalKey = hash key ∧ Removes t t' e)
          ∨ (reply = replyFalse ∧ t' = t ∧ Absent hash t key)) := by
  rcases absent_or_present hash t key with habsent | ⟨e, he, hkey⟩
  . exact ⟨t, _, h.del_absent habsent name rest, h, Or.inr ⟨rfl, rfl, habsent⟩⟩
  . rcases h.del_present he hkey name rest with ⟨l1, l2, hnodes, hdel⟩
    have hmem : hook e ∈ boost.values t.tree := by
      rw [h.linked.mem_iff]
      apply List.mem_map_of_mem he
    refine ⟨_, _, hdel, h.erase hnodes, Or.inl ⟨rfl, e, hkey, ?_⟩⟩
    exact ⟨⟨l1, l2, hnodes, rfl⟩, boost.erase_perm hmem⟩

theorem foreach_eq {ρ : Type} (v8 : V8 ρ) (t : AvlTree boost) (name code : ByteString)
    (rest : Arguments)
    : t.foreach v8 (name :: code :: rest)
        =
      match init v8 code with
      | none => .ok (t, replyError)
      | some vm =>
        .ok
          (
            { t with nodes := (forEach v8 access vm t.nodes).2 },
            if (forEach v8 access vm t.nodes).1 then replyTrue else replyError
          ) := by
  rfl

theorem Valid.foreach {ρ : Type} (h : Valid hash t) (v8 : V8 ρ) (vm : ρ)
    : Valid hash { t with nodes := (forEach v8 access vm t.nodes).2 } := by
  apply h.of_shape
  . rfl
  . apply forEach_map
    intro x v
    rfl

end Db.AvlTree
