import Boostcache.Db.Lemmas.AvlTree

/-!
The two containers of the `AvlTree` hold the same nodes in every state that operations on an empty
tree can lead to, and what this means for the operations.
-/

open Cpp CommandHandler JsVm

namespace Db.AvlTree

variable {boost : Boost} {hash : Key → UInt64}

inductive Reachable (hash : Key → UInt64) : AvlTree boost → Prop where
  | empty : Reachable hash empty
  | get {t t' : AvlTree boost} {arguments : Arguments} {reply : ByteString}
      : Reachable hash t → t.get hash arguments = .ok (t', reply) → Reachable hash t'
  | set {t t' : AvlTree boost} {arguments : Arguments} {reply : ByteString}
      : Reachable hash t → t.set hash arguments = .ok (t', reply) → Reachable hash t'
  | del {t t' : AvlTree boost} {arguments : Arguments} {reply : ByteString}
      : Reachable hash t → t.del hash arguments = .ok (t', reply) → Reachable hash t'
  | foreach {ρ : Type} {v8 : V8 ρ} {t t' : AvlTree boost} {arguments : Arguments} {reply : ByteString}
      : Reachable hash t → t.foreach v8 arguments = .ok (t', reply) → Reachable hash t'

variable {t t' : AvlTree boost} {arguments : Arguments} {reply : ByteString}

theorem Adds.length_nodes {e : Nat × Node} (h : Adds t t' e)
    : t'.nodes.length = t.nodes.length + 1 := by
  rw [h.nodes, List.length_append, List.length_singleton]

theorem Overwrites.length_nodes {e : Nat × Node} {value : Value} (h : Overwrites t t' e value)
    : t'.nodes.length = t.nodes.length := by
  rw [h.nodes]
  apply List.length_map

theorem Removes.length_nodes {e : Nat × Node} (h : Removes t t' e)
    : t'.nodes.length + 1 = t.nodes.length := by
  rcases h.nodes with ⟨l1, l2, ht, ht'⟩
  rw [ht, ht', List.length_append, List.length_append, List.length_cons]
  rfl

theorem Valid.foreach_spec {ρ : Type} (h : Valid hash t) (v8 : V8 ρ) (name code : ByteString)
    (rest : Arguments)
    : ∃ t' reply, t.foreach v8 (name :: code :: rest) = .ok (t', reply) ∧ Valid hash t'
        ∧ t'.tree = t.tree ∧ t'.nodes.map shape = t.nodes.map shape := by
  rw [foreach_eq]
  cases init v8 code with
  | none => exact ⟨t, _, rfl, h, rfl, rfl⟩
  | some vm =>
    refine ⟨_, _, rfl, h.foreach v8 vm, rfl, ?_⟩
    apply forEach_map
    intro x v
    rfl

-- An operation that gets too few arguments reads behind the end of the vector and has no result.

theorem Valid.get_step (h : Valid hash t) (hget : t.get hash arguments = .ok (t', reply))
    : Valid hash t' := by
  rcases arguments with _ | ⟨name, _ | ⟨key, rest⟩⟩
  . contradiction
  . contradiction
  . rcases get_cases h name key rest with ⟨-, hget'⟩ | ⟨e, -, -, hget'⟩
    . cases hget.symm.trans hget'
      exact h
    . cases hget.symm.trans hget'
      exact h

theorem Valid.set_step (h : Valid hash t) (hset : t.set hash arguments = .ok (t', reply))
    : Valid hash t' := by
  rcases arguments with _ | ⟨name, _ | ⟨key, _ | ⟨value, rest⟩⟩⟩
  . contradiction
  . contradiction
  . unfold set at hset
    simp only [subscript, List.getElem?_cons_succ, List.getElem?_cons_zero, ok_bind] at hset
    split at hset
    . contradiction
    . contradiction
  . rcases set_spec h name key value rest with ⟨t1, hset', hvalid, -⟩
    cases hset.symm.trans hset'
    exact hvalid

theorem Valid.del_step (h : Valid hash t) (hdel : t.del hash arguments = .ok (t', reply))
    : Valid hash t' := by
  rcases arguments with _ | ⟨name, _ | ⟨key, rest⟩⟩
  . contradiction
  . contradiction
  . rcases del_spec h name key rest with ⟨t1, reply1, hdel', hvalid, -⟩
    cases hdel.symm.trans hdel'
    exact hvalid

theorem Valid.foreach_step {ρ : Type} {v8 : V8 ρ} (h : Valid hash t)
    (hforeach : t.foreach v8 arguments = .ok (t', reply))
    : Valid hash t' := by
  rcases arguments with _ | ⟨name, _ | ⟨code, rest⟩⟩
  . contradiction
  . contradiction
  . rcases h.foreach_spec v8 name code rest with ⟨t1, reply1, hforeach', hvalid, -⟩
    cases hforeach.symm.trans hforeach'
    exact hvalid

theorem Reachable.valid (h : Reachable hash t) : Valid hash t := by
  induction h with
  | empty => exact valid_empty
  | get _ hget ih => exact ih.get_step hget
  | set _ hset ih => exact ih.set_step hset
  | del _ hdel ih => exact ih.del_step hdel
  | foreach _ hforeach ih => exact ih.foreach_step hforeach

theorem reachable_representation (h : Reachable hash t)
    : Valid hash t
      ∧ (∀ name key rest, ∃ reply, t.get hash (name :: key :: rest) = .ok (t, reply))
      ∧ (∀ name key value rest, ∃ t', t.set hash (name :: key :: value :: rest) = .ok (t', replyOk)
          ∧ ((Absent hash t key ∧ ∃ e, e.2.key = key ∧ e.2.value = value ∧ Adds t t' e)
            ∨ ∃ e, e.2.internalKey = hash key ∧ Overwrites t t' e value)
          ∧ (t'.nodes.length = t.nodes.length + 1 ↔ Absent hash t key))
      ∧ (∀ name key rest, ∃ t' reply, t.del hash (name :: key :: rest) = .ok (t', reply)
          ∧ ((reply = replyTrue ∧ ∃ e, e.2.internalKey = hash key ∧ Removes t t' e)
            ∨ (reply = replyFalse ∧ t' = t ∧ Absent hash t key))
          ∧ (reply = replyTrue ↔ t'.nodes.length + 1 = t.nodes.length)
          ∧ (reply = replyFalse ↔ t' = t))
      ∧ ∀ (ρ : Type) (v8 : V8 ρ) (name code : ByteString) (rest : Arguments),
          ∃ t' reply, t.foreach v8 (name :: code :: rest) = .ok (t', reply)
            ∧ t'.tree = t.tree ∧ t'.nodes.map shape = t.nodes.map shape := by
  have hvalid := h.valid
  refine ⟨hvalid, ?_, ?_, ?_, ?_⟩
  . intro name key rest
    rcases get_cases hvalid name key rest with ⟨-, hget⟩ | ⟨e, -, -, hget⟩
    . exact ⟨_, hget⟩
    . exact ⟨_, hget⟩
  . intro name key value rest
    rcases set_spec hvalid name key value rest with ⟨t', hset, -, hcases⟩
    refine ⟨t', hset, hcases, ?_⟩
    rcases hcases with ⟨habsent, e, -, -, hadds⟩ | ⟨e, hkey, hoverwrites⟩
    . have := hadds.length_nodes
      simp [this, habsent]
    . have hlength := hoverwrites.length_nodes
      have hpresent : ¬ Absent hash t key := fun habsent => habsent e hoverwrites.mem hkey
      simp [hlength, hpresent]
  . intro name key rest
    rcases del_spec hvalid name key rest with ⟨t', reply, hdel, -, hcases⟩
    refine ⟨t', reply, hdel, hcases, ?_⟩
    have hne : replyTrue ≠ replyFalse := by decide
    rcases hcases with ⟨rfl, e, -, hremoves⟩ | ⟨rfl, rfl, -⟩
    . have hlength := hremoves.length_nodes
      have hne' : t' ≠ t := by
        intro heq
        rw [heq] at hlength
        omega
      simp [hlength, hne, hne']
    . simp [hne.symm]
  . intro ρ v8 name code rest
    rcases hvalid.foreach_spec v8 name code rest with ⟨t', reply, hforeach, -, htree, hshape⟩
    exact ⟨t', reply, hforeach, htree, hshape⟩

theorem reachable_representation_collision
    : ∃ t : AvlTree (Boost.Intrusive.sortedList Hook.internalKey),
        empty.set (fun _ => 0) [literal "ATSET", literal "a", literal "1"] = .ok (t, replyOk)
          ∧ Valid (fun _ => 0) t
          ∧ ∃ t', t.del (fun _ => 0) [literal "ATDEL", literal "b"] = .ok (t', replyTrue)
            ∧ t'.nodes.length + 1 = t.nodes.length := by
  have hset : (empty : AvlTree (Boost.Intrusive.sortedList Hook.internalKey)).set (fun _ => 0)
      [literal "ATSET", literal "a", literal "1"]
        = .ok
          (
            {
              nodes := [(1, { Node.data (fun _ => 0) (literal "a") (literal "1") with
                listIterator := some 1 })]
              tree := [⟨1, 0⟩]
            },
            replyOk
          ) := by
    rfl
  have h := reachable_representation (Reachable.set Reachable.empty hset)
  rcases h with ⟨hvalid, -, -, hdel, -⟩
  rcases hdel (literal "ATDEL") (literal "b") [] with ⟨t', reply, hdel, hcases, htrue, -⟩
  refine ⟨_, hset, hvalid, t', ?_⟩
  rcases hcases with ⟨rfl, -⟩ | ⟨-, -, habsent⟩
  . exact ⟨hdel, htrue.mp rfl⟩
  . exact absurd rfl (habsent _ (List.mem_singleton.mpr rfl))

end Db.AvlTree
