import Mathlib.Data.List.Sort

/-!
The interface of `boost::intrusive::avltree`: which values are linked into the tree, and that
`find`, `insert_unique` and `erase` tell values apart by their key only.
-/

namespace Boost.Intrusive

structure AvlTree (α κ : Type) (key : α → κ) where
  Tree : Type
  empty : Tree
  values : Tree → List α
  find : κ → Tree → Option α
  insertUnique : α → Tree → Tree
  erase : α → Tree → Tree
  values_empty : values empty = []
  find_eq_none : ∀ {k t}, find k t = none ↔ ∀ a ∈ values t, key a ≠ k
  find_eq_some : ∀ {k t a}, find k t = some a → a ∈ values t ∧ key a = k
  insertUnique_of_mem : ∀ {a t}, (∃ b ∈ values t, key b = key a) → insertUnique a t = t
  insertUnique_perm : ∀ {a t}, (∀ b ∈ values t, key b ≠ key a)
    → (values (insertUnique a t)).Perm (a :: values t)
  erase_perm : ∀ {a t}, a ∈ values t → (a :: values (erase a t)).Perm (values t)

variable {α κ : Type} [DecidableEq α] [DecidableEq κ] [LT κ] [DecidableLT κ]

-- The values in the order of their keys, this is what walking over such a tree gives.
def sortedList (key : α → κ) : AvlTree α κ key where
  Tree := List α
  empty := []
  values t := t
  find k t := t.find? (fun a => key a == k)
  insertUnique a t :=
    if t.any (fun b => key b == key a) then t else t.orderedInsert (fun a b => key a < key b) a
  erase a t := t.erase a
  values_empty := rfl
  find_eq_none := by
    intro k t
    simp
  find_eq_some := by
    intro k t a h
    refine ⟨List.mem_of_find?_eq_some h, ?_⟩
    simpa using List.find?_some h
  insertUnique_of_mem := by
    intro a t h
    rw [if_pos]
    simpa using h
  insertUnique_perm := by
    intro a t h
    rw [if_neg (by simpa using h)]
    apply List.perm_orderedInsert
  erase_perm := by
    intro a t h
    exact (List.perm_cons_erase h).symm

end Boost.Intrusive
