import Boostcache.Db.HashTable

/-!
What the operations of the `HashTable` do to the finite map.
-/

open Cpp CommandHandler JsVm

namespace Db

theorem entries_eq {l l' : List (Sigma (fun _ : Key => Value))} (hkeys : l'.keys = l.keys)
    (hnodup : l.NodupKeys) (h : ∀ key, l'.dlookup key = l.dlookup key)
    : l' = l := by
  induction l generalizing l' with
  | nil => simpa [List.keys] using hkeys
  | cons e l ih =>
    cases l' with
    | nil => contradiction
    | cons e' l' =>
      rcases e with ⟨key, value⟩
      rcases e' with ⟨key', value'⟩
      rw [List.keys_cons, List.keys_cons] at hkeys
      injection hkeys with hkey hkeys
      dsimp only at hkey
      subst hkey
      rw [List.nodupKeys_cons] at hnodup
      have hvalue := h key'
      rw [List.dlookup_cons_eq, List.dlookup_cons_eq] at hvalue
      injection hvalue with hvalue
      have hrest (k : Key) : l'.dlookup k = l.dlookup k := by
        by_cases hk : k = key'
        . rw [hk, List.dlookup_eq_none.mpr hnodup.1, List.dlookup_eq_none.mpr (hkeys ▸ hnodup.1)]
        . have := h k
          rwa [List.dlookup_cons_ne _ _ hk, List.dlookup_cons_ne _ _ hk] at this
      rw [hvalue, ih hkeys hnodup.2 hrest]

namespace HashTable

theorem erase_of_lookup_eq_none {table : Table} {key : Key} (h : table.lookup key = none)
    : table.erase key = table := by
  apply AList.ext
  apply List.kerase_of_notMem_keys
  apply AList.lookup_eq_none.mp h

variable (t : HashTable) (name key value : ByteString) (rest : Arguments)

theorem get_eq
    : t.get (name :: key :: rest)
        =
      .ok
        (
          t,
          match t.table.lookup key with
          | none => replyNil
          | some value => toReplyString value
        ) := by
  unfold get
  simp only [subscript, List.getElem?_cons_succ, List.getElem?_cons_zero, ok_bind]
  cases t.table.lookup key with
  | none => rfl
  | some value => rfl

theorem set_eq
    : t.set (name :: key :: value :: rest)
        =
      .ok ({ table := t.table.insert key value }, replyOk) := by
  rfl

theorem del_eq
    : t.del (name :: key :: rest)
        =
      .ok
        (
          { table := t.table.erase key },
          match t.table.lookup key with
          | none => replyFalse
          | some _ => replyTrue
        ) := by
  unfold del
  simp only [subscript, List.getElem?_cons_succ, List.getElem?_cons_zero, ok_bind]
  cases hlookup : t.table.lookup key with
  | none =>
    rw [erase_of_lookup_eq_none hlookup]
    rfl
  | some value => rfl

theorem foreach_eq {ρ : Type} (v8 : V8 ρ) (code : ByteString)
    : t.foreach v8 (name :: code :: rest)
        =
      match init v8 code with
      | none => .ok (t, replyError)
      | some vm =>
        .ok
          (
            { table := ⟨(forEach v8 access vm t.table.entries).2, nodupKeys_forEach v8 vm t.table⟩ },
            if (forEach v8 access vm t.table.entries).1 then replyTrue else replyError
          ) := by
  rfl

end HashTable

end Db
