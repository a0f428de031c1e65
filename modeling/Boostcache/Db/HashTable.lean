import Boostcache.Kernel.CommandHandler.Reply
import Boostcache.Server.JsVm
import Mathlib.Data.List.AList

/-!
This module contains the `HashTable` of `db/hashtable.{h,cpp}`. `std::unordered_map` is a finite map
whose entries are listed in the order in which they are visited. This order is not specified, so
what holds of `foreach` has to hold of every list of entries.
-/

open Cpp CommandHandler JsVm

namespace Db

abbrev Key := ByteString
abbrev Value := ByteString

abbrev Table := AList (fun _ : Key => Value)

structure HashTable where
  table : Table
  deriving DecidableEq

namespace HashTable

def empty : HashTable :=
  { table := ∅ }

def get (t : HashTable) (arguments : Arguments) : Except Fault (HashTable × ByteString) := do
  let key ← subscript arguments 1
  match t.table.lookup key with
  | none => return (t, replyNil)
  | some value => return (t, toReplyString value)

def set (t : HashTable) (arguments : Arguments) : Except Fault (HashTable × ByteString) := do
  let key ← subscript arguments 1
  let value ← subscript arguments 2
  return ({ table := t.table.insert key value }, replyOk)

def del (t : HashTable) (arguments : Arguments) : Except Fault (HashTable × ByteString) := do
  let key ← subscript arguments 1
  match t.table.lookup key with
  | none => return (t, replyFalse)
  | some _ => return ({ table := t.table.erase key }, replyTrue)

def access : Access (Sigma (fun _ : Key => Value)) where
  key := Sigma.fst
  value := Sigma.snd
  assign x v := ⟨x.fst, v⟩
  key_assign _ _ := rfl
  value_assign _ _ := rfl
  assign_value _ := rfl

variable {ρ : Type}

theorem nodupKeys_forEach (v8 : V8 ρ) (vm : ρ) (table : Table)
    : (forEach v8 access vm table.entries).2.NodupKeys := by
  have hkeys : (forEach v8 access vm table.entries).2.keys = table.entries.keys :=
    forEach_map v8 access access.key_assign vm table.entries
  unfold List.NodupKeys
  rw [hkeys]
  apply table.nodupKeys

def foreach (v8 : V8 ρ) (t : HashTable) (arguments : Arguments)
    : Except Fault (HashTable × ByteString) := do
  let code ← subscript arguments 1
  match init v8 code with
  | none => return (t, replyError)
  | some vm =>
    let table : Table := ⟨(forEach v8 access vm t.table.entries).2, nodupKeys_forEach v8 vm t.table⟩
    let reply := if (forEach v8 access vm t.table.entries).1 then replyTrue else replyError
    return ({ table := table }, reply)

end HashTable

end Db
