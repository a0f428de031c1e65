import Boostcache.Boost.Intrusive
import Boostcache.Db.HashTable

/-!
This module contains the `AvlTree` of `db/avltree.{h,cpp}`: the nodes live in a list and are linked
into an intrusive tree that only looks at the hash of their key. A node is identified by its address,
which is also its position in the list. Neither what `std::hash` computes nor the tree is part of
the program, so both are parameters.
-/

open Cpp CommandHandler JsVm

namespace Db

-- `Node::Data`, a `listIterator` that has not been assigned points nowhere.
structure Node where
  internalKey : UInt64
  listIterator : Option Nat
  key : Key
  value : Value
  deriving DecidableEq, Repr

def Node.data (hash : Key → UInt64) (key : Key) (value : Value) : Node :=
  { internalKey := hash key, listIterator := none, key := key, value := value }

structure Hook where
  address : Nat
  internalKey : UInt64
  deriving DecidableEq, Repr

abbrev Boost := Boost.Intrusive.AvlTree Hook UInt64 Hook.internalKey

structure AvlTree (boost : Boost) where
  nodes : List (Nat × Node)
  tree : boost.Tree

namespace AvlTree

variable {boost : Boost} (hash : Key → UInt64)

def empty : AvlTree boost :=
  { nodes := [], tree := boost.empty }

def node (t : AvlTree boost) (address : Nat) : Except Fault Node :=
  match t.nodes.lookup address with
  | some node => .ok node
  | none => .error .dangling

def get (t : AvlTree boost) (arguments : Arguments) : Except Fault (AvlTree boost × ByteString) := do
  let key ← subscript arguments 1
  match boost.find (hash key) t.tree with
  | none => return (t, replyNil)
  | some found =>
    let node ← t.node found.address
    return (t, toReplyString node.value)

def allocate (nodes : List (Nat × Node)) : Nat :=
  (nodes.map Prod.fst).foldr max 0 + 1

def assign (nodes : List (Nat × Node)) (address : Nat) (value : Value) : List (Nat × Node) :=
  nodes.map (fun e => if e.1 = address then (e.1, { e.2 with value := value }) else e)

def set (t : AvlTree boost) (arguments : Arguments) : Except Fault (AvlTree boost × ByteString) := do
  let key ← subscript arguments 1
  match boost.find (hash key) t.tree with
  | some found =>
    let value ← subscript arguments 2
    let _ ← t.node found.address
    return ({ t with nodes := assign t.nodes found.address value }, replyOk)
  | none =>
    let value ← subscript arguments 2
    let address := allocate t.nodes
    let node := { Node.data hash key value with listIterator := some address }
    let t :=
      {
        nodes := t.nodes ++ [(address, node)]
        tree := boost.insertUnique ⟨address, node.internalKey⟩ t.tree
      }
    return (t, replyOk)

-- `DeleteDisposer`
def dispose (nodes : List (Nat × Node)) (deleteMe : Node) : Except Fault (List (Nat × Node)) :=
  match deleteMe.listIterator with
  | none => .error .dangling
  | some position =>
    if position ∈ nodes.map Prod.fst then
      .ok (nodes.eraseP (fun e => e.1 == position))
    else
      .error .dangling

def del (t : AvlTree boost) (arguments : Arguments) : Except Fault (AvlTree boost × ByteString) := do
  let key ← subscript arguments 1
  match boost.find (hash key) t.tree with
  | none => return (t, replyFalse)
  | some found =>
    let tree := boost.erase found t.tree
    let deleteMe ← t.node found.address
    let nodes ← dispose t.nodes deleteMe
    return ({ nodes := nodes, tree := tree }, replyTrue)

def access : Access (Nat × Node) where
  key e := e.2.key
  value e := e.2.value
  assign e v := (e.1, { e.2 with value := v })
  key_assign _ _ := rfl
  value_assign _ _ := rfl
  assign_value _ := rfl

def foreach {ρ : Type} (v8 : V8 ρ) (t : AvlTree boost) (arguments : Arguments)
    : Except Fault (AvlTree boost × ByteString) := do
  let code ← subscript arguments 1
  match init v8 code with
  | none => return (t, replyError)
  | some vm =>
    let nodes := (forEach v8 access vm t.nodes).2
    let reply := if (forEach v8 access vm t.nodes).1 then replyTrue else replyError
    return ({ t with nodes := nodes }, reply)

end AvlTree

end Db
