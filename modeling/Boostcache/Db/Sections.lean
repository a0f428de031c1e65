import Boostcache.Db.Lemmas.AvlTree
import Boostcache.Db.Lemmas.HashTable
import Boostcache.Machine.Locked

/-!
What `HashTable` and `AvlTree` do while they own `m_access`, one statement after the other: `get`
owns it shared, everything else exclusive. In between the stores are in states that no operation
leaves behind, such as a node that is in the list and not yet in the tree.
-/

open Cpp CommandHandler JsVm Machine

namespace JsVm

variable {ρ α : Type}

-- One round of the loop of `foreach`.
def visit (v8 : V8 ρ) (access : Access α) (vm : ρ) (position : Nat) (xs : List α)
    : List α × (ρ × Nat ⊕ Bool) :=
  match xs[position]? with
  | none => (xs, .inr true)
  | some x =>
    match call v8 vm (access.key x) (access.value x) with
    | (none, _) => (xs, .inr false)
    | (some newValue, vm) =>
      (xs.modify position (access.assign · newValue), .inl (vm, position + 1))

theorem map_modify {β : Type} {f : α → β} {g : α → α} (hf : ∀ x, f (g x) = f x) (xs : List α)
    (position : Nat)
    : (xs.modify position g).map f = xs.map f := by
  induction xs generalizing position with
  | nil => simp
  | cons x xs ih =>
    cases position with
    | zero => simp [hf]
    | succ position => simp [ih]

theorem map_visit {β : Type} (v8 : V8 ρ) (access : Access α) {f : α → β}
    (hf : ∀ x v, f (access.assign x v) = f x) (vm : ρ) (position : Nat) (xs : List α)
    : (visit v8 access vm position xs).1.map f = xs.map f := by
  unfold visit
  split
  . rfl
  . split
    . rfl
    . next newValue _ _ => apply map_modify (fun x => hf x newValue)

theorem visit_fst_of_inr {v8 : V8 ρ} {access : Access α} {vm : ρ} {position : Nat} {xs : List α}
    {done : Bool} (h : (visit v8 access vm position xs).2 = .inr done)
    : (visit v8 access vm position xs).1 = xs := by
  unfold visit at h ⊢
  split
  . rfl
  . split
    . rfl
    . next hx _ _ _ hcall => simp [hx, hcall] at h

theorem modify_append_cons (g : α → α) (pre : List α) (x : α) (xs : List α)
    : (pre ++ x :: xs).modify pre.length g = pre ++ g x :: xs := by
  induction pre with
  | nil => rfl
  | cons y pre ih => simp [ih]

section Loop

variable {β γ ε : Type} (object : Object β ε) (mode : Mode) {v8 : V8 ρ} {access : Access α}
  {reply : Bool → β} (next : ρ → Nat → object.Local mode) (entries : object.State → List α)
  (rest : object.State → γ)

/--
A section that makes the rounds of the loop one after the other ends like `forEach`. `rest` is what
the loop does not touch.
-/
theorem exec_visit
    (hdone : ∀ {s vm position done},
      (visit v8 access vm position (entries s)).2 = .inr done →
        object.micro mode (next vm position) s = .ok (s, .inr (reply done)))
    (hnext : ∀ {s vm position vm' position'},
      (visit v8 access vm position (entries s)).2 = .inl (vm', position') →
        ∃ s', object.micro mode (next vm position) s = .ok (s', .inl (next vm' position'))
          ∧ entries s' = (visit v8 access vm position (entries s)).1 ∧ rest s' = rest s)
    {s : object.State} {pre xs : List α} (hs : entries s = pre ++ xs) (vm : ρ)
    : ∃ s', object.Exec mode (next vm pre.length) s s' (reply (forEach v8 access vm xs).1)
        ∧ entries s' = pre ++ (forEach v8 access vm xs).2 ∧ rest s' = rest s := by
  induction xs generalizing s pre vm with
  | nil =>
    refine ⟨s, .done (hdone ?_), hs, rfl⟩
    rw [List.append_nil] at hs
    simp [visit, hs, forEach]
  | cons x xs ih =>
    unfold forEach
    have hx : (entries s)[pre.length]? = some x := by
      simp [hs]
    cases hcall : call v8 vm (access.key x) (access.value x) with
    | mk newValue vm' =>
      cases newValue with
      | none =>
        refine ⟨s, .done (hdone ?_), hs, rfl⟩
        simp [visit, hx, hcall]
      | some newValue =>
        have hvisit : visit v8 access vm pre.length (entries s)
            = (pre ++ access.assign x newValue :: xs, .inl (vm', pre.length + 1)) := by
          simp only [visit, hx, hcall]
          rw [hs, modify_append_cons]
        rcases hnext (by rw [hvisit]) with ⟨s1, hmicro, hs1, hrest1⟩
        rw [hvisit, List.append_cons] at hs1
        rcases ih hs1 vm' with ⟨s', hexec, hs', hrest'⟩
        rw [List.length_append, List.length_singleton] at hexec
        refine ⟨s', .next hmicro hexec, ?_, hrest'.trans hrest1⟩
        rw [hs', List.append_assoc]
        rfl

end Loop

end JsVm

namespace Db

variable {ρ : Type}

def foreachReply (done : Bool) : ByteString :=
  if done then replyTrue else replyError

namespace HashTable

inductive Reader where
  | get (arguments : Arguments)

inductive Writer (ρ : Type) where
  | set (arguments : Arguments)
  | assign (key : Key) (value : Value)
  | del (arguments : Arguments)
  | erase (key : Key)
  | visit (vm : ρ) (position : Nat)

abbrev Local (ρ : Type) : Mode → Type
  | .shared => Reader
  | .exclusive => Writer ρ

def visit (v8 : V8 ρ) (t : HashTable) (vm : ρ) (position : Nat)
    : HashTable × (ρ × Nat ⊕ Bool) :=
  let visited := JsVm.visit v8 access vm position t.table.entries
  have hkeys : visited.1.keys = t.table.entries.keys :=
    map_visit v8 access access.key_assign vm position t.table.entries
  ({ table := ⟨visited.1, by unfold List.NodupKeys; rw [hkeys]; exact t.table.nodupKeys⟩ }, visited.2)

def read (t : HashTable) : Reader → Except Fault (Reader ⊕ ByteString)
  | .get arguments => do
    let key ← subscript arguments 1
    match t.table.lookup key with
    | none => return .inr replyNil
    | some value => return .inr (toReplyString value)

-- `m_table[key]` inserts an empty value if there is none yet.
def write (v8 : V8 ρ) (t : HashTable)
    : Writer ρ → Except Fault (HashTable × (Writer ρ ⊕ ByteString))
  | .set arguments => do
    let key ← subscript arguments 1
    let value ← subscript arguments 2
    match t.table.lookup key with
    | none => return ({ table := t.table.insert key [] }, .inl (.assign key value))
    | some _ => return (t, .inl (.assign key value))
  | .assign key value =>
    .ok ({ table := t.table.insert key value }, .inr replyOk)
  | .del arguments => do
    let key ← subscript arguments 1
    match t.table.lookup key with
    | none => return (t, .inr replyFalse)
    | some _ => return (t, .inl (.erase key))
  | .erase key =>
    .ok ({ table := t.table.erase key }, .inr replyTrue)
  | .visit vm position =>
    let visited := visit v8 t vm position
    .ok (visited.1, visited.2.map (fun r => .visit r.1 r.2) foreachReply)

def object (v8 : V8 ρ) : Object ByteString Fault where
  State := HashTable
  Local := Local ρ
  micro
    | .shared, reader, t => do return (t, ← t.read reader)
    | .exclusive, writer, t => t.write v8 writer
  micro_shared := by
    intro l t t' r h
    rcases bind_eq_ok.mp h with ⟨_, -, h⟩
    injection h with h
    injection h with h
    apply h.symm

variable (v8 : V8 ρ) (t : HashTable) (arguments : Arguments)

theorem computes_get
    : (object v8).Computes .shared (.get arguments) t (t.get arguments) := by
  unfold get
  cases hkey : subscript arguments 1 with
  | error e =>
    apply Object.computes_error
    simp [object, read, hkey]
  | ok key =>
    simp only [ok_bind]
    cases hlookup : t.table.lookup key with
    | none =>
      apply Object.computes_done
      simp only [object, read, hkey, ok_bind, hlookup]
      rfl
    | some value =>
      apply Object.computes_done
      simp only [object, read, hkey, ok_bind, hlookup]
      rfl

theorem computes_set
    : (object v8).Computes .exclusive (.set arguments) t (t.set arguments) := by
  unfold set
  cases hkey : subscript arguments 1 with
  | error e =>
    apply Object.computes_error
    simp [object, write, hkey]
  | ok key =>
    cases hvalue : subscript arguments 2 with
    | error e =>
      apply Object.computes_error
      simp [object, write, hkey, hvalue]
    | ok value =>
      simp only [ok_bind]
      cases hlookup : t.table.lookup key with
      | none =>
        apply Object.computes_next
        . simp only [object, write, hkey, hvalue, ok_bind, hlookup]
          rfl
        . have hinsert : (t.table.insert key []).insert key value = t.table.insert key value :=
            AList.insert_insert t.table
          rw [← hinsert]
          apply Object.computes_done
          rfl
      | some _ =>
        apply Object.computes_next
        . simp only [object, write, hkey, hvalue, ok_bind, hlookup]
          rfl
        . apply Object.computes_done
          rfl

theorem computes_del
    : (object v8).Computes .exclusive (.del arguments) t (t.del arguments) := by
  unfold del
  cases hkey : subscript arguments 1 with
  | error e =>
    apply Object.computes_error
    simp [object, write, hkey]
  | ok key =>
    simp only [ok_bind]
    cases hlookup : t.table.lookup key with
    | none =>
      apply Object.computes_done
      simp only [object, write, hkey, ok_bind, hlookup]
      rfl
    | some value =>
      apply Object.computes_next
      . simp only [object, write, hkey, ok_bind, hlookup]
        rfl
      . apply Object.computes_done
        rfl

theorem ext_entries {t t' : HashTable} (h : t'.table.entries = t.table.entries) : t' = t := by
  cases t
  cases t'
  congr
  apply AList.ext h

theorem write_visit_done {t : HashTable} {vm : ρ} {position : Nat} {done : Bool}
    (h : (JsVm.visit v8 access vm position t.table.entries).2 = .inr done)
    : t.write v8 (.visit vm position) = .ok (t, .inr (foreachReply done)) := by
  have ht : (visit v8 t vm position).1 = t := ext_entries (visit_fst_of_inr h)
  have hdone : (visit v8 t vm position).2 = .inr done := h
  simp only [write, ht, hdone, Sum.map_inr]

theorem write_visit_next {t : HashTable} {vm vm' : ρ} {position position' : Nat}
    (h : (JsVm.visit v8 access vm position t.table.entries).2 = .inl (vm', position'))
    : t.write v8 (.visit vm position)
        =
      .ok ((visit v8 t vm position).1, .inl (.visit vm' position')) := by
  have hnext : (visit v8 t vm position).2 = .inl (vm', position') := h
  simp only [write, hnext, Sum.map_inl]

theorem computes_foreach {vm : ρ} {code : ByteString} (hcode : subscript arguments 1 = .ok code)
    (hinit : init v8 code = some vm)
    : (object v8).Computes .exclusive (.visit vm 0) t (t.foreach v8 arguments) := by
  rcases exec_visit (object v8) .exclusive .visit (fun t : HashTable => t.table.entries)
    (fun _ => ()) (write_visit_done v8) (fun h => ⟨_, write_visit_next v8 h, rfl, rfl⟩)
    (s := t) (List.nil_append _).symm vm with ⟨t', hexec, hentries, -⟩
  have hforeach : t.foreach v8 arguments
      = .ok (t', foreachReply (forEach v8 access vm t.table.entries).1) := by
    unfold foreach
    simp only [hcode, ok_bind, hinit]
    have ht' : t' = { table := ⟨_, nodupKeys_forEach v8 vm t.table⟩ } := ext_entries hentries
    rw [ht']
    rfl
  rw [hforeach]
  apply hexec.computes

end HashTable

namespace AvlTree

variable {boost : Boost}

inductive Reader where
  | find (key : Key)
  | read (address : Nat)

inductive Writer (ρ : Type) where
  | set (arguments : Arguments)
  | assign (address : Nat) (arguments : Arguments)
  | pushBack (arguments : Arguments)
  | setListIterator
  | insertUnique
  | del (arguments : Arguments)
  | erase (found : Hook)
  | dispose (address : Nat)
  | visit (vm : ρ) (position : Nat)

abbrev Local (ρ : Type) : Mode → Type
  | .shared => Reader
  | .exclusive => Writer ρ

def read (hash : Key → UInt64) (t : AvlTree boost) : Reader → Except Fault (Reader ⊕ ByteString)
  | .find key =>
    match boost.find (hash key) t.tree with
    | none => .ok (.inr replyNil)
    | some found => .ok (.inl (.read found.address))
  | .read address => do
    let node ← t.node address
    return .inr (toReplyString node.value)

-- `m_nodes.back()`
def back (t : AvlTree boost) : Except Fault (Nat × Node) :=
  match t.nodes.getLast? with
  | none => .error .dangling
  | some e => .ok e

def write (hash : Key → UInt64) (v8 : V8 ρ) (t : AvlTree boost)
    : Writer ρ → Except Fault (AvlTree boost × (Writer ρ ⊕ ByteString))
  | .set arguments => do
    let key ← subscript arguments 1
    match boost.find (hash key) t.tree with
    | some found => return (t, .inl (.assign found.address arguments))
    | none => return (t, .inl (.pushBack arguments))
  | .assign address arguments => do
    let value ← subscript arguments 2
    let _ ← t.node address
    return ({ t with nodes := assign t.nodes address value }, .inr replyOk)
  | .pushBack arguments => do
    let key ← subscript arguments 1
    let value ← subscript arguments 2
    let node := (allocate t.nodes, Node.data hash key value)
    return ({ t with nodes := t.nodes ++ [node] }, .inl .setListIterator)
  | .setListIterator => do
    let (address, node) ← t.back
    let node := (address, { node with listIterator := some address })
    return ({ t with nodes := t.nodes.dropLast ++ [node] }, .inl .insertUnique)
  | .insertUnique => do
    let (address, node) ← t.back
    let tree := boost.insertUnique ⟨address, node.internalKey⟩ t.tree
    return ({ t with tree := tree }, .inr replyOk)
  | .del arguments => do
    let key ← subscript arguments 1
    match boost.find (hash key) t.tree with
    | none => return (t, .inr replyFalse)
    | some found => return (t, .inl (.erase found))
  | .erase found =>
    .ok ({ t with tree := boost.erase found t.tree }, .inl (.dispose found.address))
  | .dispose address => do
    let deleteMe ← t.node address
    let nodes ← dispose t.nodes deleteMe
    return ({ t with nodes := nodes }, .inr replyTrue)
  | .visit vm position =>
    let visited := visit v8 access vm position t.nodes
    .ok ({ t with nodes := visited.1 }, visited.2.map (fun r => .visit r.1 r.2) foreachReply)

def object (boost : Boost) (hash : Key → UInt64) (v8 : V8 ρ) : Object ByteString Fault where
  State := AvlTree boost
  Local := Local ρ
  micro
    | .shared, reader, t => do return (t, ← t.read hash reader)
    | .exclusive, writer, t => t.write hash v8 writer
  micro_shared := by
    intro l t t' r h
    rcases bind_eq_ok.mp h with ⟨_, -, h⟩
    injection h with h
    injection h with h
    apply h.symm

variable (hash : Key → UInt64) (v8 : V8 ρ) (t : AvlTree boost) (arguments : Arguments)

theorem computes_get {key : Key} (hkey : subscript arguments 1 = .ok key)
    : (object boost hash v8).Computes .shared (.find key) t (t.get hash arguments) := by
  unfold get
  simp only [hkey, ok_bind]
  cases hfind : boost.find (hash key) t.tree with
  | none =>
    apply Object.computes_done
    simp only [object, read, hfind]
    rfl
  | some found =>
    apply Object.computes_next
    . simp only [object, read, hfind]
      rfl
    . cases hnode : t.node found.address with
      | error e =>
        simp only [hnode, error_bind]
        apply Object.computes_error
        simp [object, read, hnode]
      | ok node =>
        simp only [hnode, ok_bind]
        apply Object.computes_done
        simp only [object, read, hnode]
        rfl

theorem computes_pushBack {key : Key} {value : Value} (hkey : subscript arguments 1 = .ok key)
    (hvalue : subscript arguments 2 = .ok value)
    : (object boost hash v8).Computes .exclusive (.pushBack arguments) t
        (.ok
          (
            {
              nodes := t.nodes ++ [(allocate t.nodes,
                { Node.data hash key value with listIterator := some (allocate t.nodes) })]
              tree := boost.insertUnique ⟨allocate t.nodes, hash key⟩ t.tree
            },
            replyOk
          )) := by
  apply Object.computes_next
  . simp only [object, write, hkey, hvalue, ok_bind]
    rfl
  . apply Object.computes_next
    . simp only [object, write, back, List.getLast?_concat, ok_bind]
      rfl
    . apply Object.computes_done
      simp only [object, write, back, List.getLast?_concat, ok_bind, List.dropLast_concat]
      rfl

theorem computes_set
    : (object boost hash v8).Computes .exclusive (.set arguments) t (t.set hash arguments) := by
  unfold set
  cases hkey : subscript arguments 1 with
  | error e =>
    apply Object.computes_error
    simp [object, write, hkey]
  | ok key =>
    simp only [ok_bind]
    cases hfind : boost.find (hash key) t.tree with
    | some found =>
      apply Object.computes_next
      . simp only [object, write, hkey, ok_bind, hfind]
        rfl
      . cases hvalue : subscript arguments 2 with
        | error e =>
          apply Object.computes_error
          simp [object, write, hvalue]
        | ok value =>
          simp only [ok_bind]
          cases hnode : t.node found.address with
          | error e =>
            apply Object.computes_error
            simp [object, write, hvalue, hnode]
          | ok node =>
            apply Object.computes_done
            simp only [object, write, hvalue, ok_bind, hnode]
            rfl
    | none =>
      apply Object.computes_next
      . simp only [object, write, hkey, ok_bind, hfind]
        rfl
      . cases hvalue : subscript arguments 2 with
        | error e =>
          apply Object.computes_error
          simp [object, write, hkey, hvalue]
        | ok value => apply computes_pushBack hash v8 t arguments hkey hvalue

theorem computes_del
    : (object boost hash v8).Computes .exclusive (.del arguments) t (t.del hash arguments) := by
  unfold del
  cases hkey : subscript arguments 1 with
  | error e =>
    apply Object.computes_error
    simp [object, write, hkey]
  | ok key =>
    simp only [ok_bind]
    cases hfind : boost.find (hash key) t.tree with
    | none =>
      apply Object.computes_done
      simp only [object, write, hkey, ok_bind, hfind]
      rfl
    | some found =>
      apply Object.computes_next
      . simp only [object, write, hkey, ok_bind, hfind]
        rfl
      . apply Object.computes_next
        . rfl
        . cases hnode : t.node found.address with
          | error e =>
            simp only [hnode, error_bind]
            apply Object.computes_error
            have hnode' : node { t with tree := boost.erase found t.tree } found.address = .error e :=
              hnode
            simp [object, write, hnode']
          | ok deleteMe =>
            have hnode' : node { t with tree := boost.erase found t.tree } found.address
                = .ok deleteMe := hnode
            cases hdispose : AvlTree.dispose t.nodes deleteMe with
            | error e =>
              simp only [hnode, ok_bind, hdispose, error_bind]
              apply Object.computes_error
              simp [object, write, hnode', hdispose]
            | ok nodes =>
              simp only [hnode, ok_bind, hdispose]
              apply Object.computes_done
              simp only [object, write, hnode', ok_bind, hdispose]
              rfl

theorem write_visit_done {t : AvlTree boost} {vm : ρ} {position : Nat} {done : Bool}
    (h : (JsVm.visit v8 access vm position t.nodes).2 = .inr done)
    : t.write hash v8 (.visit vm position) = .ok (t, .inr (foreachReply done)) := by
  simp only [write, visit_fst_of_inr h, h, Sum.map_inr]

theorem write_visit_next {t : AvlTree boost} {vm vm' : ρ} {position position' : Nat}
    (h : (JsVm.visit v8 access vm position t.nodes).2 = .inl (vm', position'))
    : t.write hash v8 (.visit vm position)
        =
      .ok
        (
          { t with nodes := (JsVm.visit v8 access vm position t.nodes).1 },
          .inl (.visit vm' position')
        ) := by
  simp only [write, h, Sum.map_inl]

theorem computes_foreach {vm : ρ} {code : ByteString} (hcode : subscript arguments 1 = .ok code)
    (hinit : init v8 code = some vm)
    : (object boost hash v8).Computes .exclusive (.visit vm 0) t (t.foreach v8 arguments) := by
  rcases exec_visit (object boost hash v8) .exclusive .visit nodes tree (write_visit_done hash v8)
    (fun h => ⟨_, write_visit_next hash v8 h, rfl, rfl⟩) (s := t) (List.nil_append _).symm vm
    with ⟨⟨nodes', tree'⟩, hexec, hnodes, htree⟩
  rw [List.nil_append] at hnodes
  have hforeach : t.foreach v8 arguments
      = .ok (⟨nodes', tree'⟩, foreachReply (forEach v8 access vm t.nodes).1) := by
    unfold foreach
    simp only [hcode, ok_bind, hinit]
    rw [show nodes' = (forEach v8 access vm t.nodes).2 from hnodes,
      show tree' = t.tree from htree]
    rfl
  rw [hforeach]
  apply hexec.computes

end AvlTree

end Db
