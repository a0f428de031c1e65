import Boostcache.Db.Sections
import Boostcache.Kernel.Commands.Reply

/-!
The callbacks of `Commands` as they are run by one of several threads: what they do before they wait
for `m_access`, and the section they enter then. `foreach` has already started the script when it
waits, and replies without waiting if that has failed.
-/

open Cpp CommandHandler Db JsVm Machine

namespace Commands

variable {ρ : Type} {env : Environment ρ}

inductive Store where
  | hashTable
  | avlTree
  deriving DecidableEq, Repr

variable (env) in
def object : Store → Object ByteString Fault
  | .hashTable => HashTable.object env.v8
  | .avlTree => AvlTree.object env.boost env.hash env.v8

variable (env) in
abbrev Stores := ∀ store, (object env store).State

def ofStores (stores : Stores env) : Commands env :=
  { dbHashTable := stores .hashTable, dbAvlTree := stores .avlTree }

def stores (c : Commands env) : Stores env
  | .hashTable => c.dbHashTable
  | .avlTree => c.dbAvlTree

variable (env) in
abbrev Entry := Arguments → Except Fault (ByteString ⊕ Section (object env))

variable (env) in
structure EntryInfo where
  entry : Entry env
  numberOfArguments : Int

-- A callback that does not look at the stores needs no lock.
def reply (callback : Callback env) : Entry env := fun arguments => do
  let (_, reply) ← callback empty arguments
  return .inl reply

def hget : Entry env := fun arguments =>
  .ok (.inr ⟨.hashTable, .shared, HashTable.Reader.get arguments⟩)

def hset : Entry env := fun arguments =>
  .ok (.inr ⟨.hashTable, .exclusive, HashTable.Writer.set arguments⟩)

def hdel : Entry env := fun arguments =>
  .ok (.inr ⟨.hashTable, .exclusive, HashTable.Writer.del arguments⟩)

-- The first lines of both `foreach`, in front of the lock.
def foreach (store : Store) (visit : ρ → (object env store).Local .exclusive) : Entry env :=
  fun arguments => do
    let code ← subscript arguments 1
    match init env.v8 code with
    | none => return .inl replyError
    | some vm => return .inr ⟨store, .exclusive, visit vm⟩

def hfor : Entry env :=
  foreach .hashTable (fun vm => HashTable.Writer.visit vm 0)

def atget : Entry env := fun arguments => do
  let key ← subscript arguments 1
  return .inr ⟨.avlTree, .shared, AvlTree.Reader.find key⟩

def atset : Entry env := fun arguments =>
  .ok (.inr ⟨.avlTree, .exclusive, AvlTree.Writer.set arguments⟩)

def atdel : Entry env := fun arguments =>
  .ok (.inr ⟨.avlTree, .exclusive, AvlTree.Writer.del arguments⟩)

def atfor : Entry env :=
  foreach .avlTree (fun vm => AvlTree.Writer.visit vm 0)

variable (env) in
def entries : List (ByteString × EntryInfo env) :=
  [
    (literal "COMMANDS", ⟨reply commandsList, 0⟩),
    (literal "PING", ⟨reply pingPong, 0⟩),
    (literal "VERSION", ⟨reply version, -1⟩),
    (literal "HGET", ⟨hget, 1⟩),
    (literal "HSET", ⟨hset, 2⟩),
    (literal "HDEL", ⟨hdel, 1⟩),
    (literal "HFOR", ⟨hfor, 1⟩),
    (literal "ATGET", ⟨atget, 1⟩),
    (literal "ATSET", ⟨atset, 2⟩),
    (literal "ATDEL", ⟨atdel, 1⟩),
    (literal "ATFOR", ⟨atfor, 1⟩)
  ]

def findEntry (commandName : ByteString) (numberOfArguments : Int) : Entry env :=
  match (entries env).lookup commandName with
  | none => reply notImplementedYetCallback
  | some command =>
    let expectedArguments := command.numberOfArguments
    if 0 ≤ expectedArguments ∧ expectedArguments ≠ numberOfArguments then
      reply (malformedArgumentsCallback numberOfArguments expectedArguments)
    else
      command.entry

def enter (arguments : Arguments) : Except Fault (ByteString ⊕ Section (object env)) := do
  let commandName ← subscript arguments 0
  findEntry commandName (int32 (arguments.length - 1 : Nat)) arguments

section Splits

-- The callback does what its entry does and then what is done in the section.
inductive Splits (f : Stores env) (result : Except Fault (Commands env × ByteString))
    : Except Fault (ByteString ⊕ Section (object env)) → Prop
  | error {e : Fault} : result = .error e → Splits f result (.error e)
  | reply {reply : ByteString}
      : result = .ok (ofStores f, reply) → Splits f result (.ok (.inl reply))
  | computes {sec : Section (object env)}
      {x : Except Fault ((object env sec.index).State × ByteString)}
      : (object env sec.index).Computes sec.mode sec.locals (f sec.index) x
          →
        result = (do let r ← x; return (ofStores (Function.update f sec.index r.1), r.2))
          →
        Splits f result (.ok (.inr sec))

variable (f : Stores env) (arguments : Arguments)

theorem splits_reply {callback : Callback env}
    (h : ∀ c, callback c arguments = do let r ← callback empty arguments; return (c, r.2))
    : Splits f (callback (ofStores f) arguments) (reply callback arguments) := by
  rw [h]
  unfold reply
  cases callback empty arguments with
  | error e =>
    apply Splits.error
    rfl
  | ok r =>
    apply Splits.reply
    rfl

theorem splits_hget
    : Splits f (bindHashTable HashTable.get (ofStores f) arguments) (hget arguments) := by
  apply Splits.computes
  . apply HashTable.computes_get
  . rfl

theorem splits_hset
    : Splits f (bindHashTable HashTable.set (ofStores f) arguments) (hset arguments) := by
  apply Splits.computes
  . apply HashTable.computes_set
  . rfl

theorem splits_hdel
    : Splits f (bindHashTable HashTable.del (ofStores f) arguments) (hdel arguments) := by
  apply Splits.computes
  . apply HashTable.computes_del
  . rfl

theorem splits_foreach (store : Store) {visit : ρ → (object env store).Local .exclusive}
    {result : Except Fault (Commands env × ByteString)}
    (x : Except Fault ((object env store).State × ByteString))
    (hresult : result = do let r ← x; return (ofStores (Function.update f store r.1), r.2))
    (herror : ∀ {e}, subscript arguments 1 = .error e → x = .error e)
    (hfails : ∀ {code}, subscript arguments 1 = .ok code → init env.v8 code = none
      → x = .ok (f store, replyError))
    (hcomputes : ∀ {code vm}, subscript arguments 1 = .ok code → init env.v8 code = some vm
      → (object env store).Computes .exclusive (visit vm) (f store) x)
    : Splits f result (foreach store visit arguments) := by
  unfold foreach
  cases hcode : subscript arguments 1 with
  | error e =>
    apply Splits.error
    rw [hresult, herror hcode, error_bind]
  | ok code =>
    simp only [ok_bind]
    cases hinit : init env.v8 code with
    | none =>
      apply Splits.reply
      rw [hresult, hfails hcode hinit, ok_bind, Function.update_eq_self]
      rfl
    | some vm => apply Splits.computes (hcomputes hcode hinit) hresult

theorem splits_hfor
    : Splits f (bindHashTable (HashTable.foreach env.v8) (ofStores f) arguments)
        (hfor arguments) := by
  apply splits_foreach f arguments .hashTable (HashTable.foreach env.v8 (f .hashTable) arguments)
  . rfl
  . intro e hcode
    simp only [HashTable.foreach, hcode]
    rfl
  . intro code hcode hinit
    simp only [HashTable.foreach, hcode, ok_bind, hinit]
    rfl
  . intro code vm hcode hinit
    apply HashTable.computes_foreach env.v8 _ arguments hcode hinit

theorem splits_atget
    : Splits f (bindAvlTree (AvlTree.get env.hash) (ofStores f) arguments) (atget arguments) := by
  unfold atget
  cases hkey : subscript arguments 1 with
  | error e =>
    apply Splits.error
    simp [bindAvlTree, AvlTree.get, hkey]
  | ok key =>
    apply Splits.computes
    . apply AvlTree.computes_get env.hash env.v8 _ arguments hkey
    . rfl

theorem splits_atset
    : Splits f (bindAvlTree (AvlTree.set env.hash) (ofStores f) arguments) (atset arguments) := by
  apply Splits.computes
  . apply AvlTree.computes_set
  . rfl

theorem splits_atdel
    : Splits f (bindAvlTree (AvlTree.del env.hash) (ofStores f) arguments) (atdel arguments) := by
  apply Splits.computes
  . apply AvlTree.computes_del
  . rfl

theorem splits_atfor
    : Splits f (bindAvlTree (AvlTree.foreach env.v8) (ofStores f) arguments) (atfor arguments) := by
  apply splits_foreach f arguments .avlTree (AvlTree.foreach env.v8 (f .avlTree) arguments)
  . rfl
  . intro e hcode
    simp only [AvlTree.foreach, hcode]
    rfl
  . intro code hcode hinit
    simp only [AvlTree.foreach, hcode, ok_bind, hinit]
    rfl
  . intro code vm hcode hinit
    apply AvlTree.computes_foreach env.hash env.v8 _ arguments hcode hinit

structure Agrees (command : ByteString × CallbackInfo env) (entry : ByteString × EntryInfo env)
    : Prop where
  name : command.1 = entry.1
  numberOfArguments : command.2.numberOfArguments = entry.2.numberOfArguments
  splits : ∀ f arguments,
    Splits f (command.2.callback (ofStores f) arguments) (entry.2.entry arguments)

theorem agrees_entries : List.Forall₂ Agrees (commands env) (entries env) := by
  unfold commands entries addGenericCommands addDbCommands
  simp only [List.cons_append, List.nil_append, List.forall₂_cons, List.forall₂_nil_left_iff]
  refine ⟨⟨rfl, rfl, ?_⟩, ⟨rfl, rfl, ?_⟩, ⟨rfl, rfl, ?_⟩, ⟨rfl, rfl, splits_hget⟩,
    ⟨rfl, rfl, splits_hset⟩, ⟨rfl, rfl, splits_hdel⟩, ⟨rfl, rfl, splits_hfor⟩,
    ⟨rfl, rfl, splits_atget⟩, ⟨rfl, rfl, splits_atset⟩, ⟨rfl, rfl, splits_atdel⟩,
    ⟨rfl, rfl, splits_atfor⟩, trivial⟩
  . intro f arguments
    apply splits_reply
    intro c
    rfl
  . intro f arguments
    apply splits_reply
    intro c
    rfl
  . intro f arguments
    apply splits_reply
    intro c
    rfl

theorem lookup_agrees {l : List (ByteString × CallbackInfo env)}
    {l' : List (ByteString × EntryInfo env)} (h : List.Forall₂ Agrees l l') (name : ByteString)
    : (l.lookup name = none ∧ l'.lookup name = none)
      ∨
      ∃ command entry, l.lookup name = some command ∧ l'.lookup name = some entry
        ∧ Agrees (name, command) (name, entry) := by
  induction h with
  | nil => exact Or.inl ⟨rfl, rfl⟩
  | @cons command entry l l' hagrees _ ih =>
    rcases command with ⟨commandName, command⟩
    rcases entry with ⟨entryName, entry⟩
    have hname : commandName = entryName := hagrees.name
    subst hname
    rw [List.lookup_cons, List.lookup_cons]
    by_cases heq : name = commandName
    . apply Or.inr
      refine ⟨command, entry, ?_, ?_, rfl, hagrees.numberOfArguments, hagrees.splits⟩
      . simp [heq]
      . simp [heq]
    . have hbeq : (name == commandName) = false := by simp [heq]
      rw [hbeq]
      apply ih

theorem splits_notImplementedYet
    : Splits f (notImplementedYetCallback (ofStores f) arguments)
        (reply notImplementedYetCallback arguments) := by
  apply splits_reply
  intro c
  unfold notImplementedYetCallback
  cases subscript arguments 0 with
  | error e => rfl
  | ok name => rfl

theorem splits_malformedArguments (inputArguments expectedArguments : Int)
    : Splits f (malformedArgumentsCallback inputArguments expectedArguments (ofStores f) arguments)
        (reply (malformedArgumentsCallback inputArguments expectedArguments) arguments) := by
  apply splits_reply
  intro c
  unfold malformedArgumentsCallback
  cases subscript arguments 0 with
  | error e => rfl
  | ok name => rfl

theorem splits_execute : Splits f ((ofStores f).execute arguments) (enter arguments) := by
  unfold execute enter
  cases subscript arguments 0 with
  | error e => apply Splits.error rfl
  | ok name =>
    simp only [ok_bind]
    unfold find findEntry
    rcases lookup_agrees agrees_entries name
      with ⟨hcommand, hentry⟩ | ⟨command, entry, hcommand, hentry, hagrees⟩
    . rw [hcommand, hentry]
      apply splits_notImplementedYet
    . rw [hcommand, hentry]
      have harity : command.numberOfArguments = entry.numberOfArguments := hagrees.numberOfArguments
      dsimp only
      rw [harity]
      split
      . apply splits_malformedArguments
      . apply hagrees.splits

end Splits

theorem exists_of_enter {arguments : Arguments} {r : ByteString ⊕ Section (object env)}
    (h : Commands.enter arguments = .ok r)
    : ∃ name rest, arguments = name :: rest := by
  cases arguments with
  | nil => contradiction
  | cons name rest => exact ⟨name, rest, rfl⟩

end Commands
