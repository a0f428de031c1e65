import Boostcache.Db.AvlTree

/-!
This module contains the `Commands` of `kernel/commands.{h,cpp}`: the two stores and the table of the
commands that work on them. What the table does not know and what is called with a wrong number of
arguments is answered with an error that quotes the name of the command.
-/

open Cpp Resp CommandHandler Db

/--
What is decided outside of the program: libraries, the version that the build generates and the
order in which the `std::unordered_map` of the commands is visited.
-/
structure Environment (ρ : Type) where
  boost : Boost
  hash : Key → UInt64
  v8 : V8 ρ
  versionFloat : ByteString
  versionGit : ByteString
  visit : List ByteString → List ByteString
  visit_perm : ∀ names, (visit names).Perm names

structure Commands {ρ : Type} (env : Environment ρ) where
  dbHashTable : HashTable
  dbAvlTree : AvlTree env.boost

namespace Commands

variable {ρ : Type} {env : Environment ρ}

def empty : Commands env :=
  { dbHashTable := HashTable.empty, dbAvlTree := AvlTree.empty }

variable (env) in
abbrev Callback := Commands env → Arguments → Except Fault (Commands env × ByteString)

variable (env) in
structure CallbackInfo where
  callback : Callback env
  numberOfArguments : Int

-- `%i`
def formatInt (i : Int) : ByteString :=
  if i < 0 then literal "-" ++ decimal i.natAbs else decimal i.natAbs

def notImplementedYetCallback : Callback env := fun c arguments => do
  let name ← subscript arguments 0
  return (c, toErrorReplyString (name ++ literal " is not implemented"))

def malformedArgumentsCallback (inputArguments expectedArguments : Int) : Callback env :=
  fun c arguments => do
    let name ← subscript arguments 0
    let message := name ++ literal " malformed number of arguments (" ++ formatInt inputArguments
      ++ literal " vs " ++ formatInt expectedArguments ++ literal ")"
    return (c, toErrorReplyString message)

def names : List ByteString :=
  [
    literal "COMMANDS", literal "PING", literal "VERSION",
    literal "HGET", literal "HSET", literal "HDEL", literal "HFOR",
    literal "ATGET", literal "ATSET", literal "ATDEL", literal "ATFOR"
  ]

def commandsList : Callback env := fun c _ =>
  .ok (c, toReplyString ((env.visit names).flatMap (· ++ literal "\n")))

def pingPong : Callback env := fun c _ =>
  .ok (c, toInlineReplyString (literal "PONG"))

def versionString (env : Environment ρ) (verbose : Bool) : ByteString :=
  if verbose then
    env.versionFloat ++ literal " (" ++ env.versionGit ++ literal ")"
  else
    env.versionFloat

def version : Callback env := fun c arguments =>
  let verbose := arguments.length == 2 && arguments[1]? == some (literal "VERBOSE")
  .ok (c, toInlineReplyString (versionString env verbose))

def bindHashTable (callback : HashTable → Arguments → Except Fault (HashTable × ByteString))
    : Callback env := fun c arguments => do
  let (dbHashTable, reply) ← callback c.dbHashTable arguments
  return ({ c with dbHashTable := dbHashTable }, reply)

def bindAvlTree
    (callback : AvlTree env.boost → Arguments → Except Fault (AvlTree env.boost × ByteString))
    : Callback env := fun c arguments => do
  let (dbAvlTree, reply) ← callback c.dbAvlTree arguments
  return ({ c with dbAvlTree := dbAvlTree }, reply)

def addGenericCommands : List (ByteString × CallbackInfo env) :=
  [
    (literal "COMMANDS", ⟨commandsList, 0⟩),
    (literal "PING", ⟨pingPong, 0⟩),
    (literal "VERSION", ⟨version, -1⟩)
  ]

def addDbCommands : List (ByteString × CallbackInfo env) :=
  [
    (literal "HGET", ⟨bindHashTable HashTable.get, 1⟩),
    (literal "HSET", ⟨bindHashTable HashTable.set, 2⟩),
    (literal "HDEL", ⟨bindHashTable HashTable.del, 1⟩),
    (literal "HFOR", ⟨bindHashTable (HashTable.foreach env.v8), 1⟩),
    (literal "ATGET", ⟨bindAvlTree (AvlTree.get env.hash), 1⟩),
    (literal "ATSET", ⟨bindAvlTree (AvlTree.set env.hash), 2⟩),
    (literal "ATDEL", ⟨bindAvlTree (AvlTree.del env.hash), 1⟩),
    (literal "ATFOR", ⟨bindAvlTree (AvlTree.foreach env.v8), 1⟩)
  ]

variable (env) in
def commands : List (ByteString × CallbackInfo env) :=
  addGenericCommands ++ addDbCommands

theorem names_eq : (commands env).map Prod.fst = names := by
  rfl

def find (commandName : ByteString) (numberOfArguments : Int) : Callback env :=
  match (commands env).lookup commandName with
  | none => notImplementedYetCallback
  | some command =>
    let expectedArguments := command.numberOfArguments
    if 0 ≤ expectedArguments ∧ expectedArguments ≠ numberOfArguments then
      malformedArgumentsCallback numberOfArguments expectedArguments
    else
      command.callback

-- What `CommandHandler::executeCommand` hands to the finish callback. The number of arguments is
-- converted from `size_t` to `int`.
def execute (c : Commands env) (arguments : Arguments) : Except Fault (Commands env × ByteString) := do
  let commandName ← subscript arguments 0
  find commandName (int32 (arguments.length - 1 : Nat)) c arguments

end Commands
