import Boostcache.Db.Bindings
import Boostcache.Kernel.Commands.Reply

/-!
What every command means to a client, in terms of a finite map and of bindings in the order in which
they were made. The map is visited in an order that is not specified.
-/

open Cpp Resp CommandHandler Db JsVm

namespace Db

structure Lists (bindings : List (Key × Value)) (map : Key → Option Value) : Prop where
  nodup : (bindings.map Prod.fst).Nodup
  mem : ∀ key value, (key, value) ∈ bindings ↔ map key = some value

theorem lists_entries (table : Table)
    : Lists (table.entries.map (fun e => (e.1, e.2))) table.lookup where
  nodup := by
    rw [List.map_map]
    exact table.nodupKeys
  mem := by
    intro key value
    rw [← Option.mem_def, AList.mem_lookup_iff, List.mem_map]
    constructor
    . intro h
      rcases h with ⟨e, he, heq⟩
      injection heq with hkey hvalue
      rwa [← hkey, ← hvalue]
    . intro h
      exact ⟨⟨key, value⟩, h, rfl⟩

end Db

namespace Commands

variable {ρ : Type} (env : Environment ρ)

structure Reference where
  table : Key → Option Value
  bindings : Bindings env.hash

namespace Reference

def empty : Reference env :=
  { table := fun _ => none, bindings := Indexed.empty }

variable {env}

def hget (s : Reference env) (key : Key) : ByteString :=
  match s.table key with
  | none => replyNil
  | some value => toReplyString value

def hset (s : Reference env) (key : Key) (value : Value) : Reference env :=
  { s with table := Function.update s.table key (some value) }

def hdel (s : Reference env) (key : Key) : Reference env × ByteString :=
  (
    { s with table := Function.update s.table key none },
    if s.table key = none then replyFalse else replyTrue
  )

end Reference

-- `VERSION` takes any number of arguments.
def arities : List (ByteString × Int) :=
  [
    (literal "COMMANDS", 0), (literal "PING", 0),
    (literal "HGET", 1), (literal "HSET", 2), (literal "HDEL", 1), (literal "HFOR", 1),
    (literal "ATGET", 1), (literal "ATSET", 2), (literal "ATDEL", 1), (literal "ATFOR", 1)
  ]

def malformed (name : ByteString) (inputArguments expectedArguments : Int) : ByteString :=
  toErrorReplyString (name ++ literal " malformed number of arguments ("
    ++ formatInt inputArguments ++ literal " vs " ++ formatInt expectedArguments ++ literal ")")

inductive Executes (s : Reference env) : Arguments → Reference env → ByteString → Prop
  | notImplemented {name : ByteString} {rest : Arguments}
      : name ∉ names
          →
        Executes s (name :: rest) s (toErrorReplyString (name ++ literal " is not implemented"))
  | malformed {name : ByteString} {rest : Arguments} {n : Int}
      : (name, n) ∈ arities
          →
        int32 rest.length ≠ n
          →
        Executes s (name :: rest) s (malformed name (int32 rest.length) n)
  | commands {rest : Arguments}
      : int32 rest.length = 0
          →
        Executes s (literal "COMMANDS" :: rest) s
          (toReplyString ((env.visit names).flatMap (· ++ literal "\n")))
  | ping {rest : Arguments}
      : int32 rest.length = 0
          →
        Executes s (literal "PING" :: rest) s (toInlineReplyString (literal "PONG"))
  | version (rest : Arguments)
      : Executes s (literal "VERSION" :: rest) s
          (toInlineReplyString (versionString env (rest == [literal "VERBOSE"])))
  | hget {key : Key} {rest : Arguments}
      : int32 (key :: rest).length = 1
          →
        Executes s (literal "HGET" :: key :: rest) s (s.hget key)
  | hset {key : Key} {value : Value} {rest : Arguments}
      : int32 (key :: value :: rest).length = 2
          →
        Executes s (literal "HSET" :: key :: value :: rest) (s.hset key value) replyOk
  | hdel {key : Key} {rest : Arguments}
      : int32 (key :: rest).length = 1
          →
        Executes s (literal "HDEL" :: key :: rest) (s.hdel key).1 (s.hdel key).2
  | hforFails {code : ByteString} {rest : Arguments}
      : int32 (code :: rest).length = 1
          →
        init env.v8 code = none
          →
        Executes s (literal "HFOR" :: code :: rest) s replyError
  | hfor {code : ByteString} {rest : Arguments} {vm : ρ} {bindings : List (Key × Value)}
      {table : Key → Option Value}
      : int32 (code :: rest).length = 1
          →
        init env.v8 code = some vm
          →
        Lists bindings s.table
          →
        Lists (forEach env.v8 binding vm bindings).2 table
          →
        Executes s (literal "HFOR" :: code :: rest) { s with table := table }
          (if (forEach env.v8 binding vm bindings).1 then replyTrue else replyError)
  | atget {key : Key} {rest : Arguments}
      : int32 (key :: rest).length = 1
          →
        Executes s (literal "ATGET" :: key :: rest) s (s.bindings.get key)
  | atset {key : Key} {value : Value} {rest : Arguments}
      : int32 (key :: value :: rest).length = 2
          →
        Executes s (literal "ATSET" :: key :: value :: rest)
          { s with bindings := s.bindings.insert key value } replyOk
  | atdel {key : Key} {rest : Arguments}
      : int32 (key :: rest).length = 1
          →
        Executes s (literal "ATDEL" :: key :: rest) { s with bindings := s.bindings.erase key }
          (s.bindings.del key)
  | atfor {code : ByteString} {rest : Arguments}
      : int32 (code :: rest).length = 1
          →
        Executes s (literal "ATFOR" :: code :: rest)
          { s with bindings := (s.bindings.foreach env.v8 code).1 } (s.bindings.foreach env.v8 code).2

variable {env}

theorem version_eq (c : Commands env) (rest : Arguments)
    : version c (literal "VERSION" :: rest)
        =
      .ok (c, toInlineReplyString (versionString env (rest == [literal "VERBOSE"]))) := by
  unfold version
  rcases rest with _ | ⟨argument, _ | ⟨argument', rest⟩⟩
  . rfl
  . simp
  . simp

structure Follows (c : Commands env) (s : Reference env) : Prop where
  table : ∀ key, c.dbHashTable.table.lookup key = s.table key
  bindings : c.dbAvlTree.Represents s.bindings

namespace Follows

variable {c : Commands env} {s : Reference env} (h : Follows c s) (name : ByteString)
  (rest : Arguments)

variable (s) in
def Refines (result : Except Fault (Commands env × ByteString)) (arguments : Arguments) : Prop :=
  ∃ c' s' reply, result = .ok (c', reply) ∧ Executes env s arguments s' reply ∧ Follows c' s'

include h

theorem hget (key : Key) (harity : int32 (key :: rest).length = 1)
    : Refines s (bindHashTable HashTable.get c (literal "HGET" :: key :: rest))
        (literal "HGET" :: key :: rest) := by
  refine ⟨c, s, _, ?_, .hget harity, h⟩
  unfold bindHashTable
  rw [HashTable.get_eq, ok_bind, h.table]
  rfl

theorem hset (key : Key) (value : Value) (harity : int32 (key :: value :: rest).length = 2)
    : Refines s (bindHashTable HashTable.set c (literal "HSET" :: key :: value :: rest))
        (literal "HSET" :: key :: value :: rest) := by
  refine ⟨_, _, _, rfl, .hset harity, ?_, h.bindings⟩
  intro key'
  unfold Reference.hset
  dsimp only
  by_cases hkey : key' = key
  . rw [hkey, AList.lookup_insert, Function.update_self]
  . rw [AList.lookup_insert_ne hkey, Function.update_of_ne hkey, h.table]

theorem hdel (key : Key) (harity : int32 (key :: rest).length = 1)
    : Refines s (bindHashTable HashTable.del c (literal "HDEL" :: key :: rest))
        (literal "HDEL" :: key :: rest) := by
  let c' : Commands env := { c with dbHashTable := { table := c.dbHashTable.table.erase key } }
  refine ⟨c', _, _, ?_, .hdel harity, ?_, h.bindings⟩
  . unfold bindHashTable
    rw [HashTable.del_eq, ok_bind, h.table]
    unfold Reference.hdel
    cases s.table key with
    | none => rfl
    | some value => rfl
  . intro key'
    unfold Reference.hdel
    dsimp only
    by_cases hkey : key' = key
    . rw [hkey, AList.lookup_erase, Function.update_self]
    . rw [AList.lookup_erase_ne hkey, Function.update_of_ne hkey, h.table]

theorem hfor (code : ByteString) (harity : int32 (code :: rest).length = 1)
    : Refines s (bindHashTable (HashTable.foreach env.v8) c (literal "HFOR" :: code :: rest))
        (literal "HFOR" :: code :: rest) := by
  unfold bindHashTable
  rw [HashTable.foreach_eq]
  cases hinit : init env.v8 code with
  | none => exact ⟨c, s, _, rfl, .hforFails harity hinit, h⟩
  | some vm =>
    have htable : c.dbHashTable.table.lookup = s.table := funext h.table
    have hforEach := forEach_comm HashTable.access binding
      (f := fun e => (e.1, e.2)) (fun _ => rfl) (fun _ => rfl) (fun _ _ => rfl) env.v8 vm
      c.dbHashTable.table.entries
    let table : Table := ⟨_, HashTable.nodupKeys_forEach env.v8 vm c.dbHashTable.table⟩
    have hbefore := lists_entries c.dbHashTable.table
    have hafter : Lists (forEach env.v8 binding vm
        (c.dbHashTable.table.entries.map (fun e => (e.1, e.2)))).2 table.lookup := by
      rw [hforEach]
      exact lists_entries table
    have hexecutes : Executes env s (literal "HFOR" :: code :: rest) _ _ :=
      .hfor harity hinit (htable ▸ hbefore) hafter
    rw [hforEach] at hexecutes
    exact ⟨_, _, _, rfl, hexecutes, fun _ => rfl, h.bindings⟩

theorem atget (key : Key) (harity : int32 (key :: rest).length = 1)
    : Refines s (bindAvlTree (AvlTree.get env.hash) c (literal "ATGET" :: key :: rest))
        (literal "ATGET" :: key :: rest) := by
  refine ⟨c, s, _, ?_, .atget harity, h⟩
  unfold bindAvlTree
  rw [h.bindings.get, ok_bind]
  rfl

theorem atset (key : Key) (value : Value) (harity : int32 (key :: value :: rest).length = 2)
    : Refines s (bindAvlTree (AvlTree.set env.hash) c (literal "ATSET" :: key :: value :: rest))
        (literal "ATSET" :: key :: value :: rest) := by
  rcases h.bindings.set (literal "ATSET") key value rest with ⟨t, hset, ht⟩
  refine ⟨{ c with dbAvlTree := t }, _, _, ?_, .atset harity, h.table, ht⟩
  unfold bindAvlTree
  rw [hset, ok_bind]
  rfl

theorem atdel (key : Key) (harity : int32 (key :: rest).length = 1)
    : Refines s (bindAvlTree (AvlTree.del env.hash) c (literal "ATDEL" :: key :: rest))
        (literal "ATDEL" :: key :: rest) := by
  rcases h.bindings.del (literal "ATDEL") key rest with ⟨t, hdel, ht⟩
  refine ⟨{ c with dbAvlTree := t }, _, _, ?_, .atdel harity, h.table, ht⟩
  unfold bindAvlTree
  rw [hdel, ok_bind]
  rfl

theorem atfor (code : ByteString) (harity : int32 (code :: rest).length = 1)
    : Refines s (bindAvlTree (AvlTree.foreach env.v8) c (literal "ATFOR" :: code :: rest))
        (literal "ATFOR" :: code :: rest) := by
  rcases h.bindings.foreach env.v8 (literal "ATFOR") code rest with ⟨t, hforeach, ht⟩
  refine ⟨{ c with dbAvlTree := t }, _, _, ?_, .atfor harity, h.table, ht⟩
  unfold bindAvlTree
  rw [hforeach, ok_bind]
  rfl

theorem dispatch {n : Int} (hmem : (name, n) ∈ arities) (hn : 0 ≤ n) {callback : Callback env}
    (hcallback : int32 rest.length = n → Refines s (callback c (name :: rest)) (name :: rest))
    : Refines s
        ((if 0 ≤ n ∧ n ≠ int32 rest.length then
          malformedArgumentsCallback (int32 rest.length) n
        else
          callback) c (name :: rest))
        (name :: rest) := by
  by_cases harity : int32 rest.length = n
  . rw [if_neg (by simp [harity])]
    apply hcallback harity
  . rw [if_pos ⟨hn, Ne.symm harity⟩]
    exact ⟨c, s, _, rfl, .malformed hmem harity, h⟩

theorem execute : Refines s (c.execute (name :: rest)) (name :: rest) := by
  rw [find_eq]
  unfold find
  cases hlookup : (commands env).lookup name with
  | none =>
    have hname := lookup_commands_eq_none.mp hlookup
    exact ⟨c, s, _, notImplementedYet_eq c name rest, .notImplemented hname, h⟩
  | some command =>
    have hmem : (name, command) ∈ commands env := by
      rcases List.lookup_eq_some_iff.mp hlookup with ⟨l1, l2, hl, -⟩
      simp [hl]
    dsimp only
    simp only [commands, addGenericCommands, addDbCommands, List.cons_append, List.nil_append,
      List.mem_cons, List.not_mem_nil, or_false, Prod.mk.injEq] at hmem
    rcases hmem with ⟨rfl, rfl⟩ | ⟨rfl, rfl⟩ | ⟨rfl, rfl⟩ | ⟨rfl, rfl⟩ | ⟨rfl, rfl⟩ | ⟨rfl, rfl⟩
      | ⟨rfl, rfl⟩ | ⟨rfl, rfl⟩ | ⟨rfl, rfl⟩ | ⟨rfl, rfl⟩ | ⟨rfl, rfl⟩
    . apply h.dispatch (n := 0) _ _ (by decide) (by decide)
      intro harity
      exact ⟨c, s, _, rfl, .commands harity, h⟩
    . apply h.dispatch (n := 0) _ _ (by decide) (by decide)
      intro harity
      exact ⟨c, s, _, rfl, .ping harity, h⟩
    . refine ⟨c, s, _, ?_, .version rest, h⟩
      rw [← version_eq c rest]
      rfl
    . apply h.dispatch (n := 1) _ _ (by decide) (by decide)
      intro harity
      rcases exists_of_arity_one harity with ⟨key, rest, rfl⟩
      apply h.hget _ _ harity
    . apply h.dispatch (n := 2) _ _ (by decide) (by decide)
      intro harity
      rcases exists_of_arity_two harity with ⟨key, value, rest, rfl⟩
      apply h.hset _ _ _ harity
    . apply h.dispatch (n := 1) _ _ (by decide) (by decide)
      intro harity
      rcases exists_of_arity_one harity with ⟨key, rest, rfl⟩
      apply h.hdel _ _ harity
    . apply h.dispatch (n := 1) _ _ (by decide) (by decide)
      intro harity
      rcases exists_of_arity_one harity with ⟨code, rest, rfl⟩
      apply h.hfor _ _ harity
    . apply h.dispatch (n := 1) _ _ (by decide) (by decide)
      intro harity
      rcases exists_of_arity_one harity with ⟨key, rest, rfl⟩
      apply h.atget _ _ harity
    . apply h.dispatch (n := 2) _ _ (by decide) (by decide)
      intro harity
      rcases exists_of_arity_two harity with ⟨key, value, rest, rfl⟩
      apply h.atset _ _ _ harity
    . apply h.dispatch (n := 1) _ _ (by decide) (by decide)
      intro harity
      rcases exists_of_arity_one harity with ⟨key, rest, rfl⟩
      apply h.atdel _ _ harity
    . apply h.dispatch (n := 1) _ _ (by decide) (by decide)
      intro harity
      rcases exists_of_arity_one harity with ⟨code, rest, rfl⟩
      apply h.atfor _ _ harity

end Follows

end Commands
