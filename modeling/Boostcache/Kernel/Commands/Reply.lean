import Boostcache.Db.Lemmas.AvlTree
import Boostcache.Db.Lemmas.HashTable
import Boostcache.Kernel.Commands.Impl
import Boostcache.Machine.Basic

/-!
What a client makes of the replies. Every callback of the table answers with exactly one reply; a
name that is not in the table is quoted as it is, so it must not contain the end of a line.
-/

open Cpp Resp CommandHandler Db

namespace Commands

variable {ρ : Type} {env : Environment ρ}

def Valid (c : Commands env) : Prop :=
  c.dbAvlTree.Valid env.hash

theorem valid_empty : Valid (empty : Commands env) :=
  AvlTree.valid_empty

def Answers (callback : Callback env) (arguments : Arguments) : Prop :=
  ∀ c : Commands env, c.Valid
    → ∃ c' s reply, callback c arguments = .ok (c', s) ∧ c'.Valid ∧ IsReply s reply

theorem answers_commandsList (arguments : Arguments)
    : Answers (commandsList : Callback env) arguments := by
  intro c hc
  exact ⟨c, _, _, rfl, hc, isReply_toReplyString _⟩

theorem answers_pingPong (arguments : Arguments)
    : Answers (pingPong : Callback env) arguments := by
  intro c hc
  refine ⟨c, _, _, rfl, hc, isReply_toInlineReplyString ?_⟩
  apply not_infix_of_not_mem
  decide

theorem answers_version (hfloat : lf ∉ env.versionFloat) (hgit : lf ∉ env.versionGit)
    (arguments : Arguments)
    : Answers (version : Callback env) arguments := by
  intro c hc
  refine ⟨c, _, _, rfl, hc, isReply_toInlineReplyString ?_⟩
  apply not_infix_of_not_mem
  unfold versionString
  split
  . simp only [List.mem_append, not_or]
    exact ⟨⟨⟨hfloat, by decide⟩, hgit⟩, by decide⟩
  . assumption

theorem isReply_ite (done : Bool)
    : ∃ reply, IsReply (if done then replyTrue else replyError) reply := by
  cases done with
  | true => exact ⟨_, isReply_true⟩
  | false => exact ⟨_, isReply_error⟩

section HashTable

variable (name key value : ByteString) (rest : Arguments)

theorem answers_bindHashTable
    {callback : HashTable → Arguments → Except Fault (HashTable × ByteString)}
    {arguments : Arguments}
    (h : ∀ t, ∃ t' s reply, callback t arguments = .ok (t', s) ∧ IsReply s reply)
    : Answers (bindHashTable callback : Callback env) arguments := by
  intro c hc
  rcases h c.dbHashTable with ⟨t', s, reply, hcallback, hreply⟩
  refine ⟨{ c with dbHashTable := t' }, s, reply, ?_, hc, hreply⟩
  unfold bindHashTable
  rw [hcallback]
  rfl

theorem answers_hget : Answers (bindHashTable HashTable.get : Callback env) (name :: key :: rest) := by
  apply answers_bindHashTable
  intro t
  rw [HashTable.get_eq]
  cases t.table.lookup key with
  | none => exact ⟨_, _, _, rfl, isReply_nil⟩
  | some value => exact ⟨_, _, _, rfl, isReply_toReplyString value⟩

theorem answers_hset
    : Answers (bindHashTable HashTable.set : Callback env) (name :: key :: value :: rest) := by
  apply answers_bindHashTable
  intro t
  exact ⟨_, _, _, HashTable.set_eq .., isReply_ok⟩

theorem answers_hdel : Answers (bindHashTable HashTable.del : Callback env) (name :: key :: rest) := by
  apply answers_bindHashTable
  intro t
  rw [HashTable.del_eq]
  cases t.table.lookup key with
  | none => exact ⟨_, _, _, rfl, isReply_false⟩
  | some value => exact ⟨_, _, _, rfl, isReply_true⟩

theorem answers_hfor
    : Answers (bindHashTable (HashTable.foreach env.v8) : Callback env) (name :: key :: rest) := by
  apply answers_bindHashTable
  intro t
  rw [HashTable.foreach_eq]
  cases JsVm.init env.v8 key with
  | none => exact ⟨_, _, _, rfl, isReply_error⟩
  | some vm =>
    rcases isReply_ite (JsVm.forEach env.v8 HashTable.access vm t.table.entries).1 with ⟨reply, h⟩
    exact ⟨_, _, reply, rfl, h⟩

end HashTable

section AvlTree

variable (name key value : ByteString) (rest : Arguments)

theorem answers_bindAvlTree
    {callback : AvlTree env.boost → Arguments → Except Fault (AvlTree env.boost × ByteString)}
    {arguments : Arguments}
    (h : ∀ t, t.Valid env.hash
      → ∃ t' s reply, callback t arguments = .ok (t', s) ∧ t'.Valid env.hash ∧ IsReply s reply)
    : Answers (bindAvlTree callback : Callback env) arguments := by
  intro c hc
  rcases h c.dbAvlTree hc with ⟨t', s, reply, hcallback, hvalid, hreply⟩
  refine ⟨{ c with dbAvlTree := t' }, s, reply, ?_, hvalid, hreply⟩
  unfold bindAvlTree
  rw [hcallback]
  rfl

theorem answers_atget
    : Answers (bindAvlTree (AvlTree.get env.hash) : Callback env) (name :: key :: rest) := by
  apply answers_bindAvlTree
  intro t ht
  rcases AvlTree.get_cases ht name key rest with ⟨-, hget⟩ | ⟨e, -, -, hget⟩
  . exact ⟨_, _, _, hget, ht, isReply_nil⟩
  . exact ⟨_, _, _, hget, ht, isReply_toReplyString _⟩

theorem answers_atset
    : Answers (bindAvlTree (AvlTree.set env.hash) : Callback env) (name :: key :: value :: rest) := by
  apply answers_bindAvlTree
  intro t ht
  rcases AvlTree.set_spec ht name key value rest with ⟨t', hset, ht', -⟩
  exact ⟨_, _, _, hset, ht', isReply_ok⟩

theorem answers_atdel
    : Answers (bindAvlTree (AvlTree.del env.hash) : Callback env) (name :: key :: rest) := by
  apply answers_bindAvlTree
  intro t ht
  rcases AvlTree.del_spec ht name key rest with ⟨t', s, hdel, ht', ⟨rfl, -⟩ | ⟨rfl, -⟩⟩
  . exact ⟨_, _, _, hdel, ht', isReply_true⟩
  . exact ⟨_, _, _, hdel, ht', isReply_false⟩

theorem answers_atfor
    : Answers (bindAvlTree (AvlTree.foreach env.v8) : Callback env) (name :: key :: rest) := by
  apply answers_bindAvlTree
  intro t ht
  rw [AvlTree.foreach_eq]
  cases JsVm.init env.v8 key with
  | none => exact ⟨_, _, _, rfl, ht, isReply_error⟩
  | some vm =>
    rcases isReply_ite (JsVm.forEach env.v8 AvlTree.access vm t.nodes).1 with ⟨reply, h⟩
    exact ⟨_, _, reply, rfl, ht.foreach env.v8 vm, h⟩

end AvlTree

-- The conversion to `int` does not hide that there are too few arguments.
theorem exists_of_arity_one {rest : Arguments} (h : int32 rest.length = 1)
    : ∃ key rest', rest = key :: rest' := by
  cases rest with
  | nil => contradiction
  | cons key rest' => exact ⟨key, rest', rfl⟩

theorem exists_of_arity_two {rest : Arguments} (h : int32 rest.length = 2)
    : ∃ key value rest', rest = key :: value :: rest' := by
  cases rest with
  | nil => contradiction
  | cons key rest =>
    cases rest with
    | nil =>
      have h : int32 1 = 2 := h
      exact absurd h (by decide)
    | cons value rest' => exact ⟨key, value, rest', rfl⟩

theorem answers_of_mem {command : ByteString × CallbackInfo env} (hmem : command ∈ commands env)
    (hversion : command.1 = literal "VERSION" → lf ∉ env.versionFloat ∧ lf ∉ env.versionGit)
    (name : ByteString) (rest : Arguments)
    (harity : ¬ (0 ≤ command.2.numberOfArguments
      ∧ command.2.numberOfArguments ≠ int32 rest.length))
    : Answers command.2.callback (name :: rest) := by
  simp only [commands, addGenericCommands, addDbCommands, List.cons_append, List.nil_append,
    List.mem_cons, List.not_mem_nil, or_false] at hmem
  rcases hmem with rfl | rfl | rfl | rfl | rfl | rfl | rfl | rfl | rfl | rfl | rfl
  . apply answers_commandsList
  . apply answers_pingPong
  . apply answers_version (hversion rfl).1 (hversion rfl).2
  . rcases exists_of_arity_one (by simpa [eq_comm] using harity) with ⟨key, rest, rfl⟩
    apply answers_hget
  . rcases exists_of_arity_two (by simpa [eq_comm] using harity) with ⟨key, value, rest, rfl⟩
    apply answers_hset
  . rcases exists_of_arity_one (by simpa [eq_comm] using harity) with ⟨key, rest, rfl⟩
    apply answers_hdel
  . rcases exists_of_arity_one (by simpa [eq_comm] using harity) with ⟨key, rest, rfl⟩
    apply answers_hfor
  . rcases exists_of_arity_one (by simpa [eq_comm] using harity) with ⟨key, rest, rfl⟩
    apply answers_atget
  . rcases exists_of_arity_two (by simpa [eq_comm] using harity) with ⟨key, value, rest, rfl⟩
    apply answers_atset
  . rcases exists_of_arity_one (by simpa [eq_comm] using harity) with ⟨key, rest, rfl⟩
    apply answers_atdel
  . rcases exists_of_arity_one (by simpa [eq_comm] using harity) with ⟨key, rest, rfl⟩
    apply answers_atfor

theorem lf_not_mem_formatInt (i : Int) : lf ∉ formatInt i := by
  have hdecimal : lf ∉ decimal i.natAbs := not_mem_of_isDigit (decimal_digits _) (by decide)
  unfold formatInt
  split
  . simp only [List.mem_append, not_or]
    exact ⟨by decide, hdecimal⟩
  . assumption

theorem lf_not_mem_of_mem_names {name : ByteString} (h : name ∈ names) : lf ∉ name := by
  have : ∀ name ∈ names, lf ∉ name := by decide
  apply this name h

theorem answers_malformed {name : ByteString} (h : name ∈ names) (rest : Arguments)
    (inputArguments expectedArguments : Int)
    : Answers (malformedArgumentsCallback inputArguments expectedArguments : Callback env)
        (name :: rest) := by
  intro c hc
  have hline : ¬ crlf <:+: literal "ERR " ++ (name ++ literal " malformed number of arguments ("
      ++ formatInt inputArguments ++ literal " vs " ++ formatInt expectedArguments
      ++ literal ")") := by
    apply not_infix_of_not_mem
    simp only [List.mem_append, not_or]
    exact ⟨by decide, ⟨⟨⟨⟨lf_not_mem_of_mem_names h, by decide⟩, lf_not_mem_formatInt _⟩,
      by decide⟩, lf_not_mem_formatInt _⟩, by decide⟩
  refine ⟨c, _, _, rfl, hc, isReply_encode (.error _) hline⟩

theorem notImplementedYet_eq (c : Commands env) (name : ByteString) (rest : Arguments)
    : notImplementedYetCallback c (name :: rest)
        =
      .ok (c, toErrorReplyString (name ++ literal " is not implemented")) := by
  rfl

theorem isReply_notImplementedYet (name : ByteString)
    : (∃ reply, IsReply (toErrorReplyString (name ++ literal " is not implemented")) reply)
        ↔
      ¬ crlf <:+: name := by
  have hline := isReply_error_iff (literal "ERR " ++ (name ++ literal " is not implemented"))
  rw [crlf_infix_append_left (by decide), crlf_infix_append_right (by decide)] at hline
  apply hline

theorem lookup_commands_eq_none {name : ByteString}
    : (commands env).lookup name = none ↔ name ∉ names := by
  have hnames : (commands env).map Prod.fst = names := names_eq
  rw [List.lookup_eq_none_iff, ← hnames, List.mem_map]
  constructor
  . intro h hex
    rcases hex with ⟨command, hmem, rfl⟩
    have := h command hmem
    simp at this
  . intro h command hmem
    apply bne_iff_ne.mpr
    intro heq
    apply h ⟨command, hmem, heq.symm⟩

theorem find_eq (name : ByteString) (rest : Arguments) (c : Commands env)
    : c.execute (name :: rest) = find name (int32 rest.length) c (name :: rest) := by
  rfl

theorem find_of_lookup {name : ByteString} {command : CallbackInfo env} {n : Int}
    (hlookup : (commands env).lookup name = some command) (harity : command.numberOfArguments = n)
    : find name n = command.callback := by
  unfold find
  rw [hlookup]
  dsimp only
  rw [if_neg]
  simp [harity]

theorem find_cases (name : ByteString) (rest : Arguments)
    : (name ∉ names ∧ (find name (int32 rest.length) : Callback env) = notImplementedYetCallback)
      ∨
      (name ∈ names ∧ ∃ n, (find name (int32 rest.length) : Callback env)
        = malformedArgumentsCallback (int32 rest.length) n)
      ∨
      (name ∈ names ∧ ∃ command ∈ commands env, command.1 = name
        ∧ (find name (int32 rest.length) : Callback env) = command.2.callback
        ∧ ¬ (0 ≤ command.2.numberOfArguments
          ∧ command.2.numberOfArguments ≠ int32 rest.length)) := by
  unfold find
  cases hlookup : (commands env).lookup name with
  | none =>
    apply Or.inl
    exact ⟨lookup_commands_eq_none.mp hlookup, rfl⟩
  | some command =>
    apply Or.inr
    have hmem : (name, command) ∈ commands env := by
      rcases List.lookup_eq_some_iff.mp hlookup with ⟨l1, l2, hl, -⟩
      simp [hl]
    have hnames : name ∈ names := by
      have hmap : name ∈ (commands env).map Prod.fst := List.mem_map_of_mem hmem
      rwa [names_eq] at hmap
    dsimp only
    split
    . apply Or.inl
      exact ⟨hnames, _, rfl⟩
    . next harity =>
      apply Or.inr
      exact ⟨hnames, _, hmem, rfl, rfl, harity⟩

theorem execute_spec (hfloat : lf ∉ env.versionFloat) (hgit : lf ∉ env.versionGit)
    {c : Commands env} (hc : c.Valid) (name : ByteString) (rest : Arguments)
    : ∃ c' s, c.execute (name :: rest) = .ok (c', s) ∧ c'.Valid
        ∧ ((∃ reply, IsReply s reply) ↔ ¬ crlf <:+: name) := by
  have hanswers {callback : Callback env} (hnames : name ∈ names)
      (h : Answers callback (name :: rest))
      : ∃ c' s, callback c (name :: rest) = .ok (c', s) ∧ c'.Valid
        ∧ ((∃ reply, IsReply s reply) ↔ ¬ crlf <:+: name) := by
    rcases h c hc with ⟨c', s, reply, hcallback, hc', hreply⟩
    have hline := not_infix_of_not_mem (lf_not_mem_of_mem_names hnames)
    exact ⟨c', s, hcallback, hc', iff_of_true ⟨reply, hreply⟩ hline⟩
  rw [find_eq]
  rcases find_cases name rest
    with ⟨hnames, hfind⟩ | ⟨hnames, n, hfind⟩ | ⟨hnames, command, hmem, -, hfind, harity⟩
  . rw [hfind]
    exact ⟨c, _, notImplementedYet_eq c name rest, hc, isReply_notImplementedYet name⟩
  . rw [hfind]
    apply hanswers hnames (answers_malformed hnames rest _ _)
  . rw [hfind]
    apply hanswers hnames (answers_of_mem hmem (fun _ => ⟨hfloat, hgit⟩) name rest harity)

section Stream

def serve (c : Commands env) (command : Nat × Arguments)
    : Except Fault (Commands env × (Nat × ByteString)) := do
  let (c, reply) ← c.execute command.2
  return (c, (command.1, reply))

def stream (client : Nat) (replies : List (Nat × ByteString)) : List ByteString :=
  (replies.filter (·.1 == client)).map Prod.snd

theorem forall₂_stream {vectors : List (Nat × Arguments)} {replies : List (Nat × ByteString)}
    (h : List.Forall₂ (fun x o => o.1 = x.1 ∧ ∃ reply, IsReply o.2 reply) vectors replies)
    (client : Nat)
    : ∃ decoded, List.Forall₂ IsReply (stream client replies) decoded
        ∧ decoded.length = (vectors.filter (·.1 == client)).length := by
  induction h with
  | nil => exact ⟨[], List.Forall₂.nil, rfl⟩
  | @cons x o vectors replies hhead htail ih =>
    rcases ih with ⟨decoded, hdecoded, hlength⟩
    rcases hhead with ⟨hclient, reply, hreply⟩
    unfold stream at hdecoded ⊢
    rw [List.filter_cons, List.filter_cons, hclient]
    split
    . exact ⟨reply :: decoded, List.Forall₂.cons hreply hdecoded, by simp [hlength]⟩
    . exact ⟨decoded, hdecoded, hlength⟩

theorem isReply_execute (hfloat : cr ∉ env.versionFloat ∧ lf ∉ env.versionFloat)
    (hgit : cr ∉ env.versionGit ∧ lf ∉ env.versionGit)
    : (∀ (c : Commands env) (name : ByteString) (rest : Arguments), c.Valid
        → ∃ c' s, c.execute (name :: rest) = .ok (c', s) ∧ c'.Valid
          ∧ ((∃ reply, IsReply s reply) ↔ ¬ crlf <:+: name))
      ∧
      ∀ vectors : List (Nat × Arguments),
        (∀ x ∈ vectors, ∃ name rest, x.2 = name :: rest ∧ ¬ crlf <:+: name)
        → ∀ (client : Nat) (further : ByteString),
          let replies := stream client (Machine.run serve (empty : Commands env) vectors).outputs
          replies.length = (vectors.filter (·.1 == client)).length
            ∧ ∃ decoded, List.Forall₂ IsReply replies decoded
              ∧ decodeMany replies.length (replies.flatten ++ further) = some (decoded, further) := by
  constructor
  . intro c name rest hc
    apply execute_spec hfloat.2 hgit.2 hc
  . intro vectors hvectors client further
    have hstep {c : Commands env} {x : Nat × Arguments} (hc : c.Valid)
        (hx : ∃ name rest, x.2 = name :: rest ∧ ¬ crlf <:+: name)
        : ∃ c' o, c.serve x = .ok (c', o) ∧ c'.Valid ∧ (o.1 = x.1 ∧ ∃ reply, IsReply o.2 reply) := by
      rcases hx with ⟨name, rest, harguments, hname⟩
      rcases execute_spec hfloat.2 hgit.2 hc name rest with ⟨c', s, hexecute, hc', hreply⟩
      refine ⟨c', (x.1, s), ?_, hc', rfl, hreply.mpr hname⟩
      unfold serve
      rw [harguments, hexecute]
      rfl
    have hanswers := (Machine.run_answers hstep valid_empty hvectors).1
    rcases forall₂_stream hanswers client with ⟨decoded, hdecoded, hlength⟩
    refine ⟨?_, decoded, hdecoded, decodeMany_flatten hdecoded further⟩
    rw [hdecoded.length_eq, hlength]

def plain : Environment Unit where
  boost := Boost.Intrusive.sortedList Hook.internalKey
  hash _ := 0
  v8 := .ofFunctions (fun _ => none) (fun _ _ _ => (none, ()))
  versionFloat := literal "0.1"
  versionGit := literal "v0.1-master-RELEASE"
  visit names := names
  visit_perm _ := List.Perm.refl _

theorem isReply_execute_ping
    : ∃ c' s, (empty : Commands plain).execute [literal "PING"] = .ok (c', s) ∧ c'.Valid
        ∧ ((∃ reply, IsReply s reply) ↔ ¬ crlf <:+: literal "PING") := by
  apply (isReply_execute (by decide) (by decide)).1
  apply valid_empty

theorem isReply_execute_quoted
    : ¬ ∀ (ρ : Type) (env : Environment ρ), (cr ∉ env.versionFloat ∧ lf ∉ env.versionFloat)
        → (cr ∉ env.versionGit ∧ lf ∉ env.versionGit)
        → ∀ (c : Commands env) (arguments : Arguments), c.Valid → arguments ≠ []
        → arguments.head? ≠ some []
        → ∃ c' s reply, c.execute arguments = .ok (c', s) ∧ IsReply s reply := by
  intro h
  rcases h Unit plain (by decide) (by decide) empty [literal "X\r\n+OK"] valid_empty (by decide)
    (by decide) with ⟨c', s, reply, hexecute, hreply⟩
  have hname : literal "X\r\n+OK" ∉ names := by decide
  rw [find_eq] at hexecute
  unfold find at hexecute
  rw [lookup_commands_eq_none.mpr hname] at hexecute
  dsimp only at hexecute
  rw [notImplementedYet_eq] at hexecute
  injection hexecute with hexecute
  injection hexecute with _ hs
  rw [← hs] at hreply
  exact absurd ((isReply_notImplementedYet _).mp ⟨reply, hreply⟩) (by decide)

end Stream

end Commands
