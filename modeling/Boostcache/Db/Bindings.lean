import Boostcache.Db.Agreement
import Boostcache.Db.Foreach
import Boostcache.Indexed.Basic

/-!
What the `AvlTree` is seen from outside, whatever the hash function is: bindings in the order in
which they were made, of which a key finds the one that was made with its hash. Values are replaced
where they stand, this is the order in which `foreach` visits them.
-/

open Cpp CommandHandler JsVm

namespace JsVm

variable {ρ α β : Type}

theorem forEach_comm (access : Access α) (access' : Access β) {f : α → β}
    (hkey : ∀ x, access'.key (f x) = access.key x) (hvalue : ∀ x, access'.value (f x) = access.value x)
    (hassign : ∀ x v, f (access.assign x v) = access'.assign (f x) v) (v8 : V8 ρ) (vm : ρ)
    (xs : List α)
    : forEach v8 access' vm (xs.map f)
        =
      ((forEach v8 access vm xs).1, (forEach v8 access vm xs).2.map f) := by
  induction xs generalizing vm with
  | nil => rfl
  | cons x xs ih =>
    simp only [List.map_cons, forEach, hkey, hvalue]
    split
    . rfl
    . simp only [ih, List.map_cons, hassign]

end JsVm

namespace Db

inductive Query where
  | operation (operation : Operation)
  | foreach (code : ByteString)
  deriving DecidableEq, Repr

variable {ρ : Type} {boost : Boost} {hash : Key → UInt64}

def AvlTree.serve (hash : Key → UInt64) (v8 : V8 ρ) (t : AvlTree boost)
    : Query → Except Fault (AvlTree boost × ByteString)
  | .operation operation => t.step hash operation
  | .foreach code => t.foreach v8 [literal "ATFOR", code]

def binding : Access (Key × Value) where
  key := Prod.fst
  value := Prod.snd
  assign b v := (b.1, v)
  key_assign _ _ := rfl
  value_assign _ _ := rfl
  assign_value _ := rfl

abbrev Bindings (hash : Key → UInt64) := Indexed hash Value

namespace Bindings

def get (m : Bindings hash) (key : Key) : ByteString :=
  match m.lookup key with
  | none => replyNil
  | some value => toReplyString value

def del (m : Bindings hash) (key : Key) : ByteString :=
  match m.lookup key with
  | none => replyFalse
  | some _ => replyTrue

def foreach (v8 : V8 ρ) (m : Bindings hash) (code : ByteString) : Bindings hash × ByteString :=
  match init v8 code with
  | none => (m, replyError)
  | some vm =>
    (
      m.withValues (forEach v8 binding vm m.entries).2
        (forEach_map v8 binding binding.key_assign vm m.entries),
      if (forEach v8 binding vm m.entries).1 then replyTrue else replyError
    )

def serve (v8 : V8 ρ) (m : Bindings hash) : Query → Bindings hash × ByteString
  | .operation (.get key) => (m, m.get key)
  | .operation (.set key value) => (m.insert key value, replyOk)
  | .operation (.del key) => (m.erase key, m.del key)
  | .foreach code => m.foreach v8 code

def run (v8 : V8 ρ) (m : Bindings hash) : List Query → Bindings hash × List ByteString
  | [] => (m, [])
  | query :: queries =>
    let (m, reply) := m.serve v8 query
    let (m, replies) := run v8 m queries
    (m, reply :: replies)

end Bindings

namespace AvlTree

structure Represents (t : AvlTree boost) (m : Bindings hash) : Prop where
  valid : Valid hash t
  bindings : t.bindings = m.entries

namespace Represents

theorem empty : Represents (AvlTree.empty : AvlTree boost) (Indexed.empty : Bindings hash) where
  valid := valid_empty
  bindings := rfl

variable {t : AvlTree boost} {m : Bindings hash} (h : Represents t m) {key : Key}

include h

theorem mem_entries {e : Nat × Node} (he : e ∈ t.nodes) : (e.2.key, e.2.value) ∈ m.entries := by
  rw [← h.bindings]
  apply List.mem_map_of_mem he

theorem hash_eq {e : Nat × Node} (he : e ∈ t.nodes) (hkey : e.2.internalKey = hash key)
    : hash e.2.key = hash key := by
  rw [← h.valid.internalKey e he, hkey]

theorem absent (habsent : Absent hash t key) : ∀ b ∈ m.entries, hash b.1 ≠ hash key := by
  intro b hb
  rw [← h.bindings] at hb
  rcases List.mem_map.mp hb with ⟨e, he, rfl⟩
  rw [← h.valid.internalKey e he]
  apply habsent e he

theorem get (name key : ByteString) (rest : Arguments)
    : t.get hash (name :: key :: rest) = .ok (t, m.get key) := by
  unfold Bindings.get
  rcases get_cases h.valid name key rest with ⟨habsent, hget⟩ | ⟨e, he, hkey, hget⟩
  . rw [hget, m.lookup_absent (h.absent habsent)]
  . rw [hget, m.lookup_present (h.mem_entries he) (h.hash_eq he hkey)]

theorem push_back {t' : AvlTree boost} (hvalid : Valid hash t') {e : Nat × Node} {value : Value}
    (habsent : Absent hash t key) (hkey : e.2.key = key) (hvalue : e.2.value = value)
    (hnodes : t'.nodes = t.nodes ++ [e])
    : Represents t' (m.insert key value) where
  valid := hvalid
  bindings := by
    rw [m.entries_insert_absent (h.absent habsent), ← h.bindings]
    unfold AvlTree.bindings
    rw [hnodes, List.map_append, List.map_singleton, hkey, hvalue]

-- Of the nodes of a valid tree, the one at an address is also the one with a hash.
theorem assign {t' : AvlTree boost} (hvalid : Valid hash t') {e : Nat × Node} (he : e ∈ t.nodes)
    (hkey : e.2.internalKey = hash key) {value : Value} (hnodes : t'.nodes = assign t.nodes e.1 value)
    : Represents t' (m.insert key value) where
  valid := hvalid
  bindings := by
    rw [m.entries_insert_present (h.mem_entries he) (h.hash_eq he hkey), ← h.bindings]
    unfold AvlTree.bindings AvlTree.assign at *
    unfold Indexed.overwrite
    rw [hnodes, List.map_map, List.map_map]
    apply List.map_congr_left
    intro e' he'
    have hiff : e'.1 = e.1 ↔ hash e'.2.key = hash key := by
      constructor
      . intro heq
        rw [h.valid.eq_of_address he' he heq, h.hash_eq he hkey]
      . intro heq
        rw [h.valid.eq_of_internalKey he' he (by rw [h.valid.internalKey e' he', heq, hkey])]
    dsimp only [Function.comp]
    by_cases heq : e'.1 = e.1
    . rw [if_pos heq, if_pos (hiff.mp heq)]
    . rw [if_neg heq, if_neg (fun hhash => heq (hiff.mpr hhash))]

theorem set (name key value : ByteString) (rest : Arguments)
    : ∃ t', t.set hash (name :: key :: value :: rest) = .ok (t', replyOk)
        ∧ Represents t' (m.insert key value) := by
  rcases set_spec h.valid name key value rest
    with ⟨t', hset, hvalid, ⟨habsent, e, hkey, hvalue, hadds⟩ | ⟨e, hkey, hoverwrites⟩⟩
  . exact ⟨t', hset, h.push_back hvalid habsent hkey hvalue hadds.nodes⟩
  . exact ⟨t', hset, h.assign hvalid hoverwrites.mem hkey hoverwrites.nodes⟩

theorem erase {t' : AvlTree boost} (hvalid : Valid hash t') {e : Nat × Node}
    (hkey : e.2.internalKey = hash key) (hremoves : Removes t t' e)
    : (∃ value, m.lookup key = some value) ∧ Represents t' (m.erase key) := by
  rcases hremoves.nodes with ⟨l1, l2, hnodes, hnodes'⟩
  have he : e ∈ t.nodes := by simp [hnodes]
  refine ⟨⟨_, m.lookup_present (h.mem_entries he) (h.hash_eq he hkey)⟩, hvalid, ?_⟩
  have hentries := h.bindings
  unfold AvlTree.bindings at hentries ⊢
  rw [hnodes, List.map_append, List.map_cons] at hentries
  rw [m.entries_erase_present hentries.symm (h.hash_eq he hkey), hnodes', List.map_append]

theorem del (name key : ByteString) (rest : Arguments)
    : ∃ t', t.del hash (name :: key :: rest) = .ok (t', m.del key)
        ∧ Represents t' (m.erase key) := by
  unfold Bindings.del
  rcases del_spec h.valid name key rest
    with ⟨t', reply, hdel, hvalid, ⟨rfl, e, hkey, hremoves⟩ | ⟨rfl, rfl, habsent⟩⟩
  . rcases h.erase hvalid hkey hremoves with ⟨⟨value, hlookup⟩, hrepresents⟩
    rw [hlookup]
    exact ⟨t', hdel, hrepresents⟩
  . rw [m.lookup_absent (h.absent habsent)]
    refine ⟨t', hdel, hvalid, ?_⟩
    rw [m.entries_erase_absent (h.absent habsent), h.bindings]

theorem foreach (v8 : V8 ρ) (name code : ByteString) (rest : Arguments)
    : ∃ t', t.foreach v8 (name :: code :: rest) = .ok (t', (m.foreach v8 code).2)
        ∧ Represents t' (m.foreach v8 code).1 := by
  rw [foreach_eq]
  unfold Bindings.foreach
  cases init v8 code with
  | none => exact ⟨t, rfl, h⟩
  | some vm =>
    have hforEach := forEach_comm access binding (f := fun e => (e.2.key, e.2.value)) (fun _ => rfl)
      (fun _ => rfl) (fun _ _ => rfl) v8 vm t.nodes
    have hentries : t.nodes.map (fun e => (e.2.key, e.2.value)) = m.entries := h.bindings
    rw [hentries] at hforEach
    refine ⟨{ t with nodes := (forEach v8 access vm t.nodes).2 }, ?_, h.valid.foreach v8 vm, ?_⟩
    . simp only [hforEach]
    . exact (congrArg Prod.snd hforEach).symm

theorem serve (v8 : V8 ρ) (query : Query)
    : ∃ t', t.serve hash v8 query = .ok (t', (m.serve v8 query).2)
        ∧ Represents t' (m.serve v8 query).1 := by
  cases query with
  | operation operation =>
    cases operation with
    | get key => exact ⟨t, h.get _ key [], h⟩
    | set key value => exact h.set _ key value []
    | del key => exact h.del _ key []
  | foreach code => exact h.foreach v8 _ code []

end Represents

theorem run_serve (boost : Boost) (hash : Key → UInt64) (v8 : V8 ρ) (queries : List Query)
    : ∃ t : AvlTree boost,
        Machine.run (serve hash v8) empty queries
          = { outputs := (Bindings.run v8 (Indexed.empty : Bindings hash) queries).2, final := .ok t }
        ∧ t.bindings = (Bindings.run v8 (Indexed.empty : Bindings hash) queries).1.entries := by
  have hrun {t : AvlTree boost} {m : Bindings hash} (h : Represents t m)
      : ∃ t', Machine.run (serve hash v8) t queries
          = { outputs := (m.run v8 queries).2, final := .ok t' }
        ∧ Represents t' (m.run v8 queries).1 := by
    induction queries generalizing t m with
    | nil => exact ⟨t, rfl, h⟩
    | cons query queries ih =>
      rcases h.serve v8 query with ⟨t1, hserve, h1⟩
      rcases ih h1 with ⟨t', hrun, h'⟩
      refine ⟨t', ?_, h'⟩
      rw [Machine.run_cons_ok hserve, hrun]
      rfl
  rcases hrun .empty with ⟨t, hrun, hrepresents⟩
  exact ⟨t, hrun, hrepresents.bindings⟩

end AvlTree

end Db
