import Boostcache.Kernel.Commands.Dispatch
import Boostcache.Kernel.Commands.Sections

/-!
The commands of one store do not notice those of the other one, nor those that need no store. This
follows from where the callbacks wait for a lock, whatever they do then.
-/

open Cpp CommandHandler Machine

namespace Commands

variable {ρ : Type} {env : Environment ρ}

-- The store whose lock the command waits for.
def store? (env : Environment ρ) (arguments : Arguments) : Option Store :=
  match (enter arguments : Except Fault (ByteString ⊕ Section (object env))) with
  | .ok (.inr sec) => some sec.index
  | _ => none

theorem ofStores_stores (c : Commands env) : ofStores c.stores = c := by
  rfl

theorem stores_ofStores_update (c : Commands env) (i store : Store) (s : (object env i).State)
    : (ofStores (Function.update c.stores i s)).stores store
        =
      Function.update c.stores i s store := by
  cases store with
  | hashTable => rfl
  | avlTree => rfl

variable {arguments : Arguments} {store : Store}

theorem enter_of_some (hstore : store? env arguments = some store)
    : ∃ sec : Section (object env), enter arguments = .ok (.inr sec) ∧ sec.index = store := by
  unfold store? at hstore
  split at hstore
  . next sec henter =>
    injection hstore with hindex
    exact ⟨sec, henter, hindex⟩
  . contradiction

variable {c c' : Commands env}

-- The section computes the reply from its own store and nothing else.
theorem execute_of_some (hc : c.Valid) (hstore : store? env arguments = some store)
    (hstores : c.stores store = c'.stores store)
    : ∃ s reply, c.execute arguments = .ok (ofStores (Function.update c.stores store s), reply)
        ∧ c'.execute arguments = .ok (ofStores (Function.update c'.stores store s), reply) := by
  rcases enter_of_some hstore with ⟨sec, henter, rfl⟩
  rcases exists_of_enter henter with ⟨name, rest, rfl⟩
  have hsplits := splits_execute c.stores (name :: rest)
  have hsplits' := splits_execute c'.stores (name :: rest)
  rw [henter, ofStores_stores] at hsplits hsplits'
  rcases hsplits with _ | _ | ⟨hcomputes, hexecute⟩
  rcases hsplits' with _ | _ | ⟨hcomputes', hexecute'⟩
  rcases execute_ok hc name rest with ⟨d, reply, hok, -⟩
  rw [hexecute] at hok
  rcases bind_eq_ok.mp hok with ⟨⟨s, b⟩, hx, -⟩
  have hexec := (hcomputes s b).mpr hx
  rw [hstores] at hexec
  have hx' := (hcomputes' s b).mp hexec
  refine ⟨s, b, ?_, ?_⟩
  . rw [hexecute, hx]
    rfl
  . rw [hexecute', hx']
    rfl

structure Alike (store : Store) (c c' : Commands env) : Prop where
  valid : c.Valid
  valid' : c'.Valid
  stores : c.stores store = c'.stores store

theorem Alike.keep (h : Alike store c c') (harguments : arguments ≠ [])
    (hstore : store? env arguments = some store)
    : ∃ d d' reply, c.execute arguments = .ok (d, reply) ∧ c'.execute arguments = .ok (d', reply)
        ∧ Alike store d d' := by
  rcases List.exists_cons_of_ne_nil harguments with ⟨name, rest, rfl⟩
  rcases execute_of_some h.valid hstore h.stores with ⟨s, reply, hexecute, hexecute'⟩
  rcases execute_ok h.valid name rest with ⟨d, r, hok, hd⟩
  rcases execute_ok h.valid' name rest with ⟨d', r', hok', hd'⟩
  rw [hexecute] at hok
  rw [hexecute'] at hok'
  injection hok with hok
  injection hok with hok
  injection hok' with hok'
  injection hok' with hok'
  subst hok hok'
  refine ⟨_, _, reply, hexecute, hexecute', hd, hd', ?_⟩
  rw [stores_ofStores_update, stores_ofStores_update, Function.update_self, Function.update_self]

end Commands
