import Mathlib.Logic.Function.Basic

/-!
Histories of threads that call the operations of a shared object and wait for what they return. Such
a history is linearizable if every operation that has returned can be given a moment between its
call and its return at which it takes effect, such that the effects make up a sequential run.
-/

namespace Machine

variable {σ σ' τ α β : Type}

inductive Event (τ α β : Type) where
  | call (t : τ) (x : α)
  | ret (t : τ) (o : β)
  deriving DecidableEq, Repr

def Event.call? : Event τ α β → Option (τ × α)
  | call t x => some (t, x)
  | ret _ _ => none

inductive Label (τ α β : Type) where
  | call (t : τ) (x : α)
  | effect (t : τ) (x : α) (o : β)
  | ret (t : τ) (o : β)
  deriving DecidableEq, Repr

namespace Label

def thread : Label τ α β → τ
  | call t _ => t
  | effect t _ _ => t
  | ret t _ => t

def event : Label τ α β → Option (Event τ α β)
  | call t x => some (.call t x)
  | effect _ _ _ => none
  | ret t o => some (.ret t o)

def effect? : Label τ α β → Option ((τ × α) × β)
  | call _ _ => none
  | effect t x o => some ((t, x), o)
  | ret _ _ => none

end Label

-- How far a thread has got with its current operation.
inductive Progress (α β : Type) where
  | idle
  | called (x : α)
  | done (o : β)
  deriving DecidableEq, Repr

inductive History (t : τ) : List (Label τ α β) → Progress α β → Prop
  | start : History t [] .idle
  | call {labels : List (Label τ α β)} (x : α)
      : History t labels .idle → History t (labels ++ [.call t x]) (.called x)
  | effect {labels : List (Label τ α β)} {x : α} (o : β)
      : History t labels (.called x) → History t (labels ++ [.effect t x o]) (.done o)
  | ret {labels : List (Label τ α β)} {o : β}
      : History t labels (.done o) → History t (labels ++ [.ret t o]) .idle
  | other {labels : List (Label τ α β)} {progress : Progress α β} {label : Label τ α β}
      : label.thread ≠ t → History t labels progress → History t (labels ++ [label]) progress

inductive Sequential (op : σ → τ → α → σ → β → Prop) (s : σ) : List ((τ × α) × β) → σ → Prop
  | start : Sequential op s [] s
  | effect {effects : List ((τ × α) × β)} {s1 s2 : σ} {t : τ} {x : α} {o : β}
      : Sequential op s effects s1
          →
        op s1 t x s2 o
          →
        Sequential op s (effects ++ [((t, x), o)]) s2

/--
There is a sequential run from `s` to `s'` that explains the history: every thread has got as far as
`progress` says, and each operation that is done has taken effect after it was called.
-/
def Linearizes (op : σ → τ → α → σ → β → Prop) (s : σ) (history : List (Event τ α β)) (s' : σ)
    (progress : τ → Progress α β) : Prop :=
  ∃ labels : List (Label τ α β),
    labels.filterMap Label.event = history
      ∧ Sequential op s (labels.filterMap Label.effect?) s'
      ∧ ∀ t, History t labels (progress t)

variable {op : σ → τ → α → σ → β → Prop} {s s1 s2 : σ} {history : List (Event τ α β)}
  {progress : τ → Progress α β}

namespace Linearizes

theorem start : Linearizes op s [] s (fun _ => .idle) := by
  refine ⟨[], rfl, .start, ?_⟩
  intro t
  apply History.start

variable [DecidableEq τ]

theorem history_update {labels : List (Label τ α β)} (h : ∀ t, History t labels (progress t))
    {l : Label τ α β} {p : Progress α β}
    (hlabel : History l.thread (labels ++ [l]) p) (t : τ)
    : History t (labels ++ [l]) (Function.update progress l.thread p t) := by
  by_cases ht : t = l.thread
  . rw [ht, Function.update_self]
    apply hlabel
  . rw [Function.update_of_ne ht]
    apply History.other (Ne.symm ht) (h t)

theorem call (h : Linearizes op s history s1 progress) {t : τ} (ht : progress t = .idle) (x : α)
    : Linearizes op s (history ++ [.call t x]) s1 (Function.update progress t (.called x)) := by
  rcases h with ⟨labels, rfl, hsequential, hhistory⟩
  refine ⟨labels ++ [.call t x], by simp [Label.event], ?_, ?_⟩
  . rw [List.filterMap_append, List.filterMap_cons_none rfl, List.filterMap_nil, List.append_nil]
    apply hsequential
  . apply history_update hhistory (l := .call t x)
    apply History.call
    rw [← ht]
    apply hhistory

theorem effect (h : Linearizes op s history s1 progress) {t : τ} {x : α}
    (ht : progress t = .called x) {o : β} (hop : op s1 t x s2 o)
    : Linearizes op s history s2 (Function.update progress t (.done o)) := by
  rcases h with ⟨labels, rfl, hsequential, hhistory⟩
  refine ⟨labels ++ [.effect t x o], by simp [Label.event], ?_, ?_⟩
  . rw [List.filterMap_append]
    apply hsequential.effect hop
  . apply history_update hhistory (l := .effect t x o)
    apply History.effect
    rw [← ht]
    apply hhistory

theorem ret (h : Linearizes op s history s1 progress) {t : τ} {o : β} (ht : progress t = .done o)
    : Linearizes op s (history ++ [.ret t o]) s1 (Function.update progress t .idle) := by
  rcases h with ⟨labels, rfl, hsequential, hhistory⟩
  refine ⟨labels ++ [.ret t o], by simp [Label.event], ?_, ?_⟩
  . rw [List.filterMap_append, List.filterMap_cons_none rfl, List.filterMap_nil, List.append_nil]
    apply hsequential
  . apply history_update hhistory (l := .ret t o)
    apply History.ret
    rw [← ht]
    apply hhistory

end Linearizes

theorem Sequential.invariant {I : σ → Prop} (hop : ∀ {s t x s' o}, I s → op s t x s' o → I s')
    {effects : List ((τ × α) × β)} (h : Sequential op s effects s1) (hs : I s)
    : I s1 := by
  induction h with
  | start => assumption
  | effect _ heffect ih => apply hop ih heffect

theorem Sequential.map {op' : σ' → τ → α → σ' → β → Prop} {f : σ → σ'}
    (hop : ∀ {s t x s' o}, op s t x s' o → op' (f s) t x (f s') o)
    {effects : List ((τ × α) × β)} (h : Sequential op s effects s1)
    : Sequential op' (f s) effects (f s1) := by
  induction h with
  | start => apply Sequential.start
  | effect _ heffect ih => apply ih.effect (hop heffect)

theorem Linearizes.map {op' : σ' → τ → α → σ' → β → Prop} {f : σ → σ'}
    (hop : ∀ {s t x s' o}, op s t x s' o → op' (f s) t x (f s') o)
    (h : Linearizes op s history s1 progress)
    : Linearizes op' (f s) history (f s1) progress := by
  rcases h with ⟨labels, hevents, hsequential, hhistory⟩
  refine ⟨labels, hevents, hsequential.map ?_, hhistory⟩
  intro s t x s' o heffect
  apply hop heffect

section Simulation

variable {op' : σ' → τ → α → σ' → β → Prop} {u : σ'}

-- The relation may depend on the operations that are still to come.
theorem Sequential.simulation {R : List α → σ → σ' → Prop}
    (hop : ∀ {x xs s t s' o u}, R (x :: xs) s u → op s t x s' o → ∃ u', op' u t x u' o ∧ R xs s' u')
    {effects : List ((τ × α) × β)} (h : Sequential op s effects s1) (rest : List α)
    (hR : R (effects.map (·.1.2) ++ rest) s u)
    : ∃ u1, Sequential op' u effects u1 ∧ R rest s1 u1 := by
  induction h generalizing rest with
  | start => exact ⟨u, .start, hR⟩
  | effect _ heffect ih =>
    rw [List.map_append, List.map_singleton, List.append_assoc, List.singleton_append] at hR
    rcases ih _ hR with ⟨u1, hsequential, hR1⟩
    rcases hop hR1 heffect with ⟨u2, heffect', hR2⟩
    exact ⟨u2, hsequential.effect heffect', hR2⟩

theorem Linearizes.simulation {R : σ → σ' → Prop}
    (hop : ∀ {s t x s' o u}, R s u → op s t x s' o → ∃ u', op' u t x u' o ∧ R s' u')
    (h : Linearizes op s history s1 progress) (hR : R s u)
    : ∃ u1, Linearizes op' u history u1 progress ∧ R s1 u1 := by
  rcases h with ⟨labels, hevents, hsequential, hhistory⟩
  have hsimulation : ∃ u1, Sequential op' u (labels.filterMap Label.effect?) u1 ∧ R s1 u1 := by
    refine Sequential.simulation (R := fun _ => R) ?_ hsequential [] hR
    intro x xs s t s' o u hR heffect
    apply hop hR heffect
  rcases hsimulation with ⟨u1, hsequential', hR1⟩
  exact ⟨u1, ⟨labels, hevents, hsequential', hhistory⟩, hR1⟩

end Simulation

section Threads

variable [DecidableEq τ]

def Progress.pending : Progress α β → List α
  | idle => []
  | called x => [x]
  | done _ => []

def callsOf (t : τ) (history : List (Event τ α β)) : List α :=
  ((history.filterMap Event.call?).filter (·.1 = t)).map Prod.snd

def effectsOf (t : τ) (effects : List ((τ × α) × β)) : List α :=
  (effects.filter (·.1.1 = t)).map (·.1.2)

theorem callsOf_append (t : τ) (history history' : List (Event τ α β))
    : callsOf t (history ++ history') = callsOf t history ++ callsOf t history' := by
  simp [callsOf]

theorem effectsOf_append (t : τ) (effects effects' : List ((τ × α) × β))
    : effectsOf t (effects ++ effects') = effectsOf t effects ++ effectsOf t effects' := by
  simp [effectsOf]

theorem effectsOf_cons (t : τ) (e : (τ × α) × β) (effects : List ((τ × α) × β))
    : effectsOf t (e :: effects)
        =
      if e.1.1 = t then e.1.2 :: effectsOf t effects else effectsOf t effects := by
  unfold effectsOf
  by_cases h : e.1.1 = t
  . simp [h]
  . simp [h]

-- A thread has at most one operation that has been called and has not taken effect.
theorem History.callsOf_eq {t : τ} {labels : List (Label τ α β)} {p : Progress α β}
    (h : History t labels p)
    : callsOf t (labels.filterMap Label.event)
        =
      effectsOf t (labels.filterMap Label.effect?) ++ p.pending := by
  induction h with
  | start => rfl
  | call x _ ih =>
    rw [List.filterMap_append, callsOf_append, ih, List.filterMap_append, effectsOf_append]
    simp [callsOf, effectsOf, Label.event, Label.effect?, Event.call?, Progress.pending]
  | effect o _ ih =>
    rw [List.filterMap_append, callsOf_append, ih, List.filterMap_append, effectsOf_append]
    simp [callsOf, effectsOf, Label.event, Label.effect?, Progress.pending]
  | ret _ ih =>
    rw [List.filterMap_append, callsOf_append, ih, List.filterMap_append, effectsOf_append]
    rfl
  | @other labels p label hne _ ih =>
    rw [List.filterMap_append, callsOf_append, ih, List.filterMap_append, effectsOf_append]
    cases label with
    | call t' x =>
      simp [callsOf, effectsOf, Label.event, Label.effect?, Event.call?, show t' ≠ t from hne]
    | effect t' x o =>
      simp [callsOf, effectsOf, Label.event, Label.effect?, show t' ≠ t from hne]
    | ret t' o => simp [callsOf, effectsOf, Label.event, Label.effect?, Event.call?, List.filterMap]

end Threads

end Machine
