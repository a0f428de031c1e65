import Boostcache.Machine.LockedLemmas
import Mathlib.Algebra.Order.BigOperators.Group.Finset
import Mathlib.Data.Fintype.Basic
import Mathlib.Logic.Relation

/-!
If every section that is entered ends, then so does every operation that does not fault before: as
long as its thread has not returned some thread can go on, and there are only finitely many steps up
to the next call.
-/

open Boost

namespace Machine

variable {τ ι π α β ω ε : Type} {program : Program τ ι π α β ω ε}

namespace Object

variable {object : Object β ε} {mode : Mode}

-- The section ends after `n` further steps and another one.
inductive EndsIn (object : Object β ε) (mode : Mode)
    : Nat → object.Local mode → object.State → Prop
  | done {l : object.Local mode} {s s' : object.State} {b : β}
      : object.micro mode l s = .ok (s', .inr b) → EndsIn object mode 0 l s
  | next {n : Nat} {l l' : object.Local mode} {s s' : object.State}
      : object.micro mode l s = .ok (s', .inl l')
          →
        EndsIn object mode n l' s'
          →
        EndsIn object mode (n + 1) l s

variable {l l' : object.Local mode} {s s' : object.State}

theorem Exec.endsIn {b : β} (h : object.Exec mode l s s' b) : ∃ n, object.EndsIn mode n l s := by
  induction h with
  | done hmicro => exact ⟨0, .done hmicro⟩
  | next hmicro _ ih =>
    rcases ih with ⟨n, hn⟩
    exact ⟨n + 1, .next hmicro hn⟩

theorem EndsIn.micro {n : Nat} (h : object.EndsIn mode n l s)
    (hmicro : object.micro mode l s = .ok (s', .inl l'))
    : ∃ m, n = m + 1 ∧ object.EndsIn mode m l' s' := by
  cases h with
  | done hdone =>
    rw [hmicro] at hdone
    simp at hdone
  | @next n _ _ _ _ hnext hends =>
    rw [hmicro] at hnext
    injection hnext with hnext
    injection hnext with hs hl
    injection hl with hl
    refine ⟨n, rfl, ?_⟩
    rw [hs, hl]
    apply hends

end Object

def Ends (a : Shared program) : Prop :=
  ∀ t x p sec, program.serves t x → program.enter (a.priv t) x = .ok (p, .inr sec)
    → ∃ s b, (program.object sec.index).Exec sec.mode sec.locals (a.objects sec.index) s b

def Phase.rank : Phase program → Nat
  | idle => 0
  | faulted _ => 0
  | waiting _ _ => 6
  | upgrading _ _ _ => 5
  | inside _ _ => 4
  | finished _ _ _ => 3
  | leaving _ _ => 2
  | returning _ => 1

namespace System

variable {c c' : System program} {a : Shared program} {t : τ}

theorem Simulates.exec (h : c.Simulates a) (hends : Ends a) {x : α} {sec : Section program.object}
    (ht : c.phase t = .inside x sec)
    : ∃ s b, (program.object sec.index).Exec sec.mode sec.locals (c.objects sec.index) s b := by
  have hprepares := h.threads t
  rw [ht] at hprepares
  rcases hprepares with ⟨l, hx, henter, hmicros⟩
  rcases hends t x _ _ hx henter with ⟨s, b, hexec⟩
  exact ⟨s, b, hexec.of_micros hmicros⟩

-- `f` says how many steps each section has still to make.
def Within (c : System program) (f : τ → Nat) : Prop :=
  ∀ t x sec, c.phase t = .inside x sec
    → (program.object sec.index).EndsIn sec.mode (f t) sec.locals (c.objects sec.index)

theorem Simulates.within (h : c.Simulates a) (hends : Ends a) : ∃ f, c.Within f := by
  have hthread : ∀ t, ∃ n, ∀ x sec, c.phase t = .inside x sec
      → (program.object sec.index).EndsIn sec.mode n sec.locals (c.objects sec.index) := by
    intro t
    cases ht : c.phase t with
    | inside x sec =>
      rcases h.exec hends ht with ⟨s, b, hexec⟩
      rcases hexec.endsIn with ⟨n, hn⟩
      refine ⟨n, ?_⟩
      intro x' sec' heq
      injection heq with _ heq
      rw [← heq]
      apply hn
    | _ => exact ⟨0, by simp⟩
  exact ⟨_, fun t => (Classical.skolem.mp hthread).choose_spec t⟩

variable [DecidableEq τ] [DecidableEq ι]

def CallFree (c c' : System program) : Prop :=
  ∃ event, Step c event c' ∧ ∀ t x, event ≠ some (.call t x)

section Deadlock

theorem Step.callFree (h : Step c none c') : CallFree c c' := by
  exact ⟨none, h, by simp⟩

theorem callFree_inside (h : c.Simulates a) (hends : Ends a) {x : α} {sec : Section program.object}
    (ht : c.phase t = .inside x sec)
    : ∃ c', CallFree c c' := by
  rcases h.exec hends ht with ⟨s, b, hexec⟩
  cases hexec with
  | done hmicro => exact ⟨_, (Step.finish ht hmicro).callFree⟩
  | next hmicro _ => exact ⟨_, (Step.micro ht hmicro).callFree⟩

theorem callFree_finished {i : ι} {mode : Mode} {o : ω} (ht : c.phase t = .finished i mode o)
    : ∃ c', CallFree c c' := by
  cases mode with
  | shared => exact ⟨_, (Step.unlockShared ht).callFree⟩
  | exclusive => exact ⟨_, (Step.unlock ht).callFree⟩

theorem callFree_of_mode (h : c.Simulates a) (howned : c.Owned) (hends : Ends a) {i : ι}
    {m : Mode} (howns : c.Owns i t m.ownership)
    : ∃ c', CallFree c c' := by
  rw [howned] at howns
  cases ht : c.phase t with
  | inside x sec => apply callFree_inside h hends ht
  | finished i mode o => apply callFree_finished ht
  | upgrading x sec =>
    rw [ht] at howns
    cases m <;> simp [Phase.owns, Mode.ownership] at howns
  | leaving i o =>
    rw [ht] at howns
    cases m <;> simp [Phase.owns, Mode.ownership] at howns
  | _ =>
    rw [ht] at howns
    simp [Phase.owns] at howns

theorem callFree_upgrading (h : c.Simulates a) (howned : c.Owned) (hends : Ends a) {x : α}
    {sec : Section program.object} {exclusive : sec.mode = .exclusive}
    (ht : c.phase t = .upgrading x sec exclusive)
    : ∃ c', CallFree c c' := by
  cases hlock : program.mutex.unlockUpgradeAndLock (c.mutex sec.index) t with
  | some m => exact ⟨_, (Step.lock ht hlock).callFree⟩
  | none =>
    have hupgrade : c.Owns sec.index t .upgrade := by
      rw [howned, ht]
      rfl
    rcases program.mutex.unlockUpgradeAndLock_eq_none hupgrade hlock with ⟨t', hshared⟩
    apply callFree_of_mode (m := .shared) h howned hends hshared

theorem callFree_of_owner (h : c.Simulates a) (howned : c.Owned) (hends : Ends a) {i : ι}
    {k : Ownership} (howns : c.Owns i t k)
    : ∃ c', CallFree c c' := by
  cases k with
  | shared => apply callFree_of_mode (m := .shared) h howned hends howns
  | exclusive => apply callFree_of_mode (m := .exclusive) h howned hends howns
  | upgrade =>
    rw [howned] at howns
    cases ht : c.phase t with
    | upgrading x sec => apply callFree_upgrading h howned hends ht
    | leaving i o => exact ⟨_, (Step.unlockUpgrade ht).callFree⟩
    | inside x sec => apply callFree_inside h hends ht
    | finished i mode o => apply callFree_finished ht
    | _ =>
      rw [ht] at howns
      simp [Phase.owns] at howns

theorem callFree_waiting (h : c.Simulates a) (howned : c.Owned) (hends : Ends a) {x : α}
    {sec : Section program.object} (ht : c.phase t = .waiting x sec)
    : ∃ c', CallFree c c' := by
  have hnone := howned.not_owns (t := t) (by simp [ht, Phase.owns]) sec.index
  cases hmode : sec.mode with
  | shared =>
    cases hlock : program.mutex.lockShared (c.mutex sec.index) t with
    | some m => exact ⟨_, (Step.lockShared ht hmode hlock).callFree⟩
    | none =>
      rcases program.mutex.lockShared_eq_none hnone hlock with ⟨t', k, howns, -⟩
      apply callFree_of_owner h howned hends howns
  | exclusive =>
    cases hlock : program.mutex.lockUpgrade (c.mutex sec.index) t with
    | some m => exact ⟨_, (Step.lockUpgrade ht hmode hlock).callFree⟩
    | none =>
      rcases program.mutex.lockUpgrade_eq_none hnone hlock with ⟨t', k, howns, -⟩
      apply callFree_of_owner h howned hends howns

theorem exists_callFree (h : c.Simulates a) (howned : c.Owned) (hends : Ends a)
    (hidle : c.phase t ≠ .idle) (hfaulted : ∀ x, c.phase t ≠ .faulted x)
    : ∃ c', CallFree c c' := by
  cases hphase : c.phase t with
  | idle => contradiction
  | faulted x => exact absurd hphase (hfaulted x)
  | waiting x sec => apply callFree_waiting h howned hends hphase
  | upgrading x sec => apply callFree_upgrading h howned hends hphase
  | inside x sec => apply callFree_inside h hends hphase
  | finished i mode o => apply callFree_finished hphase
  | leaving i o => exact ⟨_, (Step.unlockUpgrade hphase).callFree⟩
  | returning o => exact ⟨_, some (.ret t o), Step.ret hphase, by simp⟩

end Deadlock

section Termination

theorem CallFree.cases (h : CallFree c c')
    : (∃ t p, c'.phase = Function.update c.phase t p ∧ p.rank < (c.phase t).rank)
      ∨
      ∃ t x sec s l, c.phase t = .inside x sec
        ∧ (program.object sec.index).micro sec.mode sec.locals (c.objects sec.index) = .ok (s, .inl l)
        ∧ c' = (c.write sec.index s).goto t (.inside x { sec with locals := l }) := by
  rcases h with ⟨event, hstep, hevent⟩
  cases hstep with
  | @call t x => exact absurd rfl (hevent t x)
  | @answer t x => exact absurd rfl (hevent t x)
  | @fault t x => exact absurd rfl (hevent t x)
  | micro ht hmicro =>
    apply Or.inr
    exact ⟨_, _, _, _, _, ht, hmicro, rfl⟩
  | lockShared ht => exact .inl ⟨_, _, rfl, by simp [ht, Phase.rank]⟩
  | lockUpgrade ht => exact .inl ⟨_, _, rfl, by simp [ht, Phase.rank]⟩
  | lock ht => exact .inl ⟨_, _, rfl, by simp [ht, Phase.rank]⟩
  | finish ht => exact .inl ⟨_, _, rfl, by simp [ht, Phase.rank]⟩
  | unlockShared ht => exact .inl ⟨_, _, rfl, by simp [ht, Phase.rank]⟩
  | unlock ht => exact .inl ⟨_, _, rfl, by simp [ht, Phase.rank]⟩
  | unlockUpgrade ht => exact .inl ⟨_, _, rfl, by simp [ht, Phase.rank]⟩
  | ret ht => exact .inl ⟨_, _, rfl, by simp [ht, Phase.rank]⟩

theorem Within.micro {f : τ → Nat} (h : c.Within f) (howned : c.Owned) {x : α}
    {sec : Section program.object} {s : (program.object sec.index).State}
    {l : (program.object sec.index).Local sec.mode} (ht : c.phase t = .inside x sec)
    (hmicro : (program.object sec.index).micro sec.mode sec.locals (c.objects sec.index)
      = .ok (s, .inl l))
    : ∃ n, n < f t ∧ ((c.write sec.index s).goto t (.inside x { sec with locals := l })).Within
        (Function.update f t n) := by
  rcases (h t x sec ht).micro hmicro with ⟨n, hn, hends⟩
  refine ⟨n, by omega, ?_⟩
  intro t' x' sec' ht'
  rw [goto_phase, write_phase] at ht'
  rw [goto_objects, write_objects]
  by_cases heq : t' = t
  . rw [heq, Function.update_self] at ht'
    rw [heq, Function.update_self]
    injection ht' with _ hsec
    rw [← hsec, Function.update_self]
    apply hends
  . rw [Function.update_of_ne heq] at ht'
    rw [Function.update_of_ne heq, howned.untouched ht ht' heq hmicro]
    apply h t' x' sec' ht'

variable {objects : ∀ i, (program.object i).State} {priv : τ → π} {I : Shared program → Prop}

theorem Runs.callFree {c0 : System program} {history : List (Event τ α ω)} (h : Runs c0 history c)
    (hcallFree : CallFree c c')
    : ∃ history', Runs c0 history' c' := by
  rcases hcallFree with ⟨event, hstep, -⟩
  exact ⟨_, h.step hstep⟩

theorem Runs.simulates {history : List (Event τ α ω)}
    (h : Runs (System.start objects priv) history c)
    (hI : ∀ {a t x a' o}, I a → Effect a t x a' o → I a')
    (hstart : I { objects := objects, priv := priv })
    : ∃ a, c.Simulates a ∧ c.Owned ∧ I a := by
  rcases h.linearizes with ⟨a, ⟨labels, -, hsequential, -⟩, hsimulates, howned⟩
  exact ⟨a, hsimulates, howned, hsequential.invariant hI hstart⟩

theorem Runs.returns (hI : ∀ {a t x a' o}, I a → Effect a t x a' o → I a')
    (hstart : I { objects := objects, priv := priv }) (hends : ∀ {a}, I a → Ends a)
    {history : List (Event τ α ω)} (h : Runs (System.start objects priv) history c)
    (hstuck : ∀ c', ¬ CallFree c c')
    : ∀ t, c.phase t = .idle ∨ ∃ x, c.phase t = .faulted x := by
  intro t
  apply Classical.byContradiction
  intro hnot
  rw [not_or, not_exists] at hnot
  rcases h.simulates hI hstart with ⟨a, hsimulates, howned, ha⟩
  rcases exists_callFree hsimulates howned (hends ha) hnot.1 hnot.2 with ⟨c', hcallFree⟩
  exact hstuck c' hcallFree

variable [Fintype τ]

theorem sum_update_lt {f : τ → Nat} {n : Nat} (h : n < f t)
    : ∑ u, Function.update f t n u < ∑ u, f u := by
  apply Finset.sum_lt_sum
  . intro u _
    by_cases hu : u = t
    . rw [hu, Function.update_self]
      omega
    . rw [Function.update_of_ne hu]
  . refine ⟨t, Finset.mem_univ t, ?_⟩
    rw [Function.update_self]
    apply h

def rank (c : System program) : Nat :=
  ∑ t, (c.phase t).rank

omit [DecidableEq ι] in
theorem rank_update {p : Phase program} (hphase : c'.phase = Function.update c.phase t p)
    : c'.rank = ∑ u, Function.update (fun u => (c.phase u).rank) t p.rank u := by
  unfold rank
  congr 1
  funext u
  rw [hphase]
  by_cases hu : u = t
  . rw [hu, Function.update_self, Function.update_self]
  . rw [Function.update_of_ne hu, Function.update_of_ne hu]

-- The outer induction is on the rank, which only the steps inside of the sections do not change.
theorem Runs.acc (hI : ∀ {a t x a' o}, I a → Effect a t x a' o → I a')
    (hstart : I { objects := objects, priv := priv }) (hends : ∀ {a}, I a → Ends a)
    {history : List (Event τ α ω)} (h : Runs (System.start objects priv) history c)
    : Acc (fun c' c => CallFree c c') c := by
  generalize hn : c.rank = n
  induction n using Nat.strong_induction_on generalizing c history with
  | _ n ih =>
    rcases h.simulates hI hstart with ⟨a, hsimulates, -, ha⟩
    rcases hsimulates.within (hends ha) with ⟨f, hf⟩
    generalize hm : ∑ t, f t = m
    clear hsimulates
    induction m using Nat.strong_induction_on generalizing c f history with
    | _ m ihm =>
      constructor
      intro c' hcallFree
      rcases h.callFree hcallFree with ⟨history', h'⟩
      rcases hcallFree.cases with ⟨t, p, hphase, hp⟩ | ⟨t, x, sec, s, l, ht, hmicro, hc'⟩
      . apply ih c'.rank _ h' rfl
        rw [← hn, rank_update hphase]
        apply sum_update_lt (f := fun u => (c.phase u).rank) hp
      . rcases h.simulates hI hstart with ⟨-, -, howned, -⟩
        rcases hf.micro howned ht hmicro with ⟨k, hk, hwithin⟩
        rw [← hc'] at hwithin
        apply ihm _ _ h' _ _ hwithin rfl
        . rw [← hm]
          apply sum_update_lt hk
        . have hphase : c'.phase
              = Function.update c.phase t (.inside x { sec with locals := l }) := by
            rw [hc']
            rfl
          have hrank : (Phase.inside x { sec with locals := l }).rank = (c.phase t).rank := by
            rw [ht]
            rfl
          rw [← hn, rank_update hphase, hrank, Function.update_eq_self]
          rfl

end Termination

end System

end Machine
