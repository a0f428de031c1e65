import Boostcache.Machine.Locked

/-!
What holds of all runs of threads that work on locked objects: the mutexes are owned by the threads
that are in the sections, the history is linearizable, and there is always a thread that can go on.
-/

open Boost

namespace Machine

variable {τ ι π α β ω ε : Type} {program : Program τ ι π α β ω ε}

namespace System

section Owned

def Owns (c : System program) (i : ι) (t : τ) (k : Ownership) : Prop :=
  program.mutex.Owns (c.mutex i) t k

def Owned (c : System program) : Prop :=
  ∀ i t k, c.Owns i t k ↔ (c.phase t).owns = some (i, k)

variable {c c' : System program} {t t' : τ}

theorem owned_start (objects : ∀ i, (program.object i).State) (priv : τ → π)
    : (start objects priv).Owned := by
  intro i t k
  simp [Owns, start, program.mutex.not_owns_unlocked, Phase.owns]

theorem Owned.not_owns (h : c.Owned) (ht : (c.phase t).owns = none) (i : ι) (k : Ownership)
    : ¬ c.Owns i t k := by
  rw [h, ht]
  simp

theorem Owned.exclusion (h : c.Owned) (hne : t' ≠ t) {x x' : α} {sec sec' : Section program.object}
    (ht : c.phase t = .inside x sec) (ht' : c.phase t' = .inside x' sec')
    (hindex : sec'.index = sec.index)
    : sec.mode = .shared ∧ sec'.mode = .shared := by
  have howns : c.Owns sec.index t sec.mode.ownership := by
    rw [h, ht]
    rfl
  have howns' : c.Owns sec.index t' sec'.mode.ownership := by
    rw [h, ht', ← hindex]
    rfl
  constructor
  . cases hmode : sec.mode with
    | shared => rfl
    | exclusive =>
      rw [hmode] at howns
      exact absurd (program.mutex.exclusive_alone howns howns').1 hne
  . cases hmode : sec'.mode with
    | shared => rfl
    | exclusive =>
      rw [hmode] at howns'
      exact absurd (program.mutex.exclusive_alone howns' howns).1.symm hne

theorem Owned.goto [DecidableEq τ] (h : c.Owned) {p : Phase program} (hp : p.owns = (c.phase t).owns)
    : (c.goto t p).Owned := by
  intro i t' k
  unfold Owns
  rw [goto_phase, goto_mutex]
  by_cases ht : t' = t
  . rw [ht, Function.update_self, hp]
    apply h
  . rw [Function.update_of_ne ht]
    apply h

variable [DecidableEq τ] [DecidableEq ι]

theorem Owned.own (h : c.Owned) {j : ι} {m : program.mutex.State} {p : Phase program}
    (hother : ∀ t' k, t' ≠ t → (program.mutex.Owns m t' k ↔ c.Owns j t' k))
    (hself : ∀ k, program.mutex.Owns m t k ↔ p.owns = some (j, k))
    (hbefore : ∀ i k, (c.phase t).owns = some (i, k) → i = j)
    (hafter : ∀ i k, p.owns = some (i, k) → i = j)
    : ((c.own j m).goto t p).Owned := by
  intro i t' k
  unfold Owns
  rw [goto_phase, goto_mutex, own_phase, own_mutex]
  by_cases hi : i = j
  . rw [hi, Function.update_self]
    by_cases ht : t' = t
    . rw [ht, Function.update_self]
      apply hself
    . rw [Function.update_of_ne ht, hother t' k ht]
      apply h
  . rw [Function.update_of_ne hi]
    by_cases ht : t' = t
    . rw [ht, Function.update_self]
      constructor
      . intro howns
        exact absurd (hbefore i k ((h i t k).mp howns)) hi
      . intro howns
        exact absurd (hafter i k howns) hi
    . rw [Function.update_of_ne ht]
      apply h

theorem Owned.acquire (h : c.Owned) (ht : (c.phase t).owns = none) {j : ι} {k : Ownership}
    {m : program.mutex.State} {p : Phase program} (hp : p.owns = some (j, k))
    (howns : ∀ t' k', program.mutex.Owns m t' k' ↔ (t' = t ∧ k' = k) ∨ c.Owns j t' k')
    : ((c.own j m).goto t p).Owned := by
  apply h.own
  . intro t' k' hne
    rw [howns]
    simp [hne]
  . intro k'
    rw [howns, hp]
    simp [h.not_owns ht, eq_comm]
  . simp [ht]
  . simp +contextual [hp]

theorem Owned.release (h : c.Owned) {j : ι} {k : Ownership} (ht : (c.phase t).owns = some (j, k))
    {m : program.mutex.State} {p : Phase program} (hp : p.owns = none)
    (howns : ∀ t' k', program.mutex.Owns m t' k' ↔ ¬ (t' = t ∧ k' = k) ∧ c.Owns j t' k')
    : ((c.own j m).goto t p).Owned := by
  apply h.own
  . intro t' k' hne
    rw [howns]
    simp [hne]
  . intro k'
    rw [howns, h, ht, hp]
    simp [eq_comm]
  . simp +contextual [ht]
  . simp [hp]

theorem Owned.step {event : Option (Event τ α ω)} (h : c.Owned) (hstep : Step c event c')
    : c'.Owned := by
  cases hstep with
  | call ht _ _ =>
    apply Owned.goto (c := c.keep _ _) h
    simp [ht, Phase.owns]
  | answer ht _ _ =>
    apply Owned.goto (c := c.keep _ _) h
    simp [ht, Phase.owns]
  | fault ht _ _ =>
    apply h.goto
    simp [ht, Phase.owns]
  | @lockShared t x sec m ht hmode hlock =>
    have hnone : (c.phase t).owns = none := by simp [ht, Phase.owns]
    apply h.acquire hnone (k := .shared)
    . simp [Phase.owns, hmode, Mode.ownership]
    . apply program.mutex.owns_lockShared (h.not_owns hnone sec.index) hlock
  | @lockUpgrade t x sec m ht hmode hlock =>
    have hnone : (c.phase t).owns = none := by simp [ht, Phase.owns]
    apply h.acquire hnone (k := .upgrade)
    . rfl
    . apply program.mutex.owns_lockUpgrade (h.not_owns hnone sec.index) hlock
  | @lock t x sec hmode m ht hlock =>
    have hupgrade : c.Owns sec.index t .upgrade := by
      rw [h, ht]
      rfl
    have howns := program.mutex.owns_unlockUpgradeAndLock hupgrade hlock
    apply h.own
    . intro t' k ht'
      unfold Owns
      rw [(howns t' k).1, (howns t' k).2]
      simp [ht']
    . intro k
      rw [(howns t k).2]
      simp [Phase.owns, hmode, Mode.ownership, eq_comm]
    . simp +contextual [ht, Phase.owns]
    . simp +contextual [Phase.owns]
  | @micro t x sec s l ht _ =>
    apply Owned.goto (c := c.write sec.index s) h
    simp [ht, Phase.owns]
  | @finish t x sec s b ht _ =>
    apply Owned.goto (c := c.write sec.index s) h
    simp [ht, Phase.owns]
  | @unlockShared t i o ht =>
    have hshared : (c.phase t).owns = some (i, .shared) := by
      rw [ht]
      rfl
    apply h.release hshared
    . rfl
    . apply program.mutex.owns_unlockShared ((h i t .shared).mpr hshared)
  | @unlock t i o ht =>
    have hexclusive : c.Owns i t .exclusive := by
      rw [h, ht]
      rfl
    have howns := program.mutex.owns_unlockAndLockUpgrade hexclusive
    apply h.own
    . intro t' k ht'
      rw [howns]
      simp only [ht', false_and, false_iff]
      intro hother
      apply ht' (program.mutex.exclusive_alone hexclusive hother).1
    . intro k
      rw [howns]
      simp [Phase.owns, eq_comm]
    . simp +contextual [ht, Phase.owns]
    . simp +contextual [Phase.owns]
  | @unlockUpgrade t i o ht =>
    have hupgrade : (c.phase t).owns = some (i, .upgrade) := by
      rw [ht]
      rfl
    apply h.release hupgrade
    . rfl
    . apply program.mutex.owns_unlockUpgrade ((h i t .upgrade).mpr hupgrade)
  | ret ht =>
    apply h.goto
    simp [ht, Phase.owns]

end Owned

end System

-- What is left of the system if every operation takes effect at once.
structure Shared (program : Program τ ι π α β ω ε) where
  objects : ∀ i, (program.object i).State
  priv : τ → π

variable [DecidableEq τ] [DecidableEq ι] in
inductive Effect (a : Shared program) (t : τ) (x : α) : Shared program → ω → Prop
  | answer {p : π} {o : ω}
      : program.serves t x
          →
        program.enter (a.priv t) x = .ok (p, .inl o)
          →
        Effect a t x { a with priv := Function.update a.priv t p } o
  | exec {p : π} {sec : Section program.object} {s : (program.object sec.index).State} {b : β}
      : program.serves t x
          →
        program.enter (a.priv t) x = .ok (p, .inr sec)
          →
        (program.object sec.index).Exec sec.mode sec.locals (a.objects sec.index) s b
          →
        Effect a t x
          {
            objects := Function.update a.objects sec.index s
            priv := Function.update a.priv t p
          }
          (program.answer b)

namespace System

section Simulation

def Quiet (c : System program) (i : ι) : Prop :=
  ∀ t x sec, c.phase t = .inside x sec → sec.index = i → sec.mode = .shared

-- Up to the moment at which its operation takes effect a thread has only prepared this.
def Prepares (c : System program) (a : Shared program) (t : τ) : Phase program → Prop
  | .faulted x =>
    program.serves t x ∧ c.priv t = a.priv t ∧ ∃ e, program.enter (a.priv t) x = .error e
  | .waiting x sec =>
    program.serves t x ∧ program.enter (a.priv t) x = .ok (c.priv t, .inr sec)
  | .upgrading x sec _ =>
    program.serves t x ∧ program.enter (a.priv t) x = .ok (c.priv t, .inr sec)
  | .inside x sec =>
    ∃ l, program.serves t x
      ∧ program.enter (a.priv t) x = .ok (c.priv t, .inr { sec with locals := l })
      ∧ (program.object sec.index).Micros sec.mode l (a.objects sec.index) sec.locals
          (c.objects sec.index)
  | _ => c.priv t = a.priv t

structure Simulates (c : System program) (a : Shared program) : Prop where
  objects : ∀ {i}, c.Quiet i → c.objects i = a.objects i
  threads : ∀ t, c.Prepares a t (c.phase t)

variable {c c' : System program} {a a' : Shared program} {t t' : τ}

theorem simulates_start (objects : ∀ i, (program.object i).State) (priv : τ → π)
    : (start objects priv).Simulates { objects := objects, priv := priv } where
  objects _ := rfl
  threads _ := rfl

theorem Simulates.faulted (h : c.Simulates a) {x : α} (ht : c.phase t = .faulted x)
    : program.serves t x ∧ ∃ e, program.enter (a.priv t) x = .error e := by
  have hprepares := h.threads t
  rw [ht] at hprepares
  exact ⟨hprepares.1, hprepares.2.2⟩

theorem quiet_of_owners {i : ι} (h : c.Owned) (hnot : ∀ t, ¬ c.Owns i t .exclusive)
    : c.Quiet i := by
  intro t x sec hphase hindex
  cases hmode : sec.mode with
  | shared => rfl
  | exclusive =>
    exfalso
    apply hnot t
    rw [h, hphase, ← hindex]
    simp [Phase.owns, hmode, Mode.ownership]

theorem Prepares.frame {p : Phase program} (h : c.Prepares a t p) (hc : c'.priv t = c.priv t)
    (ha : a'.priv t = a.priv t)
    (hinside : ∀ x sec, p = .inside x sec →
      c'.objects sec.index = c.objects sec.index ∧ a'.objects sec.index = a.objects sec.index)
    : c'.Prepares a' t p := by
  cases p with
  | inside x sec =>
    rcases hinside x sec rfl with ⟨hcobject, haobject⟩
    simp only [Prepares] at h ⊢
    rw [hc, ha, hcobject, haobject]
    apply h
  | _ =>
    simp only [Prepares] at h ⊢
    rw [hc, ha]
    apply h

variable [DecidableEq τ]

theorem Quiet.of_goto {i : ι} {p : Phase program} (h : (c.goto t p).Quiet i)
    (ht : ∀ x sec, c.phase t = .inside x sec → sec.index = i → sec.mode = .shared)
    : c.Quiet i := by
  intro t' x sec hphase hindex
  by_cases heq : t' = t
  . rw [heq] at hphase
    apply ht x sec hphase hindex
  . apply h t' x sec _ hindex
    simp [heq, hphase]

theorem Simulates.update {p : Phase program} (h : c.Simulates a)
    (hphase : c'.phase = Function.update c.phase t p)
    (hc : ∀ t', t' ≠ t → c'.priv t' = c.priv t') (ha : ∀ t', t' ≠ t → a'.priv t' = a.priv t')
    (hinside : ∀ t' x sec, t' ≠ t → c.phase t' = .inside x sec →
      c'.objects sec.index = c.objects sec.index ∧ a'.objects sec.index = a.objects sec.index)
    (ht : c'.Prepares a' t p) (hobjects : ∀ {i}, c'.Quiet i → c'.objects i = a'.objects i)
    : c'.Simulates a' where
  objects := hobjects
  threads := by
    intro t'
    rw [hphase]
    by_cases heq : t' = t
    . rw [heq, Function.update_self]
      apply ht
    . rw [Function.update_of_ne heq]
      apply (h.threads t').frame (hc t' heq) (ha t' heq)
      intro x sec hphase'
      apply hinside t' x sec heq hphase'

theorem Simulates.goto {p : Phase program} (h : c.Simulates a)
    (ht : ∀ x sec, c.phase t ≠ .inside x sec) (hp : c.Prepares a t p)
    : (c.goto t p).Simulates a := by
  refine h.update (t := t) rfl (fun _ _ => rfl) (fun _ _ => rfl) (fun _ _ _ _ _ => ⟨rfl, rfl⟩) hp ?_
  intro i hquiet
  apply h.objects
  apply hquiet.of_goto
  intro x sec hphase
  exact absurd hphase (ht x sec)

theorem Simulates.keep {p : π} {q : Phase program} (h : c.Simulates a)
    (ht : ∀ x sec, c.phase t ≠ .inside x sec) (ha : ∀ t', t' ≠ t → a'.priv t' = a.priv t')
    (hobjects : a'.objects = a.objects) (hq : (c.keep t p).Prepares a' t q)
    : ((c.keep t p).goto t q).Simulates a' := by
  refine h.update (t := t) rfl ?_ ha ?_ hq ?_
  . intro t' hne
    exact Function.update_of_ne hne p c.priv
  . intro t' x sec _ _
    rw [hobjects]
    exact ⟨rfl, rfl⟩
  . intro i hquiet
    rw [hobjects]
    apply h.objects
    apply Quiet.of_goto (c := c.keep t p) hquiet
    intro x sec hphase
    exact absurd hphase (ht x sec)

theorem Simulates.enter (h : c.Simulates a) {x : α} {sec : Section program.object}
    (hquiet : c.Quiet sec.index) (ht : ∀ x sec, c.phase t ≠ .inside x sec)
    (hx : program.serves t x) (henter : program.enter (a.priv t) x = .ok (c.priv t, .inr sec))
    : (c.goto t (.inside x sec)).Simulates a := by
  apply h.goto ht
  refine ⟨sec.locals, hx, henter, ?_⟩
  rw [h.objects hquiet]
  apply Object.Micros.start

variable [DecidableEq ι]

omit [DecidableEq τ] in
theorem Simulates.own (h : c.Simulates a) (i : ι) (m : program.mutex.State)
    : (c.own i m).Simulates a where
  objects := h.objects
  threads := h.threads

-- A thread in another section of the object reads, and so does the one that makes the step.
omit [DecidableEq τ] in
theorem Owned.untouched (h : c.Owned) {x x' : α} {sec sec' : Section program.object}
    (ht : c.phase t = .inside x sec) (ht' : c.phase t' = .inside x' sec') (hne : t' ≠ t)
    {s : (program.object sec.index).State} {r : (program.object sec.index).Local sec.mode ⊕ β}
    (hmicro : (program.object sec.index).micro sec.mode sec.locals (c.objects sec.index)
      = .ok (s, r))
    : Function.update c.objects sec.index s sec'.index = c.objects sec'.index := by
  by_cases hindex : sec'.index = sec.index
  . have hmode := (h.exclusion hne ht ht' hindex).1
    rw [Object.state_eq_of_micro hmode hmicro, Function.update_eq_self]
  . rw [Function.update_of_ne hindex]

theorem Simulates.micro (h : c.Simulates a) (howned : c.Owned) {x : α}
    {sec : Section program.object} {s : (program.object sec.index).State}
    {l : (program.object sec.index).Local sec.mode} (ht : c.phase t = .inside x sec)
    (hmicro : (program.object sec.index).micro sec.mode sec.locals (c.objects sec.index)
      = .ok (s, .inl l))
    : ((c.write sec.index s).goto t (.inside x { sec with locals := l })).Simulates a := by
  refine h.update (t := t) rfl (fun _ _ => rfl) (fun _ _ => rfl) ?_ ?_ ?_
  . intro t' x' sec' hne ht'
    refine ⟨?_, rfl⟩
    apply howned.untouched ht ht' hne hmicro
  . have hprepares := h.threads t
    rw [ht] at hprepares
    rcases hprepares with ⟨l0, hx, henter, hmicros⟩
    refine ⟨l0, hx, henter, ?_⟩
    rw [goto_objects, write_objects, Function.update_self]
    apply hmicros.micro hmicro
  . intro i hquiet
    have hmode : sec.index = i → sec.mode = .shared := by
      intro hindex
      apply hquiet t x { sec with locals := l } _ hindex
      simp
    have hquiet : c.Quiet i := by
      apply Quiet.of_goto (c := c.write sec.index s) hquiet
      intro x' sec' hphase hindex
      rw [write_phase, ht] at hphase
      injection hphase with _ hsec
      rw [← hsec] at hindex ⊢
      apply hmode hindex
    rw [← h.objects hquiet, goto_objects, write_objects]
    by_cases hindex : sec.index = i
    . rw [Object.state_eq_of_micro (hmode hindex) hmicro, Function.update_eq_self]
    . rw [Function.update_of_ne (Ne.symm hindex)]

theorem Simulates.finish (h : c.Simulates a) (howned : c.Owned) {x : α}
    {sec : Section program.object} {s : (program.object sec.index).State} {b : β}
    (ht : c.phase t = .inside x sec)
    (hmicro : (program.object sec.index).micro sec.mode sec.locals (c.objects sec.index)
      = .ok (s, .inr b))
    : ∃ a', Effect a t x a' (program.answer b)
        ∧ ((c.write sec.index s).goto t
            (.finished sec.index sec.mode (program.answer b))).Simulates a' := by
  have hprepares := h.threads t
  rw [ht] at hprepares
  rcases hprepares with ⟨l0, hx, henter, hmicros⟩
  refine ⟨_, .exec hx henter (hmicros.exec (.done hmicro)), ?_⟩
  refine h.update (t := t) rfl (fun _ _ => rfl) ?_ ?_ ?_ ?_
  . intro t' hne
    dsimp only
    rw [Function.update_of_ne hne]
  . intro t' x' sec' hne ht'
    refine ⟨howned.untouched ht ht' hne hmicro, ?_⟩
    dsimp only
    by_cases hindex : sec'.index = sec.index
    . have hmode := (howned.exclusion hne ht ht' hindex).1
      rw [Object.state_eq_of_micro hmode hmicro, hmicros.state_eq hmode, Function.update_eq_self]
    . rw [Function.update_of_ne hindex]
  . simp only [Prepares]
    rw [Function.update_self]
    rfl
  . intro i hquiet
    rw [goto_objects, write_objects]
    dsimp only
    by_cases hindex : i = sec.index
    . subst hindex
      rw [Function.update_self, Function.update_self]
    . rw [Function.update_of_ne hindex, Function.update_of_ne hindex]
      apply h.objects
      apply Quiet.of_goto (c := c.write sec.index s) hquiet
      intro x' sec' hphase hindex'
      rw [write_phase, ht] at hphase
      injection hphase with _ hsec
      rw [hsec, hindex'] at hindex
      contradiction

end Simulation

section Linearizable

def progress (c : System program) (t : τ) : Progress α ω :=
  (c.phase t).progress

variable [DecidableEq τ] {c c' : System program} {a a0 : Shared program} {t : τ}

theorem progress_goto (p : Phase program)
    : (c.goto t p).progress = Function.update c.progress t p.progress := by
  funext t'
  unfold progress
  rw [goto_phase]
  by_cases h : t' = t
  . rw [h, Function.update_self, Function.update_self]
  . rw [Function.update_of_ne h, Function.update_of_ne h]

theorem progress_goto_of_eq {p : Phase program} (h : p.progress = (c.phase t).progress)
    : (c.goto t p).progress = c.progress := by
  rw [progress_goto, h]
  apply Function.update_eq_self

variable [DecidableEq ι]

-- An operation takes effect with the last step of its section, or with its call if it has none.
theorem Simulates.step {event : Option (Event τ α ω)} {history : List (Event τ α ω)}
    (h : c.Simulates a) (howned : c.Owned) (hstep : Step c event c')
    (hlin : Linearizes Effect a0 history a c.progress)
    : ∃ a', Linearizes Effect a0 (history ++ event.toList) a' c'.progress ∧ c'.Simulates a' := by
  have hlin_of_eq {c1 : System program} (hprogress : c1.progress = c.progress)
      : Linearizes Effect a0 (history ++ (none : Option (Event τ α ω)).toList) a c1.progress := by
    rw [hprogress, Option.toList_none, List.append_nil]
    apply hlin
  cases hstep with
  | @call t x p sec ht hx henter =>
    have hpriv := h.threads t
    rw [ht] at hpriv
    refine ⟨a, ?_, ?_⟩
    . rw [progress_goto]
      apply hlin.call
      simp [progress, ht, Phase.progress]
    . apply h.keep (by simp [ht]) (fun _ _ => rfl) rfl
      refine ⟨hx, ?_⟩
      rw [← hpriv, henter]
      simp
  | @answer t x p o ht hx henter =>
    have hpriv := h.threads t
    rw [ht] at hpriv
    have hidle : c.progress t = .idle := by
      simp [progress, ht, Phase.progress]
    have hcall := hlin.call hidle x
    rw [show c.priv t = a.priv t from hpriv] at henter
    refine ⟨{ a with priv := Function.update a.priv t p }, ?_, ?_⟩
    . have heffect := hcall.effect (Function.update_self t _ _) (.answer hx henter)
      rw [Function.update_idem] at heffect
      rw [progress_goto]
      apply heffect
    . refine h.keep (by simp [ht]) ?_ rfl (by simp [Prepares])
      intro t' hne
      exact Function.update_of_ne hne p a.priv
  | @fault t x e ht hx henter =>
    have hpriv := h.threads t
    rw [ht] at hpriv
    refine ⟨a, ?_, ?_⟩
    . rw [progress_goto]
      apply hlin.call
      simp [progress, ht, Phase.progress]
    . apply h.goto (by simp [ht])
      refine ⟨hx, hpriv, e, ?_⟩
      rw [← hpriv, henter]
  | @lockShared t x sec m ht hmode hlock =>
    have hprepares := h.threads t
    rw [ht] at hprepares
    refine ⟨a, hlin_of_eq (progress_goto_of_eq (by simp [ht, Phase.progress])), ?_⟩
    apply (h.own sec.index m).enter _ (by simp [ht]) hprepares.1 hprepares.2
    apply quiet_of_owners (c := c) howned
    intro t' hexclusive
    have hnone := howned.not_owns (t := t) (by simp [ht, Phase.owns]) sec.index
    have howns := program.mutex.owns_lockShared hnone hlock
    have hshared := program.mutex.exclusive_alone ((howns t' _).mpr (.inr hexclusive))
      ((howns t _).mpr (.inl ⟨rfl, rfl⟩))
    exact absurd hshared.2 (by simp)
  | @lockUpgrade t x sec m ht hmode hlock =>
    have hprepares := h.threads t
    rw [ht] at hprepares
    refine ⟨a, hlin_of_eq (progress_goto_of_eq (by simp [ht, Phase.progress])), ?_⟩
    apply (h.own sec.index m).goto (by simp [ht])
    apply hprepares
  | @lock t x sec hmode m ht hlock =>
    have hprepares := h.threads t
    rw [ht] at hprepares
    refine ⟨a, hlin_of_eq (progress_goto_of_eq (by simp [ht, Phase.progress])), ?_⟩
    apply (h.own sec.index m).enter _ (by simp [ht]) hprepares.1 hprepares.2
    apply quiet_of_owners (c := c) howned
    intro t' hexclusive
    have hupgrade : c.Owns sec.index t .upgrade := by
      rw [howned, ht]
      rfl
    have howns := ((program.mutex.owns_unlockUpgradeAndLock hupgrade hlock t' .exclusive).1.mp
      hexclusive).2
    exact absurd howns (by simp)
  | micro ht hmicro =>
    refine ⟨a, hlin_of_eq (progress_goto_of_eq (by simp [ht, Phase.progress])), ?_⟩
    apply h.micro howned ht hmicro
  | @finish t x sec s b ht hmicro =>
    rcases h.finish howned ht hmicro with ⟨a', heffect, hsimulates⟩
    refine ⟨a', ?_, hsimulates⟩
    rw [progress_goto, Option.toList_none, List.append_nil]
    apply hlin.effect _ heffect
    simp [progress, ht, Phase.progress]
  | @unlockShared t i o ht =>
    have hprepares := h.threads t
    rw [ht] at hprepares
    refine ⟨a, hlin_of_eq (progress_goto_of_eq (by simp [ht, Phase.progress])), ?_⟩
    apply (h.own i _).goto (by simp [ht])
    exact hprepares
  | @unlock t i o ht =>
    have hprepares := h.threads t
    rw [ht] at hprepares
    refine ⟨a, hlin_of_eq (progress_goto_of_eq (by simp [ht, Phase.progress])), ?_⟩
    apply (h.own i _).goto (by simp [ht])
    exact hprepares
  | @unlockUpgrade t i o ht =>
    have hprepares := h.threads t
    rw [ht] at hprepares
    refine ⟨a, hlin_of_eq (progress_goto_of_eq (by simp [ht, Phase.progress])), ?_⟩
    apply (h.own i _).goto (by simp [ht])
    exact hprepares
  | @ret t o ht =>
    have hprepares := h.threads t
    rw [ht] at hprepares
    refine ⟨a, ?_, h.goto (by simp [ht]) hprepares⟩
    rw [progress_goto]
    apply hlin.ret
    simp [progress, ht, Phase.progress]

theorem Runs.linearizes {objects : ∀ i, (program.object i).State} {priv : τ → π}
    {history : List (Event τ α ω)} (h : Runs (System.start objects priv) history c)
    : ∃ a, Linearizes Effect { objects := objects, priv := priv } history a c.progress
        ∧ c.Simulates a ∧ c.Owned := by
  induction h with
  | start => exact ⟨_, .start, simulates_start objects priv, owned_start objects priv⟩
  | step _ hstep ih =>
    rcases ih with ⟨a, hlin, hsimulates, howned⟩
    rcases hsimulates.step howned hstep hlin with ⟨a', hlin', hsimulates'⟩
    exact ⟨a', hlin', hsimulates', howned.step hstep⟩

end Linearizable

end System

end Machine
