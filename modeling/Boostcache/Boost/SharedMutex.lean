import Mathlib.Data.Finset.Insert
import Mathlib.Data.Finset.Erase

/-!
The interface of `boost::shared_mutex`: any number of threads own it shared, one of the threads that
read may have reserved the right to become its only owner. A function that returns `none` blocks.
-/

namespace Boost

inductive Ownership where
  | shared
  | upgrade
  | exclusive
  deriving DecidableEq, Repr

-- A thread only locks a mutex that it does not own, and only unlocks what it owns.
structure SharedMutex (τ : Type) where
  State : Type
  unlocked : State
  Owns : State → τ → Ownership → Prop
  lockShared : State → τ → Option State
  unlockShared : State → τ → State
  lockUpgrade : State → τ → Option State
  unlockUpgrade : State → τ → State
  unlockUpgradeAndLock : State → τ → Option State
  unlockAndLockUpgrade : State → τ → State
  exclusive_alone : ∀ {m t t' k}, Owns m t .exclusive → Owns m t' k → t' = t ∧ k = .exclusive
  not_owns_unlocked : ∀ {t k}, ¬ Owns unlocked t k
  owns_lockShared : ∀ {m m' t}, (∀ k, ¬ Owns m t k) → lockShared m t = some m'
    → ∀ t' k, Owns m' t' k ↔ (t' = t ∧ k = .shared) ∨ Owns m t' k
  lockShared_eq_none : ∀ {m t}, (∀ k, ¬ Owns m t k) → lockShared m t = none
    → ∃ t' k, Owns m t' k ∧ k ≠ .shared
  owns_unlockShared : ∀ {m t}, Owns m t .shared
    → ∀ t' k, Owns (unlockShared m t) t' k ↔ ¬ (t' = t ∧ k = .shared) ∧ Owns m t' k
  owns_lockUpgrade : ∀ {m m' t}, (∀ k, ¬ Owns m t k) → lockUpgrade m t = some m'
    → ∀ t' k, Owns m' t' k ↔ (t' = t ∧ k = .upgrade) ∨ Owns m t' k
  lockUpgrade_eq_none : ∀ {m t}, (∀ k, ¬ Owns m t k) → lockUpgrade m t = none
    → ∃ t' k, Owns m t' k ∧ k ≠ .shared
  owns_unlockUpgrade : ∀ {m t}, Owns m t .upgrade
    → ∀ t' k, Owns (unlockUpgrade m t) t' k ↔ ¬ (t' = t ∧ k = .upgrade) ∧ Owns m t' k
  owns_unlockUpgradeAndLock : ∀ {m m' t}, Owns m t .upgrade → unlockUpgradeAndLock m t = some m'
    → ∀ t' k, (Owns m t' k ↔ t' = t ∧ k = .upgrade) ∧ (Owns m' t' k ↔ t' = t ∧ k = .exclusive)
  -- the owner of the upgrade lock waits for threads that read and for nobody else
  unlockUpgradeAndLock_eq_none : ∀ {m t}, Owns m t .upgrade → unlockUpgradeAndLock m t = none
    → ∃ t', Owns m t' .shared
  owns_unlockAndLockUpgrade : ∀ {m t}, Owns m t .exclusive
    → ∀ t' k, Owns (unlockAndLockUpgrade m t) t' k ↔ t' = t ∧ k = .upgrade

structure Owners (τ : Type) where
  owners : Finset (τ × Ownership)
  exclusive_alone : ∀ {t o}, (t, .exclusive) ∈ owners → o ∈ owners → o = (t, .exclusive)
  upgrade_unique : ∀ {t t'}, (t, .upgrade) ∈ owners → (t', .upgrade) ∈ owners → t = t'

namespace Owners

variable {τ : Type} [DecidableEq τ]

def unlocked : Owners τ where
  owners := ∅
  exclusive_alone := by
    intro t o h
    simp at h
  upgrade_unique := by
    intro t t' h
    simp at h

def erase (m : Owners τ) (o : τ × Ownership) : Owners τ where
  owners := m.owners.erase o
  exclusive_alone := by
    intro t o' h h'
    apply m.exclusive_alone (Finset.mem_of_mem_erase h) (Finset.mem_of_mem_erase h')
  upgrade_unique := by
    intro t t' h h'
    apply m.upgrade_unique (Finset.mem_of_mem_erase h) (Finset.mem_of_mem_erase h')

def lockShared (m : Owners τ) (t : τ) : Option (Owners τ) :=
  if h : ∀ o ∈ m.owners, o.2 ≠ .exclusive then
    some
      {
        owners := insert (t, .shared) m.owners
        exclusive_alone := by
          intro t' o hmem
          rw [Finset.mem_insert] at hmem
          rcases hmem with heq | hmem
          . simp at heq
          . exact absurd rfl (h _ hmem)
        upgrade_unique := by
          intro t1 t2 h1 h2
          simp only [Finset.mem_insert, Prod.mk.injEq, reduceCtorEq, and_false, false_or] at h1 h2
          apply m.upgrade_unique h1 h2
      }
  else
    none

def lockUpgrade (m : Owners τ) (t : τ) : Option (Owners τ) :=
  if h : ∀ o ∈ m.owners, o.2 = .shared then
    some
      {
        owners := insert (t, .upgrade) m.owners
        exclusive_alone := by
          intro t' o hmem
          rw [Finset.mem_insert] at hmem
          rcases hmem with heq | hmem
          . simp at heq
          . exact absurd (h _ hmem) (by simp)
        upgrade_unique := by
          intro t1 t2 h1 h2
          have hmem {t' : τ} (hmem : (t', .upgrade) ∈ insert (t, .upgrade) m.owners) : t' = t := by
            rw [Finset.mem_insert] at hmem
            rcases hmem with heq | hmem
            . injection heq
            . exact absurd (h _ hmem) (by simp)
          rw [hmem h1, hmem h2]
      }
  else
    none

def only (o : τ × Ownership) : Owners τ where
  owners := {o}
  exclusive_alone := by
    intro t o' h h'
    rw [Finset.mem_singleton] at h h'
    rw [h, h']
  upgrade_unique := by
    intro t t' h h'
    rw [Finset.mem_singleton] at h h'
    rw [← h] at h'
    injection h' with h'
    apply h'.symm

def unlockUpgradeAndLock (m : Owners τ) (t : τ) : Option (Owners τ) :=
  if m.owners = {(t, .upgrade)} then some (only (t, .exclusive)) else none

variable {m m' : Owners τ} {t : τ} {o : τ × Ownership}

theorem mem_lockShared (h : m.lockShared t = some m')
    : o ∈ m'.owners ↔ o = (t, .shared) ∨ o ∈ m.owners := by
  unfold lockShared at h
  split at h
  . injection h with h
    rw [← h]
    apply Finset.mem_insert
  . contradiction

theorem lockShared_eq_none (h : m.lockShared t = none) : ∃ t', (t', .exclusive) ∈ m.owners := by
  unfold lockShared at h
  split at h
  . contradiction
  . next hnot =>
    simp only [not_forall, not_not] at hnot
    rcases hnot with ⟨⟨t', k⟩, hmem, rfl⟩
    exact ⟨t', hmem⟩

theorem mem_lockUpgrade (h : m.lockUpgrade t = some m')
    : o ∈ m'.owners ↔ o = (t, .upgrade) ∨ o ∈ m.owners := by
  unfold lockUpgrade at h
  split at h
  . injection h with h
    rw [← h]
    apply Finset.mem_insert
  . contradiction

theorem lockUpgrade_eq_none (h : m.lockUpgrade t = none)
    : ∃ t' k, (t', k) ∈ m.owners ∧ k ≠ .shared := by
  unfold lockUpgrade at h
  split at h
  . contradiction
  . next hnot =>
    simp only [not_forall] at hnot
    rcases hnot with ⟨⟨t', k⟩, hmem, hk⟩
    exact ⟨t', k, hmem, hk⟩

theorem mem_unlockUpgradeAndLock (h : m.unlockUpgradeAndLock t = some m')
    : m.owners = {(t, .upgrade)} ∧ (o ∈ m'.owners ↔ o = (t, .exclusive)) := by
  unfold unlockUpgradeAndLock at h
  split at h
  . next howners =>
    injection h with h
    rw [← h]
    exact ⟨howners, Finset.mem_singleton⟩
  . contradiction

theorem unlockUpgradeAndLock_eq_none (ht : (t, .upgrade) ∈ m.owners)
    (h : m.unlockUpgradeAndLock t = none)
    : ∃ t', (t', .shared) ∈ m.owners := by
  apply Classical.byContradiction
  intro hnot
  simp only [not_exists] at hnot
  have howners : m.owners = {(t, .upgrade)} := by
    rw [Finset.eq_singleton_iff_unique_mem]
    refine ⟨ht, ?_⟩
    intro o ho
    rcases o with ⟨t', k⟩
    cases k with
    | shared => exact absurd ho (hnot t')
    | upgrade => rw [m.upgrade_unique ho ht]
    | exclusive => exact absurd (m.exclusive_alone ho ht) (by simp)
  unfold unlockUpgradeAndLock at h
  rw [if_pos howners] at h
  contradiction

end Owners

-- A mutex that knows who owns it and blocks no thread that need not wait.
def ownersMutex (τ : Type) [DecidableEq τ] : SharedMutex τ where
  State := Owners τ
  unlocked := Owners.unlocked
  Owns m t k := (t, k) ∈ m.owners
  lockShared := Owners.lockShared
  unlockShared m t := m.erase (t, .shared)
  lockUpgrade := Owners.lockUpgrade
  unlockUpgrade m t := m.erase (t, .upgrade)
  unlockUpgradeAndLock := Owners.unlockUpgradeAndLock
  unlockAndLockUpgrade _ t := Owners.only (t, .upgrade)
  exclusive_alone := by
    intro m t t' k ht ht'
    have heq := m.exclusive_alone ht ht'
    injection heq with ht hk
    exact ⟨ht, hk⟩
  not_owns_unlocked := by
    intro t k
    simp [Owners.unlocked]
  owns_lockShared := by
    intro m m' t _ h t' k
    rw [Owners.mem_lockShared h, Prod.mk.injEq]
  lockShared_eq_none := by
    intro m t _ h
    rcases Owners.lockShared_eq_none h with ⟨t', hmem⟩
    exact ⟨t', _, hmem, by simp⟩
  owns_unlockShared := by
    intro m t _ t' k
    simp [Owners.erase]
  owns_lockUpgrade := by
    intro m m' t _ h t' k
    rw [Owners.mem_lockUpgrade h, Prod.mk.injEq]
  lockUpgrade_eq_none := by
    intro m t _ h
    apply Owners.lockUpgrade_eq_none h
  owns_unlockUpgrade := by
    intro m t _ t' k
    simp [Owners.erase]
  owns_unlockUpgradeAndLock := by
    intro m m' t _ h t' k
    rcases Owners.mem_unlockUpgradeAndLock (o := (t', k)) h with ⟨howners, hmem⟩
    rw [howners, Finset.mem_singleton, hmem, Prod.mk.injEq, Prod.mk.injEq]
    exact ⟨Iff.rfl, Iff.rfl⟩
  unlockUpgradeAndLock_eq_none := by
    intro m t ht h
    apply Owners.unlockUpgradeAndLock_eq_none ht h
  owns_unlockAndLockUpgrade := by
    intro m t _ t' k
    simp [Owners.only]

end Boost
