import Boostcache.Cpp.Memory
import Mathlib.Data.Int.CardIntervalMod

/-!
This module contains the `IoServicePool` of `kernel/net/ioservicepool.{h,cpp}`, which deals out its
services in turn. A service is told apart by its position in `m_ioServices`, this is also the worker
that runs it.
-/

open Cpp

structure IoServicePool where
  size : Nat
  next : Nat
  deriving DecidableEq, Repr

namespace IoServicePool

def create (size : Nat) : IoServicePool :=
  { size := size, next := 0 }

def ioService (pool : IoServicePool) : Except Fault (IoServicePool × Nat) :=
  if pool.next < pool.size then
    let next := pool.next + 1
    let next := if next = pool.size then 0 else next
    .ok ({ pool with next := next }, pool.next)
  else
    .error .outOfRange

structure Dealt (size calls : Nat) (pool : IoServicePool) : Prop where
  size_eq : pool.size = size
  next_eq : pool.next = calls % size

theorem dealt_create (size : Nat) : Dealt size 0 (create size) where
  size_eq := rfl
  next_eq := by simp [create]

theorem succ_mod {size calls : Nat} (hsize : 0 < size)
    : (calls + 1) % size = if calls % size + 1 = size then 0 else calls % size + 1 := by
  have hlt := Nat.mod_lt calls hsize
  rw [← Nat.mod_add_mod]
  split
  . next heq => rw [heq, Nat.mod_self]
  . rw [Nat.mod_eq_of_lt]
    omega

theorem Dealt.ioService {size calls : Nat} {pool : IoServicePool} (hsize : 0 < size)
    (h : Dealt size calls pool)
    : ∃ pool', pool.ioService = .ok (pool', calls % size) ∧ Dealt size (calls + 1) pool' := by
  have hlt := Nat.mod_lt calls hsize
  unfold IoServicePool.ioService
  rw [h.size_eq, h.next_eq, if_pos hlt]
  refine ⟨_, rfl, rfl, ?_⟩
  rw [succ_mod hsize]

theorem exists_modEq {size service : Nat} (hservice : service < size) (first : Nat)
    : ∃ v, ∀ k, (k + first) % size = service ↔ k ≡ v [MOD size] := by
  have hle : first ≤ size * first := Nat.le_mul_of_pos_left first (by omega)
  refine ⟨service + (size * first - first), ?_⟩
  have hv : service + (size * first - first) + first ≡ service [MOD size] := by
    rw [Nat.add_assoc, Nat.sub_add_cancel hle]
    apply Nat.add_mul_mod_self_left
  intro k
  constructor
  . intro h
    apply Nat.ModEq.add_right_cancel' first
    apply Nat.ModEq.trans _ hv.symm
    rw [← h]
    exact (Nat.mod_modEq (k + first) size).symm
  . intro h
    have heq := (h.add_right first).trans hv
    unfold Nat.ModEq at heq
    rw [heq, Nat.mod_eq_of_lt hservice]

-- How often each service is dealt out by the calls `first`, `first + 1`, ...
theorem count_dealt {size service : Nat} (hservice : service < size) (first calls : Nat)
    : calls / size ≤ ((List.range calls).map (fun k => (k + first) % size)).count service
      ∧ ((List.range calls).map (fun k => (k + first) % size)).count service ≤ calls / size + 1 := by
  rcases exists_modEq hservice first with ⟨v, hv⟩
  have hcount : ((List.range calls).map (fun k => (k + first) % size)).count service
      = calls.count (· ≡ v [MOD size]) := by
    rw [List.count, List.countP_map, Nat.count]
    apply List.countP_congr
    intro k _
    simp [hv]
  rw [hcount, Nat.count_modEq_card calls (by omega)]
  split
  . omega
  . omega

end IoServicePool
