import Mathlib.Data.List.Basic
import Mathlib.Data.List.Forall2

/-!
This module contains machines that take one input after the other, answer each of them and may run
into undefined behaviour, together with the rules for their runs: how runs compose, invariants,
simulations and machines that resume an input which arrives in pieces.
-/

namespace Machine

variable {σ τ α β ε : Type}

structure Run (σ β ε : Type) where
  outputs : List β
  final : Except ε σ
  deriving DecidableEq, Repr

-- Nothing is known about what happens behind a fault, so the run ends there.
def run (step : σ → α → Except ε (σ × β)) (s : σ) : List α → Run σ β ε
  | [] => { outputs := [], final := .ok s }
  | x :: xs =>
    match step s x with
    | .error e => { outputs := [], final := .error e }
    | .ok (s, o) =>
      let rest := run step s xs
      { rest with outputs := o :: rest.outputs }

variable {step : σ → α → Except ε (σ × β)} {s s' : σ}

theorem run_cons_ok {x : α} {o : β} (h : step s x = .ok (s', o)) (xs : List α)
    : run step s (x :: xs)
        =
      { outputs := o :: (run step s' xs).outputs, final := (run step s' xs).final } := by
  simp only [run, h]

theorem run_cons_error {x : α} {e : ε} (h : step s x = .error e) (xs : List α)
    : run step s (x :: xs) = { outputs := [], final := .error e } := by
  simp only [run, h]

theorem run_comap {γ : Type} (f : γ → α) (xs : List γ)
    : run step s (xs.map f) = run (fun s x => step s (f x)) s xs := by
  induction xs generalizing s with
  | nil => rfl
  | cons x xs ih =>
    simp only [List.map_cons, run]
    split
    . rfl
    . simp only [ih]

theorem run_append {xs : List α} {os : List β}
    (h : run step s xs = { outputs := os, final := .ok s' }) (ys : List α)
    : run step s (xs ++ ys)
        =
      { outputs := os ++ (run step s' ys).outputs, final := (run step s' ys).final } := by
  induction xs generalizing s os with
  | nil =>
    simp only [run, Run.mk.injEq, Except.ok.injEq] at h
    rw [← h.1, h.2]
    rfl
  | cons x xs ih =>
    rw [List.cons_append]
    cases hstep : step s x with
    | error e =>
      rw [run_cons_error hstep] at h
      simp at h
    | ok res =>
      rcases res with ⟨s1, o⟩
      rw [run_cons_ok hstep] at h ⊢
      simp only [Run.mk.injEq] at h
      rcases h with ⟨rfl, hfinal⟩
      have hrun : run step s1 xs = { outputs := (run step s1 xs).outputs, final := .ok s' } := by
        rw [← hfinal]
      rw [ih hrun]
      rfl

theorem run_invariant {I : σ → Prop} {P : α → Prop}
    (hstep : ∀ {s s' x o}, I s → P x → step s x = .ok (s', o) → I s') {xs : List α}
    (hs : I s) (hxs : ∀ x ∈ xs, P x) (hfinal : (run step s xs).final = .ok s')
    : I s' := by
  induction xs generalizing s with
  | nil =>
    injection hfinal with hfinal
    rwa [← hfinal]
  | cons x xs ih =>
    cases h : step s x with
    | error e =>
      rw [run_cons_error h] at hfinal
      contradiction
    | ok res =>
      rcases res with ⟨s1, o⟩
      rw [run_cons_ok h] at hfinal
      apply ih (hstep hs (hxs x (by simp)) h) _ hfinal
      intro y hy
      apply hxs y (List.mem_cons_of_mem x hy)

theorem run_answers {I : σ → Prop} {P : α → Prop} {Q : α → β → Prop}
    (hstep : ∀ {s x}, I s → P x → ∃ s' o, step s x = .ok (s', o) ∧ I s' ∧ Q x o) {xs : List α}
    (hs : I s) (hxs : ∀ x ∈ xs, P x)
    : List.Forall₂ Q xs (run step s xs).outputs
        ∧ ∃ s', (run step s xs).final = .ok s' ∧ I s' := by
  induction xs generalizing s with
  | nil => exact ⟨List.Forall₂.nil, s, rfl, hs⟩
  | cons x xs ih =>
    rcases hstep hs (hxs x (by simp)) with ⟨s1, o, h, hs1, ho⟩
    rcases ih hs1 (fun y hy => hxs y (List.mem_cons_of_mem x hy)) with ⟨houtputs, hfinal⟩
    rw [run_cons_ok h]
    exact ⟨List.Forall₂.cons ho houtputs, hfinal⟩

section Simulation

variable {step' : τ → α → Except ε (τ × β)}

-- The relation may depend on the inputs that are still to come.
theorem run_simulation {R : List α → σ → τ → Prop}
    (hstep : ∀ {x xs s t}, R (x :: xs) s t →
      ∃ s' t' o, step s x = .ok (s', o) ∧ step' t x = .ok (t', o) ∧ R xs s' t')
    {xs : List α} {t : τ} (hR : R xs s t)
    : (run step s xs).outputs = (run step' t xs).outputs
        ∧ ∃ s' t', (run step s xs).final = .ok s' ∧ (run step' t xs).final = .ok t' ∧ R [] s' t' := by
  induction xs generalizing s t with
  | nil => exact ⟨rfl, s, t, rfl, rfl, hR⟩
  | cons x xs ih =>
    rcases hstep hR with ⟨s1, t1, o, h1, h2, hR1⟩
    rw [run_cons_ok h1, run_cons_ok h2]
    rcases ih hR1 with ⟨houtputs, hfinal⟩
    exact ⟨by simp only [houtputs], hfinal⟩

theorem run_simulation_of_pre {R : σ → τ → Prop} {P : σ → α → Prop}
    (hstep : ∀ {s t x}, R s t → P s x →
      ∃ s' t' o, step s x = .ok (s', o) ∧ step' t x = .ok (t', o) ∧ R s' t')
    {xs : List α} {t : τ} (hR : R s t)
    (hpre : ∀ ys x zs s', xs = ys ++ x :: zs → (run step s ys).final = .ok s' → P s' x)
    : (run step s xs).outputs = (run step' t xs).outputs := by
  apply (run_simulation
    (R := fun xs s t => R s t
      ∧ ∀ ys x zs s', xs = ys ++ x :: zs → (run step s ys).final = .ok s' → P s' x)
    _ ⟨hR, hpre⟩).1
  intro x xs s t h
  rcases h with ⟨hR, hpre⟩
  rcases hstep hR (hpre [] x xs s rfl rfl) with ⟨s1, t1, o, h1, h2, hR1⟩
  refine ⟨s1, t1, o, h1, h2, hR1, ?_⟩
  intro ys y zs s2 hxs hfinal
  apply hpre (x :: ys) y zs s2
  . rw [hxs, List.cons_append]
  . rw [run_cons_ok h1]
    exact hfinal

-- An abstraction that commutes with every step from a state with the invariant, faults included.
theorem run_map {f : σ → τ} {I : σ → Prop}
    (hstep : ∀ {s x}, I s → step' (f s) x = (step s x).map (fun r => (f r.1, r.2)))
    (hinvariant : ∀ {s s' x o}, I s → step s x = .ok (s', o) → I s') {xs : List α} (hs : I s)
    : run step' (f s) xs
        =
      { outputs := (run step s xs).outputs, final := (run step s xs).final.map f } := by
  induction xs generalizing s with
  | nil => rfl
  | cons x xs ih =>
    have hx := hstep (x := x) hs
    cases h : step s x with
    | error e =>
      rw [h] at hx
      rw [run_cons_error h, run_cons_error hx]
      rfl
    | ok res =>
      rcases res with ⟨s1, o⟩
      rw [h] at hx
      rw [run_cons_ok h, run_cons_ok hx, ih (hinvariant hs h)]

end Simulation

section Projection

variable {P : α → Bool} {Q : α → Prop} {R : σ → σ → Prop}

end Projection

section Resume

variable {δ : Type}

-- A machine that is in the middle of `b` goes on as if `b` and what it is fed now had arrived at
-- once.
structure Resumable (feed : σ → List δ → Except ε (σ × β)) (start : σ)
    (Pending : List δ → σ → Prop) : Prop where
  resume : ∀ {b s}, Pending b s → ∀ y, feed s y = feed start (b ++ y)

variable {feed : σ → List δ → Except ε (σ × β)} {start : σ} {Pending : List δ → σ → Prop}
  {idle : β}

/--
If every piece `x` can begin with leaves the machine pending, nothing happens before the piece that
completes `x` is fed. What this piece holds behind `x` is given to the same call.
-/
theorem run_until (hresumable : Resumable feed start Pending) {x y b : List δ} {o : β}
    (hpending : ∀ b, b ≠ [] → b <+: x → b ≠ x → ∃ s, feed start b = .ok (s, idle) ∧ Pending b s)
    (hx : ∀ z, feed start (x ++ z) = .ok (s', o)) {pieces : List (List δ)}
    (hpieces : ∀ p ∈ pieces, p ≠ []) (hb : b <+: x) (hproper : b ≠ x)
    (hflatten : b ++ pieces.flatten = x ++ y) (hs : ∀ y, feed s y = feed start (b ++ y))
    : ∃ init last rest, pieces = init ++ last :: rest ∧ x <+: b ++ init.flatten ++ last
        ∧ run feed s pieces
            =
          {
            outputs := List.replicate init.length idle ++ o :: (run feed s' rest).outputs
            final := (run feed s' rest).final
          } := by
  induction pieces generalizing s b with
  | nil =>
    have hlength := congrArg List.length hflatten
    simp only [List.flatten_nil, List.append_nil, List.length_append] at hlength
    have hle := hb.length_le
    exact absurd (hb.eq_of_length (by omega)) hproper
  | cons p pieces ih =>
    rw [List.flatten_cons, ← List.append_assoc] at hflatten
    by_cases hp : x <+: b ++ p
    . rcases hp with ⟨z, hz⟩
      have hstep : feed s p = .ok (s', o) := by
        rw [hs, ← hz, hx]
      refine ⟨[], p, pieces, rfl, ⟨z, by simpa using hz⟩, ?_⟩
      rw [run_cons_ok hstep]
      rfl
    . have hpref : b ++ p <+: x := by
        rcases List.prefix_or_prefix_of_prefix (List.prefix_append (b ++ p) pieces.flatten)
          (hflatten ▸ List.prefix_append x y) with h | h
        . assumption
        . contradiction
      have hbp : b ++ p ≠ x := by
        intro heq
        rw [heq] at hp
        apply hp (List.prefix_refl x)
      have hne : b ++ p ≠ [] := by
        simp [hpieces p (by simp)]
      rcases hpending (b ++ p) hne hpref hbp with ⟨s1, hstep, hs1⟩
      have hpieces' : ∀ q ∈ pieces, q ≠ [] := fun q hq => hpieces q (List.mem_cons_of_mem p hq)
      rcases ih hpieces' hpref hbp hflatten (hresumable.resume hs1)
        with ⟨init, last, rest, rfl, hlast, hrun⟩
      refine ⟨p :: init, last, rest, rfl, by simpa using hlast, ?_⟩
      rw [run_cons_ok (by rw [hs]; exact hstep), hrun]
      rfl

theorem run_pieces (hresumable : Resumable feed start Pending) {x : List δ} {o : β}
    (hpending : ∀ b, b ≠ [] → b <+: x → b ≠ x → ∃ s, feed start b = .ok (s, idle) ∧ Pending b s)
    (hx : ∀ z, feed start (x ++ z) = .ok (s', o)) (hne : x ≠ []) {pieces : List (List δ)}
    (hpieces : ∀ p ∈ pieces, p ≠ []) (hflatten : pieces.flatten = x)
    : run feed start pieces
        =
      { outputs := List.replicate (pieces.length - 1) idle ++ [o], final := .ok s' } := by
  rcases run_until hresumable hpending hx hpieces List.nil_prefix (Ne.symm hne)
    (y := []) (by simpa using hflatten) (fun y => rfl) with ⟨init, last, rest, hsplit, hlast, hrun⟩
  cases rest with
  | nil =>
    rw [hrun, hsplit]
    simp [run]
  | cons q rest =>
    have hq : 0 < q.length := List.length_pos_iff.mpr (hpieces q (by simp [hsplit]))
    have hle := hlast.length_le
    rw [← hflatten, hsplit] at hle
    simp only [List.flatten_append, List.flatten_cons, List.length_append, List.nil_append] at hle
    omega

end Resume

end Machine
