import Boostcache.Cpp.Memory

/-!
This module contains the `JsVm` of `server/jsvm.{h,cpp}`. V8 itself is a parameter. Strings are
handed to it and taken from it as C strings, so what is behind the first NUL is lost.
-/

open Cpp

-- What `Utf8Value` points to if a value is returned, this is nothing if it has no string form.
inductive V8.Completion where
  | threw
  | returned (newValue : Option ByteString)
  deriving DecidableEq, Repr

/--
V8 together with the scripts that the clients send. `Runs` and `Calls` are what may become of a
script and of a call of its function, `ρ` is whatever V8 keeps of a script from one call to the next
one. A script evaluates to a function or fails, both return, they do the same whenever they are run,
and what the function returns has a string form.
-/
structure V8 (ρ : Type) where
  -- there is no state to go on with if the script does not compile or throws
  Runs : ByteString → Option ρ → Prop
  Calls : ρ → ByteString → ByteString → V8.Completion × ρ → Prop
  run : ByteString → Option ρ
  call : ρ → ByteString → ByteString → V8.Completion × ρ
  run_returns : ∀ code, Runs code (run code)
  run_deterministic : ∀ {code vm}, Runs code vm → vm = run code
  call_returns : ∀ vm key value, Calls vm key value (call vm key value)
  call_deterministic : ∀ {vm key value result}, Calls vm key value result
    → result = call vm key value
  call_string : ∀ vm key value, (call vm key value).1 ≠ .returned none

-- Scripts that are given by what they compute.
def V8.ofFunctions {ρ : Type} (run : ByteString → Option ρ)
    (call : ρ → ByteString → ByteString → Option ByteString × ρ)
    : V8 ρ :=
  let complete (result : Option ByteString × ρ) : V8.Completion × ρ :=
    match result with
    | (none, vm) => (.threw, vm)
    | (some newValue, vm) => (.returned (some newValue), vm)
  {
    Runs := fun code vm => vm = run code
    Calls := fun vm key value result => result = complete (call vm key value)
    run := run
    call := fun vm key value => complete (call vm key value)
    run_returns := fun _ => rfl
    run_deterministic := id
    call_returns := fun _ _ _ => rfl
    call_deterministic := id
    call_string := by
      intro vm key value
      rcases call vm key value with ⟨_ | newValue, vm'⟩
      . simp [complete]
      . simp [complete]
  }

namespace JsVm

variable {ρ : Type}

-- What may become of `call`, whatever the scripts do.
inductive Calls (v8 : V8 ρ) (vm : ρ) (key value : ByteString)
    : Except Fault (Option ByteString × ρ) → Prop
  | throws {vm' : ρ}
      : v8.Calls vm (cStr key) (cStr value) (.threw, vm') → Calls v8 vm key value (.ok (none, vm'))
  | returns {newValue : ByteString} {vm' : ρ}
      : v8.Calls vm (cStr key) (cStr value) (.returned (some newValue), vm')
          →
        Calls v8 vm key value (.ok (some (cStr newValue), vm'))
  -- `std::string(nullptr)`
  | null {vm' : ρ}
      : v8.Calls vm (cStr key) (cStr value) (.returned none, vm')
          →
        Calls v8 vm key value (.error .nullPointer)

def init (v8 : V8 ρ) (code : ByteString) : Option ρ :=
  v8.run (cStr code)

-- `none` stands for the `Exception` that is thrown.
def call (v8 : V8 ρ) (vm : ρ) (key value : ByteString) : Option ByteString × ρ :=
  match h : v8.call vm (cStr key) (cStr value) with
  | (.threw, vm) => (none, vm)
  | (.returned (some newValue), vm) => (some (cStr newValue), vm)
  | (.returned none, _) => absurd (congrArg Prod.fst h) (v8.call_string vm (cStr key) (cStr value))

theorem runs_iff {v8 : V8 ρ} {code : ByteString} {vm : Option ρ}
    : v8.Runs (cStr code) vm ↔ vm = init v8 code := by
  constructor
  . apply v8.run_deterministic
  . intro h
    rw [h]
    apply v8.run_returns (cStr code)

section Call

variable {v8 : V8 ρ} {vm vm' : ρ} {key value newValue : ByteString}

theorem call_of_threw (h : v8.call vm (cStr key) (cStr value) = (.threw, vm'))
    : call v8 vm key value = (none, vm') := by
  unfold call
  split
  . next h' =>
    rw [h] at h'
    injection h' with _ h'
    rw [h']
  . next h' =>
    rw [h] at h'
    injection h' with h'
    contradiction
  . next h' =>
    rw [h] at h'
    injection h' with h'
    contradiction

theorem call_of_returned
    (h : v8.call vm (cStr key) (cStr value) = (.returned (some newValue), vm'))
    : call v8 vm key value = (some (cStr newValue), vm') := by
  unfold call
  split
  . next h' =>
    rw [h] at h'
    injection h' with h'
    contradiction
  . next h' =>
    rw [h] at h'
    injection h' with hvalue hvm
    injection hvalue with hvalue
    injection hvalue with hvalue
    rw [hvalue, hvm]
  . next h' =>
    rw [h] at h'
    injection h' with h'
    injection h' with h'
    contradiction

theorem calls_iff {result : Except Fault (Option ByteString × ρ)}
    : Calls v8 vm key value result ↔ result = .ok (call v8 vm key value) := by
  have hcall := v8.call_returns vm (cStr key) (cStr value)
  constructor
  . intro h
    cases h with
    | throws h => rw [call_of_threw (v8.call_deterministic h).symm]
    | returns h => rw [call_of_returned (v8.call_deterministic h).symm]
    | null h =>
      have hnull := congrArg Prod.fst (v8.call_deterministic h).symm
      exact absurd hnull (v8.call_string vm (cStr key) (cStr value))
  . intro h
    rw [h]
    rcases heq : v8.call vm (cStr key) (cStr value) with ⟨_ | ⟨_ | newValue⟩, vm'⟩
    . rw [call_of_threw heq]
      rw [heq] at hcall
      apply Calls.throws hcall
    . exact absurd (congrArg Prod.fst heq) (v8.call_string vm (cStr key) (cStr value))
    . rw [call_of_returned heq]
      rw [heq] at hcall
      apply Calls.returns hcall

end Call

variable {α : Type}

structure Access (α : Type) where
  key : α → ByteString
  value : α → ByteString
  assign : α → ByteString → α
  key_assign : ∀ x v, key (assign x v) = key x
  value_assign : ∀ x v, value (assign x v) = v
  assign_value : ∀ x, assign x (value x) = x

theorem Access.assign_eq_self (access : Access α) (x : α) (v : ByteString)
    : access.assign x v = x ↔ v = access.value x := by
  constructor
  . intro h
    have := access.value_assign x v
    rw [h] at this
    apply this.symm
  . intro h
    rw [h, access.assign_value]

-- `for (auto &x : xs) value(x) = vm.call(key(x), value(x));`, the loop is left if a call throws.
def forEach (v8 : V8 ρ) (access : Access α) (vm : ρ) : List α → Bool × List α
  | [] => (true, [])
  | x :: xs =>
    match call v8 vm (access.key x) (access.value x) with
    | (none, _) => (false, x :: xs)
    | (some newValue, vm) =>
      let (done, xs) := forEach v8 access vm xs
      (done, access.assign x newValue :: xs)

-- What the calls return if the elements are visited in this order, up to the first one that throws.
def results (v8 : V8 ρ) (access : Access α) (vm : ρ) : List α → List (Option ByteString)
  | [] => []
  | x :: xs =>
    match call v8 vm (access.key x) (access.value x) with
    | (none, _) => [none]
    | (some newValue, vm) => some newValue :: results v8 access vm xs

variable (v8 : V8 ρ) (access : Access α)

theorem forEach_fst_eq_false (vm : ρ) (xs : List α)
    : (forEach v8 access vm xs).1 = false ↔ none ∈ results v8 access vm xs := by
  induction xs generalizing vm with
  | nil => simp [forEach, results]
  | cons x xs ih =>
    unfold forEach results
    split
    . simp
    . simp [ih]

theorem forEach_snd_eq_self (vm : ρ) (xs : List α)
    : (forEach v8 access vm xs).2 = xs
        ↔
      ∀ p ∈ xs.zip (results v8 access vm xs), p.2 = none ∨ p.2 = some (access.value p.1) := by
  induction xs generalizing vm with
  | nil => simp [forEach, results]
  | cons x xs ih =>
    unfold forEach results
    split
    . simp
    . simp only [List.cons.injEq, access.assign_eq_self, ih, List.zip_cons_cons, List.mem_cons,
        forall_eq_or_imp, Option.some.injEq, reduceCtorEq, false_or]

theorem forEach_map {β : Type} {f : α → β} (hf : ∀ x v, f (access.assign x v) = f x) (vm : ρ)
    (xs : List α)
    : (forEach v8 access vm xs).2.map f = xs.map f := by
  induction xs generalizing vm with
  | nil => rfl
  | cons x xs ih =>
    unfold forEach
    split
    . rfl
    . simp [hf, ih]

theorem forEach_eq_self_of_bindings (vm : ρ) (xs : List α)
    (h : (forEach v8 access vm xs).2.map (fun x => (access.key x, access.value x))
      = xs.map (fun x => (access.key x, access.value x)))
    : (forEach v8 access vm xs).2 = xs := by
  induction xs generalizing vm with
  | nil => rfl
  | cons x xs ih =>
    unfold forEach at h ⊢
    split
    . rfl
    . next newValue vm' hcall =>
      simp only [hcall, List.map_cons, List.cons.injEq, Prod.mk.injEq, access.value_assign] at h
      dsimp only
      rw [h.1.2, access.assign_value, ih vm' h.2]

end JsVm
