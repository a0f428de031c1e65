import Boostcache.Boost.SharedMutex
import Boostcache.Machine.Linearizable

/-!
Threads that run the operations of a program on objects, each of them behind a `SharedMutex` of its
own. An operation works on the private state of its thread and may enter one section, in which it
makes one small step after the other on one of the objects: as one of its readers, or as its only
owner after it has upgraded its lock. The steps of the threads are interleaved in any way. A thread
whose operation runs into a fault stays where it is.
-/

open Boost

namespace Machine

inductive Mode where
  | shared
  | exclusive
  deriving DecidableEq, Repr

-- A section goes on with other locals or ends with a result. Readers do not write.
structure Object (β ε : Type) where
  State : Type
  Local : Mode → Type
  micro : (mode : Mode) → Local mode → State → Except ε (State × (Local mode ⊕ β))
  micro_shared : ∀ {l s s' r}, micro .shared l s = .ok (s', r) → s' = s

namespace Object

variable {β ε : Type} (object : Object β ε)

inductive Exec (mode : Mode) : object.Local mode → object.State → object.State → β → Prop
  | done {l : object.Local mode} {s s' : object.State} {b : β}
      : object.micro mode l s = .ok (s', .inr b) → Exec mode l s s' b
  | next {l l' : object.Local mode} {s s1 s' : object.State} {b : β}
      : object.micro mode l s = .ok (s1, .inl l') → Exec mode l' s1 s' b → Exec mode l s s' b

inductive Micros (mode : Mode) (l0 : object.Local mode) (s0 : object.State)
    : object.Local mode → object.State → Prop
  | start : Micros mode l0 s0 l0 s0
  | micro {l l' : object.Local mode} {s s' : object.State}
      : Micros mode l0 s0 l s
          →
        object.micro mode l s = .ok (s', .inl l')
          →
        Micros mode l0 s0 l' s'

variable {object} {mode : Mode} {l l0 : object.Local mode} {s s0 s' : object.State} {b : β}

theorem exec_of_next {s1 : object.State} {l1 : object.Local mode}
    (h : object.micro mode l s = .ok (s1, .inl l1))
    : object.Exec mode l s s' b ↔ object.Exec mode l1 s1 s' b := by
  constructor
  . intro hexec
    cases hexec with
    | done hdone =>
      rw [h] at hdone
      simp at hdone
    | next hnext hexec =>
      rw [h] at hnext
      injection hnext with hnext
      injection hnext with hs hl
      injection hl with hl
      rw [hs, hl]
      apply hexec
  . apply Exec.next h

-- The section has the outcome of `x`, it does not end if `x` is an error.
def Computes (object : Object β ε) (mode : Mode) (l : object.Local mode) (s : object.State)
    (x : Except ε (object.State × β)) : Prop :=
  ∀ s' b, object.Exec mode l s s' b ↔ x = .ok (s', b)

theorem computes_done (h : object.micro mode l s = .ok (s', .inr b))
    : object.Computes mode l s (.ok (s', b)) := by
  intro s1 b1
  constructor
  . intro hexec
    cases hexec with
    | done hdone =>
      rw [h] at hdone
      simpa using hdone
    | next hnext _ =>
      rw [h] at hnext
      simp at hnext
  . intro heq
    injection heq with heq
    injection heq with hs hb
    rw [← hs, ← hb]
    apply Exec.done h

theorem computes_next {s1 : object.State} {l1 : object.Local mode}
    {x : Except ε (object.State × β)} (h : object.micro mode l s = .ok (s1, .inl l1))
    (hnext : object.Computes mode l1 s1 x)
    : object.Computes mode l s x := by
  intro s' b
  rw [exec_of_next h]
  apply hnext

theorem computes_error {e : ε} (h : object.micro mode l s = .error e)
    : object.Computes mode l s (.error e) := by
  intro s' b
  constructor
  . intro hexec
    cases hexec with
    | done hdone =>
      rw [h] at hdone
      contradiction
    | next hnext _ =>
      rw [h] at hnext
      contradiction
  . intro heq
    contradiction

theorem Exec.computes (h : object.Exec mode l s s' b) : object.Computes mode l s (.ok (s', b)) := by
  induction h with
  | done hmicro => apply computes_done hmicro
  | next hmicro _ ih => apply computes_next hmicro ih

theorem Micros.exec (h : object.Micros mode l0 s0 l s) (hexec : object.Exec mode l s s' b)
    : object.Exec mode l0 s0 s' b := by
  induction h with
  | start => assumption
  | micro _ hmicro ih =>
    apply ih
    rw [exec_of_next hmicro]
    apply hexec

theorem Exec.of_micros (hexec : object.Exec mode l0 s0 s' b) (h : object.Micros mode l0 s0 l s)
    : object.Exec mode l s s' b := by
  induction h with
  | start => assumption
  | micro _ hmicro ih =>
    rw [← exec_of_next hmicro]
    apply ih

theorem state_eq_of_micro (hmode : mode = .shared) {r : object.Local mode ⊕ β}
    (h : object.micro mode l s = .ok (s', r))
    : s' = s := by
  subst hmode
  apply object.micro_shared h

theorem Micros.state_eq (hmode : mode = .shared) (h : object.Micros mode l0 s0 l s) : s = s0 := by
  induction h with
  | start => rfl
  | micro _ hmicro ih => rw [state_eq_of_micro hmode hmicro, ih]

end Object

variable {τ ι π α β ω ε : Type}

structure Section (object : ι → Object β ε) where
  index : ι
  mode : Mode
  locals : (object index).Local mode

-- `enter` is what an operation does before it waits for a lock, an operation that needs none of the
-- objects has its result there. `serves` says which thread runs an operation.
structure Program (τ ι π α β ω ε : Type) where
  mutex : SharedMutex τ
  object : ι → Object β ε
  enter : π → α → Except ε (π × (ω ⊕ Section object))
  answer : β → ω
  serves : τ → α → Prop

inductive Phase (program : Program τ ι π α β ω ε) where
  | idle
  | faulted (x : α)
  | waiting (x : α) (sec : Section program.object)
  | upgrading (x : α) (sec : Section program.object) (exclusive : sec.mode = .exclusive)
  | inside (x : α) (sec : Section program.object)
  | finished (i : ι) (mode : Mode) (o : ω)
  | leaving (i : ι) (o : ω)
  | returning (o : ω)

def Mode.ownership : Mode → Ownership
  | shared => .shared
  | exclusive => .exclusive

namespace Phase

variable {program : Program τ ι π α β ω ε}

def owns : Phase program → Option (ι × Ownership)
  | idle => none
  | faulted _ => none
  | waiting _ _ => none
  | upgrading _ sec _ => some (sec.index, .upgrade)
  | inside _ sec => some (sec.index, sec.mode.ownership)
  | finished i mode _ => some (i, mode.ownership)
  | leaving i _ => some (i, .upgrade)
  | returning _ => none

def progress : Phase program → Progress α ω
  | idle => .idle
  | faulted x => .called x
  | waiting x _ => .called x
  | upgrading x _ _ => .called x
  | inside x _ => .called x
  | finished _ _ o => .done o
  | leaving _ o => .done o
  | returning o => .done o

end Phase

structure System (program : Program τ ι π α β ω ε) where
  objects : ∀ i, (program.object i).State
  mutex : ι → program.mutex.State
  priv : τ → π
  phase : τ → Phase program

namespace System

variable {program : Program τ ι π α β ω ε} (c : System program)

def start (objects : ∀ i, (program.object i).State) (priv : τ → π) : System program where
  objects := objects
  mutex := fun _ => program.mutex.unlocked
  priv := priv
  phase := fun _ => .idle

section Threads

variable [DecidableEq τ]

def goto (t : τ) (phase : Phase program) : System program :=
  { c with phase := Function.update c.phase t phase }

def keep (t : τ) (p : π) : System program :=
  { c with priv := Function.update c.priv t p }

variable (t : τ) (p : Phase program)

@[simp]
theorem goto_phase : (c.goto t p).phase = Function.update c.phase t p := by
  rfl

@[simp]
theorem goto_objects : (c.goto t p).objects = c.objects := by
  rfl

@[simp]
theorem goto_mutex : (c.goto t p).mutex = c.mutex := by
  rfl

@[simp]
theorem keep_phase (p : π) : (c.keep t p).phase = c.phase := by
  rfl

@[simp]
theorem keep_priv (p : π) : (c.keep t p).priv = Function.update c.priv t p := by
  rfl

end Threads

section Objects

variable [DecidableEq ι]

def own (i : ι) (m : program.mutex.State) : System program :=
  { c with mutex := Function.update c.mutex i m }

def write (i : ι) (s : (program.object i).State) : System program :=
  { c with objects := Function.update c.objects i s }

variable (i : ι) (m : program.mutex.State) (s : (program.object i).State)

@[simp]
theorem own_phase : (c.own i m).phase = c.phase := by
  rfl

@[simp]
theorem own_mutex : (c.own i m).mutex = Function.update c.mutex i m := by
  rfl

@[simp]
theorem write_phase : (c.write i s).phase = c.phase := by
  rfl

@[simp]
theorem write_objects : (c.write i s).objects = Function.update c.objects i s := by
  rfl

end Objects

variable [DecidableEq τ] [DecidableEq ι]

inductive Step : Option (Event τ α ω) → System program → Prop
  | call {t : τ} {x : α} {p : π} {sec : Section program.object}
      : c.phase t = .idle
          →
        program.serves t x
          →
        program.enter (c.priv t) x = .ok (p, .inr sec)
          →
        Step (some (.call t x)) ((c.keep t p).goto t (.waiting x sec))
  | answer {t : τ} {x : α} {p : π} {o : ω}
      : c.phase t = .idle
          →
        program.serves t x
          →
        program.enter (c.priv t) x = .ok (p, .inl o)
          →
        Step (some (.call t x)) ((c.keep t p).goto t (.returning o))
  | fault {t : τ} {x : α} {e : ε}
      : c.phase t = .idle
          →
        program.serves t x
          →
        program.enter (c.priv t) x = .error e
          →
        Step (some (.call t x)) (c.goto t (.faulted x))
  | lockShared {t : τ} {x : α} {sec : Section program.object} {m : program.mutex.State}
      : c.phase t = .waiting x sec
          →
        sec.mode = .shared
          →
        program.mutex.lockShared (c.mutex sec.index) t = some m
          →
        Step none ((c.own sec.index m).goto t (.inside x sec))
  | lockUpgrade {t : τ} {x : α} {sec : Section program.object} {m : program.mutex.State}
      : c.phase t = .waiting x sec
          →
        (exclusive : sec.mode = .exclusive)
          →
        program.mutex.lockUpgrade (c.mutex sec.index) t = some m
          →
        Step none ((c.own sec.index m).goto t (.upgrading x sec exclusive))
  | lock {t : τ} {x : α} {sec : Section program.object} {exclusive : sec.mode = .exclusive}
      {m : program.mutex.State}
      : c.phase t = .upgrading x sec exclusive
          →
        program.mutex.unlockUpgradeAndLock (c.mutex sec.index) t = some m
          →
        Step none ((c.own sec.index m).goto t (.inside x sec))
  | micro {t : τ} {x : α} {sec : Section program.object} {s : (program.object sec.index).State}
      {l : (program.object sec.index).Local sec.mode}
      : c.phase t = .inside x sec
          →
        (program.object sec.index).micro sec.mode sec.locals (c.objects sec.index) = .ok (s, .inl l)
          →
        Step none ((c.write sec.index s).goto t (.inside x { sec with locals := l }))
  | finish {t : τ} {x : α} {sec : Section program.object} {s : (program.object sec.index).State}
      {b : β}
      : c.phase t = .inside x sec
          →
        (program.object sec.index).micro sec.mode sec.locals (c.objects sec.index) = .ok (s, .inr b)
          →
        Step none
          ((c.write sec.index s).goto t (.finished sec.index sec.mode (program.answer b)))
  | unlockShared {t : τ} {i : ι} {o : ω}
      : c.phase t = .finished i .shared o
          →
        Step none ((c.own i (program.mutex.unlockShared (c.mutex i) t)).goto t (.returning o))
  | unlock {t : τ} {i : ι} {o : ω}
      : c.phase t = .finished i .exclusive o
          →
        Step none
          ((c.own i (program.mutex.unlockAndLockUpgrade (c.mutex i) t)).goto t (.leaving i o))
  | unlockUpgrade {t : τ} {i : ι} {o : ω}
      : c.phase t = .leaving i o
          →
        Step none ((c.own i (program.mutex.unlockUpgrade (c.mutex i) t)).goto t (.returning o))
  | ret {t : τ} {o : ω}
      : c.phase t = .returning o
          →
        Step (some (.ret t o)) (c.goto t .idle)

inductive Runs (c0 : System program) : List (Event τ α ω) → System program → Prop
  | start : Runs c0 [] c0
  | step {history : List (Event τ α ω)} {c c' : System program} {event : Option (Event τ α ω)}
      : Runs c0 history c
          →
        Step c event c'
          →
        Runs c0 (history ++ event.toList) c'

end System

end Machine
