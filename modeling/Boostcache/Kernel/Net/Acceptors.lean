import Boostcache.Kernel.Net.IoServicePool
import Boostcache.Kernel.Net.Session

/-!
The two accept loops of `CommandServer` in `kernel/net/commandserver.{h,cpp}` and the sessions they
hand their connections to. A session is told apart by the number of sessions that have been allocated
before it. The operations of all the sessions and of both loops complete in any order.
-/

open Cpp CommandHandler

inductive Protocol where
  | tcp
  | unixDomain
  deriving DecidableEq, Repr

structure Acceptors where
  ioServicePool : IoServicePool
  sessions : List (Nat × Session)
  accepts : List (Protocol × Nat)

namespace Acceptors

def newSession : Session :=
  { commandHandler := fresh, outstanding := [], log := [] }

def startAccept (protocol : Protocol) (s : Acceptors) : Except Fault Acceptors := do
  let (ioServicePool, ioService) ← s.ioServicePool.ioService
  return {
    ioServicePool := ioServicePool
    sessions := s.sessions ++ [(ioService, newSession)]
    accepts := s.accepts ++ [(protocol, s.sessions.length)]
  }

def startAcceptOnTcp (s : Acceptors) : Except Fault Acceptors :=
  s.startAccept .tcp

def startAcceptOnUnixDomain (s : Acceptors) : Except Fault Acceptors :=
  s.startAccept .unixDomain

def handleAccept (protocol : Protocol) (s : Acceptors) (session : Nat) (error : Bool)
    : Except Fault Acceptors :=
  let sessions := s.sessions.modify session
    (fun e => (e.1, if error then e.2.delete else e.2.asyncRead))
  startAccept protocol { s with sessions := sessions }

def handleAcceptOnTcp (s : Acceptors) (newSession : Nat) (error : Bool) : Except Fault Acceptors :=
  handleAccept .tcp s newSession error

def handleAcceptOnUnixDomain (s : Acceptors) (newSession : Nat) (error : Bool)
    : Except Fault Acceptors :=
  handleAccept .unixDomain s newSession error

-- What `async_accept` has been given to call when it is done.
def handler : Protocol → Acceptors → Nat → Bool → Except Fault Acceptors
  | .tcp => handleAcceptOnTcp
  | .unixDomain => handleAcceptOnUnixDomain

theorem handler_eq (protocol : Protocol) : handler protocol = handleAccept protocol := by
  cases protocol with
  | tcp => rfl
  | unixDomain => rfl

-- The first service is the one of the acceptors and the signals.
def create (numOfWorkers : Nat) : Except Fault Acceptors := do
  let (ioServicePool, _) ← (IoServicePool.create numOfWorkers).ioService
  let s ← startAcceptOnTcp { ioServicePool := ioServicePool, sessions := [], accepts := [] }
  startAcceptOnUnixDomain s

inductive Step (s : Acceptors) : Acceptors → Prop
  | accept {protocol : Protocol} {session : Nat} (error : Bool) {s' : Acceptors}
      : (protocol, session) ∈ s.accepts
          →
        handler protocol { s with accepts := s.accepts.erase (protocol, session) } session error
          = .ok s'
          →
        Step s s'
  | session {session ioService : Nat} {peer peer' : Session}
      : s.sessions[session]? = some (ioService, peer)
          →
        Session.Step peer peer'
          →
        Step s { s with sessions := s.sessions.set session (ioService, peer') }

def Reachable (numOfWorkers : Nat) (s : Acceptors) : Prop :=
  ∃ s0, create numOfWorkers = .ok s0 ∧ Relation.ReflTransGen Step s0 s

section Lifecycle

-- What a session can be: still without a connection, connected, or deleted because the accept has
-- failed. A connected session goes on until it deletes itself.
inductive Standing (accepts : List (Protocol × Nat)) (session : Nat) (peer : Session) : Prop
  | waiting (protocol : Protocol)
      : (protocol, session) ∈ accepts → peer = newSession → Standing accepts session peer
  | connected
      : (∀ protocol, (protocol, session) ∉ accepts)
          →
        Session.Reachable peer
          →
        Standing accepts session peer
  | rejected
      : (∀ protocol, (protocol, session) ∉ accepts)
          →
        peer = newSession.delete
          →
        Standing accepts session peer

structure Invariant (numOfWorkers : Nat) (s : Acceptors) : Prop where
  dealt : IoServicePool.Dealt numOfWorkers (s.sessions.length + 1) s.ioServicePool
  ioServices : s.sessions.map Prod.fst
    = (List.range s.sessions.length).map (fun k => (k + 1) % numOfWorkers)
  session_lt : ∀ {protocol session}, (protocol, session) ∈ s.accepts → session < s.sessions.length
  standing : ∀ {session ioService peer}, s.sessions[session]? = some (ioService, peer)
    → Standing s.accepts session peer

def Accepting (accepts : List (Protocol × Nat)) : Prop :=
  ∃ tcp unixDomain, tcp ≠ unixDomain ∧ accepts.Perm [(.tcp, tcp), (.unixDomain, unixDomain)]

variable {numOfWorkers : Nat} {s s' : Acceptors}

theorem Standing.append {accepts : List (Protocol × Nat)} {session : Nat} {peer : Session}
    (h : Standing accepts session peer) (protocol : Protocol) {next : Nat} (hne : session ≠ next)
    : Standing (accepts ++ [(protocol, next)]) session peer := by
  cases h with
  | waiting protocol hmem hpeer => exact .waiting protocol (by simp [hmem]) hpeer
  | connected hnot hreachable => exact .connected (by simp [hnot, hne]) hreachable
  | rejected hnot hpeer => exact .rejected (by simp [hnot, hne]) hpeer

theorem Standing.erase {accepts : List (Protocol × Nat)} {session other : Nat} {peer : Session}
    (h : Standing accepts session peer) (protocol : Protocol) (hne : session ≠ other)
    : Standing (accepts.erase (protocol, other)) session peer := by
  have hmem (p : Protocol)
      : (p, session) ∈ accepts.erase (protocol, other) ↔ (p, session) ∈ accepts := by
    apply List.mem_erase_of_ne
    simp [hne]
  cases h with
  | waiting p hwaiting hpeer => exact .waiting p ((hmem p).mpr hwaiting) hpeer
  | connected hnot hreachable => exact .connected (fun p => by simp [hmem, hnot]) hreachable
  | rejected hnot hpeer => exact .rejected (fun p => by simp [hmem, hnot]) hpeer

theorem Invariant.startAccept (hn : 0 < numOfWorkers) (h : Invariant numOfWorkers s)
    (protocol : Protocol)
    : ∃ s', s.startAccept protocol = .ok s' ∧ Invariant numOfWorkers s'
        ∧ s'.accepts = s.accepts ++ [(protocol, s.sessions.length)] := by
  rcases h.dealt.ioService hn with ⟨pool', hpool, hdealt⟩
  unfold Acceptors.startAccept
  rw [hpool]
  refine ⟨_, rfl, ?_, rfl⟩
  constructor
  . simpa using hdealt
  . simp only [List.map_append, List.map_singleton, h.ioServices, List.length_append,
      List.length_singleton, List.range_succ]
  . intro protocol' session hmem
    simp only [List.mem_append, List.mem_singleton, Prod.mk.injEq] at hmem
    rw [List.length_append, List.length_singleton]
    rcases hmem with hmem | ⟨-, rfl⟩
    . have := h.session_lt hmem
      omega
    . omega
  . intro session ioService peer hpeer
    dsimp only at hpeer ⊢
    by_cases hlt : session < s.sessions.length
    . rw [List.getElem?_append_left hlt] at hpeer
      apply (h.standing hpeer).append
      omega
    . rw [List.getElem?_append_right (by omega), List.getElem?_singleton] at hpeer
      split at hpeer
      . next hzero =>
        injection hpeer with hpeer
        injection hpeer with _ hpeer
        have hsession : session = s.sessions.length := by omega
        rw [hsession]
        exact .waiting protocol (by simp) hpeer.symm
      . contradiction

theorem invariant_create (hn : 0 < numOfWorkers)
    : ∃ s, create numOfWorkers = .ok s ∧ Invariant numOfWorkers s ∧ Accepting s.accepts := by
  rcases (IoServicePool.dealt_create numOfWorkers).ioService hn with ⟨pool, hpool, hdealt⟩
  have hempty : Invariant numOfWorkers { ioServicePool := pool, sessions := [], accepts := [] } := by
    constructor
    . exact hdealt
    . rfl
    . simp
    . simp
  rcases hempty.startAccept hn .tcp with ⟨s1, hs1, hinvariant1, haccepts1⟩
  rcases hinvariant1.startAccept hn .unixDomain with ⟨s2, hs2, hinvariant2, haccepts2⟩
  refine ⟨s2, ?_, hinvariant2, 0, s1.sessions.length, ?_, ?_⟩
  . unfold create startAcceptOnTcp startAcceptOnUnixDomain
    simp only [hpool, ok_bind, hs1, hs2]
  . have hmem : (Protocol.tcp, 0) ∈ s1.accepts := by
      simp [haccepts1]
    have hlt := hinvariant1.session_lt hmem
    omega
  . rw [haccepts2, haccepts1]
    rfl

theorem Accepting.erase {accepts : List (Protocol × Nat)} (h : Accepting accepts)
    {protocol : Protocol} {session : Nat} (hmem : (protocol, session) ∈ accepts)
    : ∃ other, other ≠ session ∧ ∃ q, q ≠ protocol
        ∧ (accepts.erase (protocol, session)).Perm [(q, other)] := by
  rcases h with ⟨tcp, unixDomain, hne, hperm⟩
  have hmem' := hperm.mem_iff.mp hmem
  simp only [List.mem_cons, Prod.mk.injEq, List.not_mem_nil, or_false] at hmem'
  have herase := hperm.erase (protocol, session)
  rcases hmem' with ⟨rfl, rfl⟩ | ⟨rfl, rfl⟩
  . refine ⟨unixDomain, Ne.symm hne, .unixDomain, by decide, ?_⟩
    apply herase.trans
    simp
  . refine ⟨tcp, hne, .tcp, by decide, ?_⟩
    apply herase.trans
    rw [List.erase_cons_tail (by simp)]
    simp

theorem accepting_of_perm {accepts : List (Protocol × Nat)} {protocol q : Protocol}
    {session other : Nat} (hne : other ≠ session) (hprotocol : q ≠ protocol)
    (hperm : accepts.Perm [(q, other)])
    : Accepting (accepts ++ [(protocol, session)]) := by
  have hperm' := hperm.append_right [(protocol, session)]
  cases protocol with
  | tcp =>
    cases q with
    | tcp => contradiction
    | unixDomain => exact ⟨session, other, Ne.symm hne, hperm'.trans (List.Perm.swap _ _ _)⟩
  | unixDomain =>
    cases q with
    | tcp => exact ⟨other, session, hne, hperm'⟩
    | unixDomain => contradiction

def complete (s : Acceptors) (protocol : Protocol) (session : Nat) (error : Bool) : Acceptors :=
  {
    s with
    sessions := s.sessions.modify session
      (fun e => (e.1, if error then e.2.delete else e.2.asyncRead))
    accepts := s.accepts.erase (protocol, session)
  }

theorem Invariant.complete (h : Invariant numOfWorkers s) {protocol : Protocol} {session : Nat}
    (hmem : (protocol, session) ∈ s.accepts)
    (hnot : ∀ p, (p, session) ∉ s.accepts.erase (protocol, session)) (error : Bool)
    : Invariant numOfWorkers (s.complete protocol session error) := by
  constructor
  . simpa [Acceptors.complete] using h.dealt
  . unfold Acceptors.complete
    dsimp only
    rw [List.length_modify, ← h.ioServices]
    apply List.ext_getElem
    . simp
    . intro i _ _
      simp only [List.getElem_map, List.getElem_modify]
      split
      . rfl
      . rfl
  . intro p i hi
    simpa [Acceptors.complete] using h.session_lt (List.mem_of_mem_erase hi)
  . intro i ioService peer hpeer
    unfold Acceptors.complete at hpeer ⊢
    dsimp only at hpeer ⊢
    by_cases heq : session = i
    . rw [← heq, List.getElem?_modify_eq] at hpeer
      rw [← heq]
      rcases Option.map_eq_some_iff.mp hpeer with ⟨e, he, hpeer⟩
      injection hpeer with _ hpeer
      have hnew : e.2 = newSession := by
        cases h.standing he with
        | waiting p _ hpeer => exact hpeer
        | connected hnone _ => exact absurd hmem (hnone protocol)
        | rejected hnone _ => exact absurd hmem (hnone protocol)
      rw [hnew] at hpeer
      cases error with
      | false =>
        apply Standing.connected hnot
        rw [← hpeer]
        apply Relation.ReflTransGen.refl
      | true => exact .rejected hnot hpeer.symm
    . rw [List.getElem?_modify_ne _ _ heq] at hpeer
      apply (h.standing hpeer).erase protocol (Ne.symm heq)

theorem Invariant.handleAccept (hn : 0 < numOfWorkers) (h : Invariant numOfWorkers s)
    (haccepting : Accepting s.accepts) {protocol : Protocol} {session : Nat}
    (hmem : (protocol, session) ∈ s.accepts) (error : Bool)
    : ∃ s', handleAccept protocol { s with accepts := s.accepts.erase (protocol, session) } session
          error = .ok s'
        ∧ Invariant numOfWorkers s' ∧ Accepting s'.accepts := by
  rcases haccepting.erase hmem with ⟨other, hother, q, hq, hperm⟩
  have hnot (p : Protocol) : (p, session) ∉ s.accepts.erase (protocol, session) := by
    rw [hperm.mem_iff]
    simp [Ne.symm hother]
  have hcomplete := h.complete hmem hnot error
  rcases hcomplete.startAccept hn protocol with ⟨s', hs', hinvariant', haccepts'⟩
  refine ⟨s', hs', hinvariant', ?_⟩
  rw [haccepts']
  apply accepting_of_perm _ hq hperm
  have hlt := hcomplete.session_lt (hperm.mem_iff.mpr (List.mem_singleton_self (q, other)))
  omega

theorem Standing.step {accepts : List (Protocol × Nat)} {session : Nat} {peer peer' : Session}
    (h : Standing accepts session peer) (hstep : Session.Step peer peer')
    : Standing accepts session peer' := by
  cases h with
  | waiting protocol hmem hpeer =>
    rw [hpeer] at hstep
    exact absurd hstep (Session.not_step rfl peer')
  | connected hnot hreachable => exact .connected hnot (hreachable.tail hstep)
  | rejected hnot hpeer =>
    rw [hpeer] at hstep
    exact absurd hstep (Session.not_step rfl peer')

theorem Invariant.session (h : Invariant numOfWorkers s) {session ioService : Nat}
    {peer peer' : Session} (hpeer : s.sessions[session]? = some (ioService, peer))
    (hstep : Session.Step peer peer')
    : Invariant numOfWorkers { s with sessions := s.sessions.set session (ioService, peer') } := by
  constructor
  . simpa using h.dealt
  . dsimp only
    rw [List.length_set, ← h.ioServices]
    apply List.ext_getElem
    . simp
    . intro i _ _
      simp only [List.getElem_map, List.getElem_set]
      split
      . next heq =>
        rw [List.getElem?_eq_some_iff] at hpeer
        rcases hpeer with ⟨hlt, hpeer⟩
        subst heq
        rw [hpeer]
      . rfl
  . intro p i hi
    simpa using h.session_lt hi
  . intro i ioService' peer'' hi
    dsimp only at hi
    rw [List.getElem?_set] at hi
    split at hi
    . next heq =>
      split at hi
      . injection hi with hi
        injection hi with _ hi
        rw [← heq, ← hi]
        apply (h.standing hpeer).step hstep
      . contradiction
    . apply h.standing hi

theorem Invariant.step (hn : 0 < numOfWorkers) (h : Invariant numOfWorkers s)
    (haccepting : Accepting s.accepts) (hstep : Step s s')
    : Invariant numOfWorkers s' ∧ Accepting s'.accepts := by
  cases hstep with
  | accept error hmem hhandle =>
    rcases h.handleAccept hn haccepting hmem error with ⟨s'', hhandle', hinvariant', haccepting'⟩
    rw [handler_eq] at hhandle
    rw [hhandle] at hhandle'
    injection hhandle' with heq
    rw [heq]
    exact ⟨hinvariant', haccepting'⟩
  | session hpeer hstep => exact ⟨h.session hpeer hstep, haccepting⟩

theorem Reachable.invariant (hn : 0 < numOfWorkers) (h : Reachable numOfWorkers s)
    : Invariant numOfWorkers s ∧ Accepting s.accepts := by
  rcases h with ⟨s0, hcreate, hsteps⟩
  induction hsteps with
  | refl =>
    rcases invariant_create hn with ⟨s1, hs1, hinvariant, haccepting⟩
    rw [hcreate] at hs1
    injection hs1 with hs1
    rw [hs1]
    exact ⟨hinvariant, haccepting⟩
  | tail _ hstep ih => apply ih.1.step hn ih.2 hstep

theorem Reachable.pos (h : Reachable numOfWorkers s) : 0 < numOfWorkers := by
  rcases h with ⟨s0, hcreate, -⟩
  apply Nat.pos_of_ne_zero
  intro hzero
  rw [hzero] at hcreate
  contradiction

-- Sessions that are deleted by now count too.
def dealtTo (s : Acceptors) (ioService : Nat) : Nat :=
  (s.sessions.map Prod.fst).count ioService

theorem Invariant.dealtTo_le (h : Invariant numOfWorkers s) {i j : Nat} (hi : i < numOfWorkers)
    (hj : j < numOfWorkers)
    : s.dealtTo i ≤ s.dealtTo j + 1 := by
  unfold dealtTo
  rw [h.ioServices]
  have hle := (IoServicePool.count_dealt hi 1 s.sessions.length).2
  have hge := (IoServicePool.count_dealt hj 1 s.sessions.length).1
  omega

theorem Invariant.ioService_eq (h : Invariant numOfWorkers s) {session ioService : Nat}
    {peer : Session} (hpeer : s.sessions[session]? = some (ioService, peer))
    : ioService = (session + 1) % numOfWorkers := by
  have hmap : (s.sessions.map Prod.fst)[session]? = some ioService := by
    simp [hpeer]
  rw [h.ioServices] at hmap
  have hlt := (List.getElem?_eq_some_iff.mp hpeer).1
  simp only [List.getElem?_map, List.getElem?_range hlt, Option.map_some, Option.some.injEq] at hmap
  apply hmap.symm

theorem Accepting.existsUnique {accepts : List (Protocol × Nat)} (h : Accepting accepts)
    {protocol : Protocol} {session : Nat} (hmem : (protocol, session) ∈ accepts)
    : ∃! p, (p, session) ∈ accepts := by
  rcases h with ⟨tcp, unixDomain, hne, hperm⟩
  refine ⟨protocol, hmem, ?_⟩
  intro p hp
  rw [hperm.mem_iff] at hmem hp
  simp only [List.mem_cons, Prod.mk.injEq, List.not_mem_nil, or_false] at hmem hp
  rcases hmem with ⟨rfl, rfl⟩ | ⟨rfl, rfl⟩
  . rcases hp with ⟨rfl, -⟩ | ⟨-, heq⟩
    . rfl
    . contradiction
  . rcases hp with ⟨-, heq⟩ | ⟨rfl, -⟩
    . exact absurd heq.symm hne
    . rfl

theorem reachable_lifecycle (h : Reachable numOfWorkers s)
    : Accepting s.accepts
      ∧
      (∀ protocol session error, (protocol, session) ∈ s.accepts →
        ∃ s', handler protocol { s with accepts := s.accepts.erase (protocol, session) } session error
          = .ok s')
      ∧
      (∀ session ioService peer, s.sessions[session]? = some (ioService, peer) →
        ioService = (session + 1) % numOfWorkers
          ∧ (((∃! protocol, (protocol, session) ∈ s.accepts)
              ∧ peer.outstanding = [] ∧ peer.log = [])
            ∨ ((∀ protocol, (protocol, session) ∉ s.accepts)
              ∧ (∃ operation, peer.outstanding = [operation]) ∧ .deleted ∉ peer.log)
            ∨ ((∀ protocol, (protocol, session) ∉ s.accepts)
              ∧ peer.outstanding = [] ∧ peer.log.count .deleted = 1
              ∧ ∀ peer', ¬ Session.Step peer peer')))
      ∧
      ∀ i j, i < numOfWorkers → j < numOfWorkers → s.dealtTo i ≤ s.dealtTo j + 1 := by
  have hn := h.pos
  rcases h.invariant hn with ⟨hinvariant, haccepting⟩
  refine ⟨haccepting, ?_, ?_, fun i j hi hj => hinvariant.dealtTo_le hi hj⟩
  . intro protocol session error hmem
    rcases hinvariant.handleAccept hn haccepting hmem error with ⟨s', hs', -⟩
    rw [handler_eq]
    exact ⟨s', hs'⟩
  . intro session ioService peer hpeer
    refine ⟨hinvariant.ioService_eq hpeer, ?_⟩
    cases hinvariant.standing hpeer with
    | waiting protocol hmem hnew =>
      apply Or.inl
      rw [hnew]
      exact ⟨haccepting.existsUnique hmem, rfl, rfl⟩
    | rejected hnot hrejected =>
      apply Or.inr
      apply Or.inr
      rw [hrejected]
      exact ⟨hnot, rfl, rfl, Session.not_step rfl⟩
    | connected hnot hreachable =>
      apply Or.inr
      rcases Session.invariant_reachable hreachable with ⟨phase, hlog, hwaits⟩
      by_cases hdeleted : .deleted ∈ peer.log
      . apply Or.inr
        rcases Session.log_deleted hlog hdeleted with ⟨rfl, hcount⟩
        exact ⟨hnot, hwaits.of_closed, hcount, Session.not_step hwaits.of_closed⟩
      . apply Or.inl
        refine ⟨hnot, ?_, hdeleted⟩
        have hphase : phase ≠ .closed := by
          intro heq
          rw [heq] at hlog
          exact hdeleted (Session.log_closed hlog)
        rcases hwaits.of_ne_closed hphase with hread | ⟨message, hwrite⟩
        . exact ⟨_, hread⟩
        . exact ⟨_, hwrite⟩

theorem reachable_lifecycle_two_workers
    : ∃ s, Reachable 2 s ∧ s.sessions.map Prod.fst = [1, 0, 1, 0] ∧ Accepting s.accepts := by
  have hreachable : Reachable 2 _ :=
    ⟨_, rfl, (Relation.ReflTransGen.single (@Step.accept _ .tcp 0 false _ (by decide) rfl)).tail
      (@Step.accept _ .unixDomain 1 true _ (by decide) rfl)⟩
  exact ⟨_, hreachable, rfl, (reachable_lifecycle hreachable).1⟩

end Lifecycle

end Acceptors
