import Boostcache.Kernel.CommandHandler.Reparse
import Boostcache.Kernel.Commands.Dispatch
import Boostcache.Kernel.Commands.Sections
import Boostcache.Kernel.Net.Acceptors
import Boostcache.Kernel.Net.CommandServer
import Boostcache.Machine.LockedProgress

/-!
The workers of the server, each of them runs the handlers of the sessions of one `io_service`. A
worker feeds what has been read to the handler of the session and executes the command that is
complete now, which makes it wait for the lock of one of the stores. The workers are interleaved in
any way, between any two statements that look at a store. A worker whose parser reads outside of its
buffer does not come back from this read.
-/

open Boost Cpp CommandHandler Commands Machine

namespace CommandServer

variable {ρ : Type} {env : Environment ρ} {n : Nat} [NeZero n] {mutex : SharedMutex (Fin n)}

-- The first service belongs to the acceptors, the sessions are dealt out from the second one on.
def worker (n : Nat) [NeZero n] (client : Nat) : Fin n :=
  Fin.ofNat n (client + 1)

theorem ioService_eq_worker {s : Acceptors} (h : Acceptors.Reachable n s) {session ioService : Nat}
    {peer : Session} (hpeer : s.sessions[session]? = some (ioService, peer))
    : ioService = worker n session := by
  rw [(h.invariant h.pos).1.ioService_eq hpeer]
  rfl

abbrev Handlers := Nat → CommandHandler

-- `handleRead` up to the moment at which the command waits for a lock.
def enter (handlers : Handlers) (delivery : Delivery)
    : Except Fault (Handlers × ((Bool × List ByteString) ⊕ Section (object env))) := do
  let (parsed, h) ← (handlers delivery.client).parseCommand delivery.bytes
  if parsed then
    let (arguments, h) := h.executeCommand
    let handlers := Function.update handlers delivery.client h
    match ← Commands.enter arguments with
    | .inl reply => return (handlers, .inl (false, [reply]))
    | .inr sec => return (handlers, .inr sec)
  else
    return (Function.update handlers delivery.client h, .inl (true, []))

variable (env mutex) in
def program : Program (Fin n) Store Handlers Delivery ByteString (Bool × List ByteString) Fault where
  mutex := mutex
  object := object env
  enter := enter
  answer reply := (false, [reply])
  serves t delivery := worker n delivery.client = t

variable (env mutex) in
def startWorkers : System (program env mutex) :=
  System.start (Commands.empty : Commands env).stores (fun _ _ => fresh)

section Sequential

-- The server as if every read were handled at once.
def server (a : Shared (program env mutex)) : CommandServer env where
  sessions client := a.priv (worker n client) client
  commands := ofStores a.objects

theorem deliver_of_pending {s : CommandServer env} {delivery : Delivery} {h : CommandHandler}
    (hparse : (s.sessions delivery.client).parseCommand delivery.bytes = .ok (false, h))
    : s.deliver delivery
        =
      .ok
        (
          { s with sessions := Function.update s.sessions delivery.client h },
          (true, [])
        ) := by
  unfold deliver step feedAndParseCommand
  simp only [hparse, ok_bind]
  rfl

theorem step_of_parsed {h h' : CommandHandler} {bytes : ByteString}
    (hparse : h.parseCommand bytes = .ok (true, h'))
    : step h bytes = .ok (h'.reset, false, [h'.commandArguments]) := by
  unfold step feedAndParseCommand
  simp only [hparse, ok_bind]
  rfl

theorem deliver_of_parsed {s : CommandServer env} {delivery : Delivery} {h : CommandHandler}
    (hparse : (s.sessions delivery.client).parseCommand delivery.bytes = .ok (true, h))
    : s.deliver delivery
        =
      (do
        let (commands, reply) ← s.commands.execute h.commandArguments
        let sessions := Function.update s.sessions delivery.client h.reset
        return ({ sessions := sessions, commands := commands }, (false, [reply]))) := by
  unfold deliver
  simp only [step_of_parsed hparse, ok_bind]
  cases hexecute : s.commands.execute h.commandArguments with
  | error e => simp [executeAll, hexecute]
  | ok r => simp [executeAll, hexecute]

theorem enter_cases {handlers handlers' : Handlers} {delivery : Delivery}
    {r : (Bool × List ByteString) ⊕ Section (object env)}
    (h : enter handlers delivery = .ok (handlers', r))
    : ∃ parsed handler, (handlers delivery.client).parseCommand delivery.bytes = .ok (parsed, handler)
        ∧ ((parsed = false ∧ handlers' = Function.update handlers delivery.client handler
            ∧ r = .inl (true, []))
          ∨ (parsed = true ∧ handlers' = Function.update handlers delivery.client handler.reset
            ∧ ((∃ reply, @Commands.enter _ env handler.commandArguments = .ok (.inl reply)
                ∧ r = .inl (false, [reply]))
              ∨ ∃ sec, Commands.enter handler.commandArguments = .ok (.inr sec)
                ∧ r = .inr sec))) := by
  unfold enter at h
  rcases bind_eq_ok.mp h with ⟨⟨parsed, handler⟩, hparse, h⟩
  refine ⟨parsed, handler, hparse, ?_⟩
  cases parsed with
  | false =>
    apply Or.inl
    injection h with h
    injection h with hhandlers hr
    exact ⟨rfl, hhandlers.symm, hr.symm⟩
  | true =>
    apply Or.inr
    rcases bind_eq_ok.mp h with ⟨entered, hentered, h⟩
    cases entered with
    | inl reply =>
      injection h with h
      injection h with hhandlers hr
      exact ⟨rfl, hhandlers.symm, Or.inl ⟨reply, hentered, hr.symm⟩⟩
    | inr sec =>
      injection h with h
      injection h with hhandlers hr
      exact ⟨rfl, hhandlers.symm, Or.inr ⟨sec, hentered, hr.symm⟩⟩

theorem enter_of_parsed {handlers : Handlers} {delivery : Delivery} {handler : CommandHandler}
    {sec : Section (object env)}
    (hparse : (handlers delivery.client).parseCommand delivery.bytes = .ok (true, handler))
    (henter : Commands.enter handler.commandArguments = .ok (.inr sec))
    : enter handlers delivery
        =
      .ok (Function.update handlers delivery.client handler.reset, .inr sec) := by
  unfold enter
  simp only [hparse, ok_bind, executeCommand, henter]
  rfl

variable {a a' : Shared (program env mutex)} {t : Fin n} {delivery : Delivery}

theorem server_update (f : ∀ store, ((program env mutex).object store).State)
    (handler : CommandHandler) (ht : worker n delivery.client = t)
    : server
        {
          objects := f
          priv := Function.update a.priv t (Function.update (a.priv t) delivery.client handler)
          : Shared (program env mutex)
        }
        =
      {
        sessions := Function.update (server a).sessions delivery.client handler
        commands := ofStores f
      } := by
  have hsessions (client : Nat)
      : Function.update a.priv t (Function.update (a.priv t) delivery.client handler)
          (worker n client) client
        = Function.update (server a).sessions delivery.client handler client := by
    by_cases hclient : client = delivery.client
    . rw [hclient, ht, Function.update_self, Function.update_self, Function.update_self]
    . rw [Function.update_of_ne hclient]
      by_cases hworker : worker n client = t
      . rw [hworker, Function.update_self, Function.update_of_ne hclient, ← hworker]
        rfl
      . rw [Function.update_of_ne hworker]
        rfl
  rw [← funext hsessions]
  rfl

theorem parse_sessions (ht : worker n delivery.client = t)
    : (server a).sessions delivery.client = a.priv t delivery.client := by
  rw [← ht]
  rfl

theorem effect_deliver {o : Bool × List ByteString} (h : Effect a t delivery a' o)
    : (server a).deliver delivery = .ok (server a', o) := by
  cases h with
  | answer ht henter =>
    rcases enter_cases henter with ⟨parsed, handler, hparse, hcases⟩
    rw [← parse_sessions ht] at hparse
    rcases hcases with ⟨rfl, rfl, ho⟩ | ⟨rfl, rfl, ⟨reply, hentered, ho⟩ | ⟨sec, -, ho⟩⟩
    . injection ho with ho
      rw [ho, deliver_of_pending hparse, server_update _ _ ht]
      rfl
    . injection ho with ho
      have hsplits := splits_execute a.objects handler.commandArguments
      rw [hentered] at hsplits
      cases hsplits with
      | reply hexecute =>
        rw [ho, deliver_of_parsed hparse, server_update _ _ ht]
        simp only [server, hexecute, ok_bind]
        rfl
    . contradiction
  | exec ht henter hexec =>
    rcases enter_cases henter with ⟨parsed, handler, hparse, hcases⟩
    rw [← parse_sessions ht] at hparse
    rcases hcases with ⟨-, -, ho⟩ | ⟨rfl, rfl, ⟨reply, -, ho⟩ | ⟨sec, hentered, ho⟩⟩
    . contradiction
    . contradiction
    . injection ho with ho
      subst ho
      have hsplits := splits_execute a.objects handler.commandArguments
      rw [hentered] at hsplits
      cases hsplits with
      | computes hcomputes hexecute =>
        rw [(hcomputes _ _).mp hexec] at hexecute
        rw [deliver_of_parsed hparse, server_update _ _ ht]
        simp only [server, hexecute, ok_bind]
        rfl

theorem fault_cases {handlers : Handlers} {delivery : Delivery} {e : Fault}
    (h : @enter _ env handlers delivery = .error e)
    : (handlers delivery.client).parseCommand delivery.bytes = .error e
      ∨
      ∃ handler, (handlers delivery.client).parseCommand delivery.bytes = .ok (true, handler)
        ∧ @Commands.enter _ env handler.commandArguments = .error e := by
  unfold enter at h
  cases hparse : (handlers delivery.client).parseCommand delivery.bytes with
  | error e' =>
    rw [hparse] at h
    injection h with h
    rw [h]
    exact Or.inl rfl
  | ok r =>
    rcases r with ⟨parsed, handler⟩
    simp only [hparse, ok_bind] at h
    cases parsed with
    | false => contradiction
    | true =>
      refine Or.inr ⟨handler, rfl, ?_⟩
      cases hentered : @Commands.enter _ env handler.commandArguments with
      | error e' =>
        simp only [executeCommand, hentered] at h
        injection h with h
        rw [h]
      | ok entered =>
        simp only [executeCommand, hentered] at h
        cases entered with
        | inl reply => contradiction
        | inr sec => contradiction

theorem deliver_of_fault (ht : worker n delivery.client = t) {e : Fault}
    (h : @enter _ env (a.priv t) delivery = .error e)
    : (server a).deliver delivery = .error e := by
  have hcases := fault_cases h
  rw [← parse_sessions ht] at hcases
  rcases hcases with hparse | ⟨handler, hparse, hentered⟩
  . unfold deliver step feedAndParseCommand
    simp only [hparse, error_bind]
  . have hsplits := splits_execute a.objects handler.commandArguments
    rw [hentered] at hsplits
    cases hsplits with
    | error hexecute =>
      rw [deliver_of_parsed hparse]
      simp only [server, hexecute, error_bind]

end Sequential

section Valid

theorem exec_of_valid {f : Stores env} (hvalid : (ofStores f).Valid) {arguments : Arguments}
    {sec : Section (object env)} (h : Commands.enter arguments = .ok (.inr sec))
    : (∃ s b, (object env sec.index).Exec sec.mode sec.locals (f sec.index) s b)
      ∧
      ∀ s b, (object env sec.index).Exec sec.mode sec.locals (f sec.index) s b
        → (ofStores (Function.update f sec.index s)).Valid := by
  rcases exists_of_enter h with ⟨name, rest, rfl⟩
  have hsplits := splits_execute f (name :: rest)
  rw [h] at hsplits
  cases hsplits with
  | computes hcomputes hexecute =>
    rcases execute_ok hvalid name rest with ⟨c', reply, hok, hvalid'⟩
    rw [hexecute] at hok
    rcases bind_eq_ok.mp hok with ⟨⟨s, b⟩, hx, hc'⟩
    injection hc' with hc'
    injection hc' with hc'
    constructor
    . exact ⟨s, b, (hcomputes s b).mpr hx⟩
    . intro s1 b1 hexec
      have heq := (hcomputes s1 b1).mp hexec
      rw [hx] at heq
      injection heq with heq
      injection heq with hs
      rw [← hs, hc']
      apply hvalid'

variable {a a' : Shared (program env mutex)} {t : Fin n} {delivery : Delivery}

theorem enter_inr {handlers handlers' : Handlers} {sec : Section (object env)}
    (h : enter handlers delivery = .ok (handlers', .inr sec))
    : ∃ arguments, Commands.enter arguments = .ok (.inr sec) := by
  rcases enter_cases h with ⟨parsed, handler, -, hcases⟩
  rcases hcases with ⟨-, -, hr⟩ | ⟨-, -, ⟨reply, -, hr⟩ | ⟨sec', hentered, hr⟩⟩
  . contradiction
  . contradiction
  . injection hr with hr
    rw [hr]
    exact ⟨_, hentered⟩

-- What every operation finds: a tree and its nodes, and handlers between two reads.
variable (a) in
structure Fits : Prop where
  stores : (ofStores a.objects).Valid
  sessions : ∀ client, CommandHandler.Holds ((server a).sessions client).commandString
    ((server a).sessions client)

theorem fits_start
    : Fits
        {
          objects := (Commands.empty : Commands env).stores
          priv := fun _ _ => fresh
          : Shared (program env mutex)
        } where
  stores := valid_empty
  sessions _ := .idle

theorem holds_deliver {s s' : CommandServer env} {o : Bool × List ByteString}
    (hsessions : ∀ client,
      CommandHandler.Holds (s.sessions client).commandString (s.sessions client))
    (h : s.deliver delivery = .ok (s', o)) (client : Nat)
    : CommandHandler.Holds (s'.sessions client).commandString (s'.sessions client) := by
  unfold deliver at h
  rcases bind_eq_ok.mp h with ⟨⟨handler, needMore, executed⟩, hstep, h⟩
  rcases bind_eq_ok.mp h with ⟨⟨commands, replies⟩, -, h⟩
  injection h with h
  injection h with hs
  rw [← hs]
  dsimp only
  by_cases hclient : client = delivery.client
  . rw [hclient, Function.update_self]
    apply ((hsessions delivery.client).answer hstep).1
  . rw [Function.update_of_ne hclient]
    apply hsessions

theorem fits_effect {o : Bool × List ByteString} (hfits : Fits a) (h : Effect a t delivery a' o)
    : Fits a' where
  stores := by
    cases h with
    | answer _ _ => exact hfits.stores
    | exec _ henter hexec =>
      rcases enter_inr henter with ⟨arguments, hentered⟩
      apply (exec_of_valid hfits.stores hentered).2 _ _ hexec
  sessions := holds_deliver hfits.sessions (effect_deliver h)

theorem ends_of_fits (hfits : Fits a) : Ends a := by
  intro t delivery p sec _ henter
  rcases enter_inr henter with ⟨arguments, hentered⟩
  apply (exec_of_valid hfits.stores hentered).1

-- A vector that is executed has a command name.
theorem parse_of_fault (hfits : Fits a) (ht : worker n delivery.client = t) {e : Fault}
    (h : @enter _ env (a.priv t) delivery = .error e)
    : (a.priv t delivery.client).parseCommand delivery.bytes = .error e := by
  rcases fault_cases h with hparse | ⟨handler, hparse, hentered⟩
  . assumption
  . exfalso
    rw [← parse_sessions ht] at hparse
    rcases ((hfits.sessions delivery.client).answer (step_of_parsed hparse)).2
      with hanswer | ⟨name, rest, hanswer⟩
    . simp at hanswer
    . have harguments : handler.commandArguments = name :: rest := by
        simpa using hanswer
      rw [harguments] at hentered
      have hsplits := splits_execute a.objects (name :: rest)
      rw [hentered] at hsplits
      cases hsplits with
      | error hexecute =>
        rcases execute_ok hfits.stores name rest with ⟨c', reply, hok, -⟩
        rw [hexecute] at hok
        contradiction

end Valid

section Runs

variable {history : List (Event (Fin n) Delivery (Bool × List ByteString))}
  {c : System (program env mutex)}

theorem workers_return (h : (startWorkers env mutex).Runs history c)
    : Acc (fun c' c => System.CallFree c c') c
      ∧
      ((∀ c', ¬ System.CallFree c c') → ∀ t, c.phase t = .idle
        ∨ ∃ delivery e, c.phase t = .faulted delivery
          ∧ (c.priv t delivery.client).parseCommand delivery.bytes = .error e) := by
  constructor
  . apply h.acc fits_effect fits_start ends_of_fits
  . intro hstuck t
    rcases h.returns fits_effect fits_start ends_of_fits hstuck t with hidle | ⟨delivery, ht⟩
    . exact Or.inl hidle
    . rcases h.simulates fits_effect fits_start with ⟨a, hsimulates, -, hfits⟩
      have hprepares := hsimulates.threads t
      rw [ht] at hprepares
      rcases hprepares with ⟨hworker, hpriv, e, henter⟩
      refine Or.inr ⟨delivery, e, ht, ?_⟩
      rw [hpriv]
      apply parse_of_fault hfits hworker henter

-- Client 0 is served by the second worker and client 1 by the first one.
def setDelivery : Delivery :=
  { client := 0, bytes := literal "*3\r\n$4\r\nHSET\r\n$1\r\nk\r\n$1\r\nv\r\n" }

def getDelivery (client : Nat) : Delivery :=
  { client := client, bytes := literal "*2\r\n$4\r\nHGET\r\n$1\r\nk\r\n" }

-- The parser looks at the byte in front of the line feed.
def emptyLine : Delivery :=
  { client := 0, bytes := literal "\n" }

abbrev twoWorkers : System (program plain (ownersMutex (Fin 2))) :=
  startWorkers plain (ownersMutex (Fin 2))

theorem parse_setDelivery
    : fresh.parseCommand setDelivery.bytes
        =
      .ok
        (
          true,
          ⟨.multiBulk, setDelivery.bytes, 28, 3, 0, -1, [literal "HSET", literal "k", literal "v"]⟩
        ) := by
  decide +kernel

theorem parse_getDelivery (client : Nat)
    : fresh.parseCommand (getDelivery client).bytes
        =
      .ok
        (
          true,
          ⟨.multiBulk, (getDelivery 1).bytes, 21, 2, 0, -1, [literal "HGET", literal "k"]⟩
        ) := by
  show fresh.parseCommand (getDelivery 1).bytes = _
  decide +kernel

def exchange : List (Event (Fin 2) Delivery (Bool × List ByteString)) :=
  [
    .call 1 setDelivery,
    .call 0 (getDelivery 1),
    .ret 1 (false, [literal "+OK\r\n"]),
    .ret 0 (false, [literal "$1\r\nv\r\n"])
  ]

-- The first worker waits until the second one has left the hash table.
theorem runs_exchange
    : ∃ c, twoWorkers.Runs exchange c ∧ (∀ t, c.phase t = .idle) ∧ c.priv 1 0 = fresh := by
  have hreply : toReplyString (literal "v") = literal "$1\r\nv\r\n" := by
    decide +kernel
  have h0 : twoWorkers.Runs [] twoWorkers := .start
  have h1 := h0.step (.call (t := 1) (x := setDelivery) rfl rfl
    (enter_of_parsed parse_setDelivery rfl))
  have h2 := h1.step (.call (t := 0) (x := getDelivery 1) rfl rfl
    (enter_of_parsed (parse_getDelivery 1) rfl))
  have h3 := h2.step (.lockUpgrade (t := 1) rfl rfl rfl)
  have h4 := h3.step (.lock (t := 1) rfl rfl)
  have h5 := h4.step (.micro (t := 1) rfl rfl)
  have h6 := h5.step (.finish (t := 1) rfl rfl)
  have h7 := h6.step (.unlock (t := 1) rfl)
  have h8 := h7.step (.unlockUpgrade (t := 1) rfl)
  have h9 := h8.step (.lockShared (t := 0) rfl rfl rfl)
  have h10 := h9.step (.ret (t := 1) rfl)
  have h11 := h10.step (.finish (t := 0) rfl rfl)
  have h12 := h11.step (.unlockShared (t := 0) rfl)
  have h13 := h12.step (.ret (t := 0) rfl)
  unfold exchange
  rw [← hreply]
  refine ⟨_, h13, ?_, rfl⟩
  intro t
  match t with
  | 0 => rfl
  | 1 => rfl

theorem runs_emptyLine
    : ∃ c, twoWorkers.Runs (exchange ++ [.call 1 emptyLine]) c ∧ c.phase 0 = .idle
        ∧ c.phase 1 = .faulted emptyLine := by
  rcases runs_exchange with ⟨c, hruns, hidle, hfresh⟩
  have henter : @enter _ plain (c.priv 1) emptyLine = .error .outOfRange := by
    unfold enter
    rw [show emptyLine.client = 0 from rfl, hfresh]
    rfl
  have hfault := hruns.step (.fault (t := 1) (x := emptyLine) (hidle 1) rfl henter)
  refine ⟨_, hfault, ?_, rfl⟩
  apply hidle

theorem workers_return_two_workers
    : ∃ c : System (program plain (ownersMutex (Fin 2))),
        twoWorkers.Runs (exchange ++ [.call 1 emptyLine]) c
        ∧ Acc (fun c' c => System.CallFree c c') c
        ∧ ∀ t, c.phase t = .idle ∨ ∃ delivery e, c.phase t = .faulted delivery
          ∧ (c.priv t delivery.client).parseCommand delivery.bytes = .error e := by
  rcases runs_emptyLine with ⟨c, hruns, hidle, hfaulted⟩
  have hrank : ∀ t, (c.phase t).rank = 0 := by
    intro t
    match t with
    | 0 =>
      rw [hidle]
      rfl
    | 1 =>
      rw [hfaulted]
      rfl
  rcases workers_return hruns with ⟨hacc, hreturn⟩
  refine ⟨c, hruns, hacc, hreturn ?_⟩
  intro c' hcallFree
  rcases hcallFree.cases with ⟨t, p, -, hp⟩ | ⟨t, x, sec, s, l, ht, -⟩
  . rw [hrank t] at hp
    contradiction
  . have := hrank t
    rw [ht] at this
    contradiction

end Runs

section Reference

variable {history : List (Event (Fin n) Delivery (Bool × List ByteString))}
  {c : System (program env mutex)}

def reads (client : Nat) (history : List (Event (Fin n) Delivery (Bool × List ByteString)))
    : List Delivery :=
  (callsOf (worker n client) history).filter (·.client == client)

theorem effects_serve {a a' : Shared (program env mutex)}
    {effects : List ((Fin n × Delivery) × (Bool × List ByteString))}
    (h : Sequential Effect a effects a')
    : ∀ e ∈ effects, worker n e.1.2.client = e.1.1 := by
  induction h with
  | start => simp
  | effect _ heffect ih =>
    intro e he
    rw [List.mem_append, List.mem_singleton] at he
    rcases he with he | rfl
    . apply ih e he
    . cases heffect with
      | answer hserves _ => exact hserves
      | exec hserves _ _ => exact hserves

theorem filter_effects {effects : List ((Fin n × Delivery) × (Bool × List ByteString))}
    (h : ∀ e ∈ effects, worker n e.1.2.client = e.1.1) (client : Nat)
    : (effects.map (·.1.2)).filter (·.client == client)
        =
      (effectsOf (worker n client) effects).filter (·.client == client) := by
  induction effects with
  | nil => rfl
  | cons e effects ih =>
    have he := h e (by simp)
    have heffects := ih (fun e' he' => h e' (List.mem_cons_of_mem e he'))
    rw [List.map_cons, effectsOf_cons]
    by_cases hclient : e.1.2.client = client
    . rw [if_pos (by rw [← he, hclient]), List.filter_cons_of_pos (by simp [hclient]),
        List.filter_cons_of_pos (by simp [hclient]), heffects]
    . rw [List.filter_cons_of_neg (by simp [hclient]), heffects]
      split
      . rw [List.filter_cons_of_neg (by simp [hclient])]
      . rfl

-- `rest` are operations that have been called and not taken effect.
theorem effects_isPrefix {labels : List (Label (Fin n) Delivery (Bool × List ByteString))}
    {progress : Fin n → Progress Delivery (Bool × List ByteString)}
    (hhistory : ∀ t, History t labels (progress t))
    (hserve : ∀ e ∈ labels.filterMap Label.effect?, worker n e.1.2.client = e.1.1)
    {rest : List Delivery} {client : Nat}
    (hrest : rest.filter (·.client == client)
      <+: (progress (worker n client)).pending.filter (·.client == client))
    : ((labels.filterMap Label.effect?).map (·.1.2) ++ rest).filter (·.client == client)
        <+: reads client (labels.filterMap Label.event) := by
  unfold reads
  rw [(hhistory (worker n client)).callsOf_eq, List.filter_append, List.filter_append,
    filter_effects hserve, List.prefix_append_right_inj]
  apply hrest

-- The reads with what is complete with each of them.
theorem exists_schedule {requests : Nat → List Completing} {delivered : List Delivery}
    (h : ∀ client, delivered.filter (·.client == client) <+: (requests client).map Prod.fst)
    : ∃ schedule : List Completing, schedule.map Prod.fst = delivered
        ∧ ∀ client, schedule.filter (·.1.client == client) <+: requests client := by
  induction delivered generalizing requests with
  | nil => exact ⟨[], rfl, fun _ => List.nil_prefix⟩
  | cons delivery delivered ih =>
    have hclient := h delivery.client
    rw [List.filter_cons_of_pos (by simp)] at hclient
    cases hrequests : requests delivery.client with
    | nil =>
      rw [hrequests] at hclient
      simp at hclient
    | cons x further =>
      rw [hrequests, List.map_cons, List.cons_prefix_cons] at hclient
      rcases hclient with ⟨rfl, hfurther⟩
      have hih (client : Nat) : delivered.filter (·.client == client)
          <+: (Function.update requests x.1.client further client).map Prod.fst := by
        by_cases hx : client = x.1.client
        . rw [hx, Function.update_self]
          apply hfurther
        . have := h client
          rw [List.filter_cons_of_neg (by simpa using Ne.symm hx)] at this
          rw [Function.update_of_ne hx]
          apply this
      rcases ih hih with ⟨schedule, hschedule, hprefix⟩
      refine ⟨x :: schedule, by rw [List.map_cons, hschedule], ?_⟩
      intro client
      have hprefix := hprefix client
      by_cases hx : client = x.1.client
      . rw [hx, Function.update_self] at hprefix
        rw [hx, List.filter_cons_of_pos (by simp), hrequests, List.cons_prefix_cons]
        exact ⟨rfl, hprefix⟩
      . rw [Function.update_of_ne hx] at hprefix
        rw [List.filter_cons_of_neg (by simpa using Ne.symm hx)]
        apply hprefix

-- The reads that are still to come go on with requests that the map serves.
def Continues (delivered : List Delivery) (server : CommandServer env) (s : MapServer) : Prop :=
  ∃ schedule : List Completing, schedule.map Prod.fst = delivered
    ∧ Follows schedule server s.map s.sent

theorem deliver_continues {delivery : Delivery} {delivered : List Delivery}
    {server : CommandServer env} {s : MapServer} (h : Continues (delivery :: delivered) server s)
    : ∃ server' s' o, server.deliver delivery = .ok (server', o) ∧ Serves s delivery s' o
        ∧ Continues delivered server' s' := by
  rcases h with ⟨_ | ⟨⟨_, completes⟩, schedule⟩, hschedule, hfollows⟩
  . contradiction
  . injection hschedule with hdelivery hschedule
    dsimp only at hdelivery
    subst hdelivery
    rcases deliver_follows hfollows
      with ⟨server', m', sent', o, hdeliver, -, hserves, hfollows'⟩
    exact ⟨server', ⟨sent', m'⟩, o, hdeliver, hserves, schedule, hschedule, hfollows'⟩

theorem linearizes_map {cuts : Nat → List Cut} (h : (startWorkers env mutex).Runs history c)
    (hcuts : ∀ client, reads client history
      <+: ((cuts client).flatMap (Cut.deliveries client)).map Prod.fst)
    : (∃ s : MapServer,
        Linearizes (fun s _ delivery s' o => Serves s delivery s' o) MapServer.start history s
          c.progress
        ∧ (c.Quiet .hashTable → ∀ key,
          (show Db.HashTable from c.objects .hashTable).table.lookup key = s.map key))
      ∧
      ∀ t delivery, c.phase t ≠ .faulted delivery := by
  rcases h.linearizes with ⟨a, ⟨labels, rfl, hsequential, hhistory⟩, hsimulates, -⟩
  have hserve := effects_serve hsequential
  have hserver : Sequential (fun s _ delivery s' o => s.deliver delivery = .ok (s', o))
      (start : CommandServer env) (labels.filterMap Label.effect?) (server a) :=
    hsequential.map (f := server) effect_deliver
  have hcontinues (rest : List Delivery)
      (hrest : ∀ client, rest.filter (·.client == client)
        <+: (c.progress (worker n client)).pending.filter (·.client == client))
      : ∃ s : MapServer,
          Sequential (fun s _ delivery s' o => Serves s delivery s' o) MapServer.start
            (labels.filterMap Label.effect?) s
          ∧ Continues rest (server a) s := by
    refine Sequential.simulation (R := Continues) ?_ hserver rest ?_
    . intro delivery delivered s t s' o u hR hdeliver
      rcases deliver_continues hR with ⟨server', u', o', hdeliver', hserves, hR'⟩
      rw [hdeliver] at hdeliver'
      injection hdeliver' with hdeliver'
      injection hdeliver' with hs ho
      rw [hs, ho]
      exact ⟨u', hserves, hR'⟩
    . rcases exists_schedule
        (fun client => (effects_isPrefix hhistory hserve (hrest client)).trans (hcuts client))
        with ⟨schedule, hschedule, hprefix⟩
      exact ⟨schedule, hschedule, follows_start hprefix⟩
  constructor
  . rcases hcontinues [] (fun _ => List.nil_prefix) with ⟨s, hserves, schedule, -, hfollows⟩
    refine ⟨s, ⟨labels, rfl, hserves, hhistory⟩, ?_⟩
    intro hquiet key
    rw [hsimulates.objects hquiet, ← hfollows.related.holds key]
    rfl
  . intro t delivery ht
    rcases hsimulates.faulted ht with ⟨hworker, e, henter⟩
    have hrest (client : Nat) : [delivery].filter (·.client == client)
        <+: (c.progress (worker n client)).pending.filter (·.client == client) := by
      by_cases hclient : delivery.client = client
      . rw [← hclient, show worker n delivery.client = t from hworker]
        simp [System.progress, ht, Phase.progress, Progress.pending]
      . rw [List.filter_cons_of_neg (by simpa using hclient)]
        apply List.nil_prefix
    rcases hcontinues [delivery] hrest with ⟨s, -, hR⟩
    rcases deliver_continues hR with ⟨server', s', o, hdeliver, -, -⟩
    rw [deliver_of_fault hworker henter] at hdeliver
    contradiction

theorem linearizes_map_two_workers
    : ∃ (c : System (program plain (ownersMutex (Fin 2)))) (s : MapServer),
        twoWorkers.Runs exchange c
        ∧ Linearizes (fun s _ delivery s' o => Serves s delivery s' o) MapServer.start exchange s
          c.progress
        ∧ ∀ key, (show Db.HashTable from c.objects .hashTable).table.lookup key = s.map key := by
  let set : Cut :=
    {
      operation := .set (literal "k") (literal "v")
      reads := [setDelivery.bytes]
      argument_ne_nil := by decide
      argument_length_le := by decide
      read_ne_nil := by decide
      flatten_reads := by decide +kernel
    }
  let get : Cut :=
    {
      operation := .get (literal "k")
      reads := [(getDelivery 1).bytes]
      argument_ne_nil := by decide
      argument_length_le := by decide
      read_ne_nil := by decide
      flatten_reads := by decide +kernel
    }
  let cuts : Nat → List Cut := fun client =>
    match client with
    | 0 => [set]
    | 1 => [get]
    | _ => []
  have hcuts (client : Nat)
      : reads (n := 2) client exchange
          <+: ((cuts client).flatMap (Cut.deliveries client)).map Prod.fst := by
    match client with
    | 0 => decide
    | 1 => decide
    | k + 2 =>
      unfold reads
      rw [List.filter_eq_nil_iff.mpr]
      . apply List.nil_prefix
      . intro d hd
        simp only [exchange, callsOf, Event.call?, List.filterMap, List.mem_map, List.mem_filter,
          List.mem_cons, List.not_mem_nil, or_false] at hd
        rcases hd with ⟨p, ⟨rfl | rfl, -⟩, rfl⟩
        . simp [setDelivery]
        . simp [getDelivery]
  rcases runs_exchange with ⟨c, hruns, hidle, -⟩
  rcases (linearizes_map hruns hcuts).1 with ⟨s, hlin, htable⟩
  refine ⟨c, s, hruns, hlin, htable ?_⟩
  intro t x sec ht
  rw [hidle] at ht
  contradiction

end Reference

end CommandServer
