import Boostcache.Db.Agreement
import Boostcache.Kernel.CommandHandler.Run
import Boostcache.Kernel.Commands.Reply

/-!
The handlers of all sessions and the `Commands` they share. Every read of every client is fed to the
handler of its session, which may execute a command, and the reply is handed to the finish callback
of the session.

As long as the clients only use the hash table and wait for their replies, this is a finite map that
executes every request when its last byte arrives, however the requests are cut into reads and in
whatever order the reads of different clients arrive.
-/

open Cpp Resp CommandHandler Db

structure CommandServer {ρ : Type} (env : Environment ρ) where
  sessions : Nat → CommandHandler
  commands : Commands env

namespace CommandServer

variable {ρ : Type} {env : Environment ρ}

def start : CommandServer env :=
  { sessions := fun _ => fresh, commands := Commands.empty }

structure Delivery where
  client : Nat
  bytes : ByteString
  deriving DecidableEq, Repr

def executeAll (c : Commands env) : List Arguments → Except Fault (Commands env × List ByteString)
  | [] => .ok (c, [])
  | arguments :: more => do
    let (c, reply) ← c.execute arguments
    let (c, replies) ← executeAll c more
    return (c, reply :: replies)

-- The answer is what `feedAndParseCommand` returns and what the finish callback is called with.
def deliver (server : CommandServer env) (delivery : Delivery)
    : Except Fault (CommandServer env × (Bool × List ByteString)) := do
  let (h, needMore, executed) ← step (server.sessions delivery.client) delivery.bytes
  let (commands, replies) ← executeAll server.commands executed
  let sessions := Function.update server.sessions delivery.client h
  return ({ sessions := sessions, commands := commands }, (needMore, replies))

section Reference

abbrev Map := Key → Option Value

def Map.step (m : Map) : Operation → Map × Reply
  | .get key =>
    match m key with
    | none => (m, .nil)
    | some value => (m, .bulk value)
  | .set key value => (Function.update m key (some value), .status (literal "OK"))
  | .del key =>
    match m key with
    | none => (m, .integer (literal "0"))
    | some _ => (Function.update m key none, .integer (literal "1"))

-- The map is told which request is complete now, `none` as long as it goes on with another read.
def Map.deliver (m : Map) : Option Operation → Except Fault (Map × (Bool × List ByteString))
  | none => .ok (m, (true, []))
  | some operation =>
    let (m, reply) := m.step operation
    .ok (m, (false, [reply.encode]))

theorem isReply_step (m : Map) (operation : Operation)
    : IsReply (m.step operation).2.encode (m.step operation).2 := by
  apply isReply_encode
  cases operation with
  | get key =>
    unfold Map.step
    dsimp only
    split
    . trivial
    . trivial
  | set key value =>
    apply not_infix_of_not_mem
    decide
  | del key =>
    unfold Map.step
    dsimp only
    split
    . apply not_infix_of_not_mem
      decide
    . apply not_infix_of_not_mem
      decide

end Reference

section Clients

def arguments : Operation → Arguments
  | .get key => [literal "HGET", key]
  | .set key value => [literal "HSET", key, value]
  | .del key => [literal "HDEL", key]

structure Cut where
  operation : Operation
  reads : List ByteString
  argument_ne_nil : ∀ argument ∈ arguments operation, argument ≠ []
  argument_length_le : ∀ argument ∈ arguments operation, argument.length ≤ 2 ^ 31 - 3
  read_ne_nil : ∀ read ∈ reads, read ≠ []
  flatten_reads : reads.flatten = request (arguments operation)

-- A read and what is complete with it.
abbrev Completing := Delivery × Option Operation

def deliveries (client : Nat) (operation : Operation) : List ByteString → List Completing
  | [] => []
  | [read] => [(⟨client, read⟩, some operation)]
  | read :: reads => (⟨client, read⟩, none) :: deliveries client operation reads

def Cut.deliveries (client : Nat) (cut : Cut) : List Completing :=
  CommandServer.deliveries client cut.operation cut.reads

theorem encodable {operation : Operation}
    (h : ∀ argument ∈ arguments operation, argument.length ≤ 2 ^ 31 - 3)
    : Encodable (arguments operation) where
  ne_nil := by cases operation <;> simp [arguments]
  length_le := by cases operation <;> simp [arguments]
  argument_length_le := h

-- What a client may still send if `sent` is what the server has got of its current request.
inductive Sends (client : Nat) : ByteString → List Completing → Prop
  | nil (sent : ByteString) : Sends client sent []
  | part {sent read : ByteString} {operation : Operation} {rest : List Completing}
      : (∀ argument ∈ arguments operation, argument ≠ [])
          →
        Encodable (arguments operation)
          →
        sent ++ read ≠ []
          →
        sent ++ read <+: request (arguments operation)
          →
        sent ++ read ≠ request (arguments operation)
          →
        Sends client (sent ++ read) rest
          →
        Sends client sent ((⟨client, read⟩, none) :: rest)
  | last {sent read : ByteString} {operation : Operation} {rest : List Completing}
      : (∀ argument ∈ arguments operation, argument ≠ [])
          →
        Encodable (arguments operation)
          →
        sent ++ read = request (arguments operation)
          →
        Sends client [] rest
          →
        Sends client sent ((⟨client, read⟩, some operation) :: rest)

theorem Sends.take {client : Nat} {sent : ByteString} {l l' : List Completing}
    (h : Sends client sent l) (hpref : l' <+: l)
    : Sends client sent l' := by
  induction h generalizing l' with
  | nil sent =>
    rw [List.prefix_nil.mp hpref]
    apply Sends.nil
  | part hne hencodable hread hreq hproper _ ih =>
    cases l' with
    | nil => apply Sends.nil
    | cons d l' =>
      rw [List.cons_prefix_cons] at hpref
      rw [hpref.1]
      apply Sends.part hne hencodable hread hreq hproper (ih hpref.2)
  | last hne hencodable hreq _ ih =>
    cases l' with
    | nil => apply Sends.nil
    | cons d l' =>
      rw [List.cons_prefix_cons] at hpref
      rw [hpref.1]
      apply Sends.last hne hencodable hreq (ih hpref.2)

theorem sends_deliveries {client : Nat} {operation : Operation}
    (hne : ∀ argument ∈ arguments operation, argument ≠ [])
    (hencodable : Encodable (arguments operation)) {sent : ByteString} {reads : List ByteString}
    (hreads : ∀ read ∈ reads, read ≠ [])
    (hflatten : sent ++ reads.flatten = request (arguments operation))
    (hsent : sent ≠ request (arguments operation)) {rest : List Completing}
    (hrest : Sends client [] rest)
    : Sends client sent (deliveries client operation reads ++ rest) := by
  induction reads generalizing sent with
  | nil =>
    rw [List.flatten_nil, List.append_nil] at hflatten
    contradiction
  | cons read reads ih =>
    cases reads with
    | nil =>
      rw [List.flatten_singleton] at hflatten
      apply Sends.last hne hencodable hflatten hrest
    | cons read' reads =>
      have hread := hreads read (by simp)
      have hread' := hreads read' (by simp)
      rw [List.flatten_cons, ← List.append_assoc] at hflatten
      have hproper : sent ++ read ≠ request (arguments operation) := by
        rw [← hflatten]
        simp [hread']
      apply Sends.part hne hencodable (by simp [hread]) ⟨_, hflatten⟩ hproper
      apply ih (fun r hr => hreads r (List.mem_cons_of_mem _ hr)) hflatten hproper

theorem sends_cuts (client : Nat) (cuts : List Cut)
    : Sends client [] (cuts.flatMap (Cut.deliveries client)) := by
  induction cuts with
  | nil => apply Sends.nil
  | cons cut cuts ih =>
    rw [List.flatMap_cons]
    apply sends_deliveries cut.argument_ne_nil (encodable cut.argument_length_le) cut.read_ne_nil
      cut.flatten_reads _ ih
    simp [request_eq]

end Clients

section Execution

theorem execute_arguments (c : Commands env) (operation : Operation)
    : c.execute (arguments operation)
        =
      (do
        let (dbHashTable, reply) ← c.dbHashTable.step operation
        return ({ c with dbHashTable := dbHashTable }, reply)) := by
  cases operation with
  | get key =>
    have harity : (1 : Int) = int32 ([key] : Arguments).length :=
      (int32_of_range (by simp) (by simp)).symm
    unfold arguments
    rw [Commands.find_eq, Commands.find_of_lookup rfl harity]
    rfl
  | set key value =>
    have harity : (2 : Int) = int32 ([key, value] : Arguments).length :=
      (int32_of_range (by simp) (by simp)).symm
    unfold arguments
    rw [Commands.find_eq, Commands.find_of_lookup rfl harity]
    rfl
  | del key =>
    have harity : (1 : Int) = int32 ([key] : Arguments).length :=
      (int32_of_range (by simp) (by simp)).symm
    unfold arguments
    rw [Commands.find_eq, Commands.find_of_lookup rfl harity]
    rfl

def Holds (c : Commands env) (m : Map) : Prop :=
  ∀ key, c.dbHashTable.table.lookup key = m key

theorem step_holds {c : Commands env} {m : Map} (h : Holds c m) (operation : Operation)
    : ∃ t, c.dbHashTable.step operation = .ok (t, (m.step operation).2.encode)
        ∧ ∀ key, t.table.lookup key = (m.step operation).1 key := by
  cases operation with
  | get key =>
    simp only [HashTable.step, HashTable.get_eq, Map.step, h key]
    cases m key with
    | none => exact ⟨_, rfl, h⟩
    | some value => exact ⟨_, rfl, h⟩
  | set key value =>
    refine ⟨{ table := c.dbHashTable.table.insert key value }, rfl, ?_⟩
    intro k
    by_cases hk : k = key
    . rw [hk, AList.lookup_insert]
      simp [Map.step]
    . rw [AList.lookup_insert_ne hk, h k]
      simp [Map.step, hk]
  | del key =>
    simp only [HashTable.step, HashTable.del_eq, Map.step, h key]
    have hlookup := h key
    cases hm : m key with
    | none =>
      rw [hm] at hlookup
      rw [HashTable.erase_of_lookup_eq_none hlookup]
      exact ⟨_, rfl, h⟩
    | some value =>
      refine ⟨{ table := c.dbHashTable.table.erase key }, rfl, ?_⟩
      intro k
      by_cases hk : k = key
      . rw [hk, AList.lookup_erase]
        simp
      . rw [AList.lookup_erase_ne hk, h k]
        simp [hk]

theorem execute_holds {c : Commands env} {m : Map} (h : Holds c m) (operation : Operation)
    : ∃ c', c.execute (arguments operation) = .ok (c', (m.step operation).2.encode)
        ∧ Holds c' (m.step operation).1 := by
  rcases step_holds h operation with ⟨t, hstep, hlookup⟩
  refine ⟨{ c with dbHashTable := t }, ?_, hlookup⟩
  rw [execute_arguments, hstep]
  rfl

end Execution

section Simulation

-- The map together with what it has got of the current request of each client.
structure MapServer where
  sent : Nat → ByteString
  map : Map

def MapServer.start : MapServer :=
  { sent := fun _ => [], map := fun _ => none }

inductive Serves (s : MapServer) (delivery : Delivery) : MapServer → Bool × List ByteString → Prop
  | part {operation : Operation}
      : s.sent delivery.client ++ delivery.bytes <+: request (arguments operation)
          →
        s.sent delivery.client ++ delivery.bytes ≠ request (arguments operation)
          →
        Serves s delivery
          {
            s with
            sent := Function.update s.sent delivery.client
              (s.sent delivery.client ++ delivery.bytes)
          }
          (true, [])
  | last {operation : Operation}
      : s.sent delivery.client ++ delivery.bytes = request (arguments operation)
          →
        Serves s delivery
          {
            sent := Function.update s.sent delivery.client []
            map := (s.map.step operation).1
          }
          (false, [(s.map.step operation).2.encode])

structure Related (server : CommandServer env) (m : Map) (sent : Nat → ByteString) : Prop where
  resume : ∀ client bytes,
    step (server.sessions client) bytes = step fresh (sent client ++ bytes)
  holds : Holds server.commands m

theorem related_start : Related (start : CommandServer env) (fun _ => none) (fun _ => []) where
  resume := by
    intro client bytes
    rfl
  holds := by
    intro key
    rfl

variable {server : CommandServer env} {m : Map} {sent : Nat → ByteString}

theorem Related.update (h : Related server m sent) {client : Nat} {handler : CommandHandler}
    {bytes : ByteString} (hresume : ∀ y, step handler y = step fresh (bytes ++ y))
    {commands : Commands env} {m' : Map} (hholds : Holds commands m')
    : Related
        { sessions := Function.update server.sessions client handler, commands := commands } m'
        (Function.update sent client bytes) where
  resume := by
    intro client' y
    by_cases heq : client' = client
    . rw [heq]
      simp [hresume]
    . simp only [Function.update_of_ne heq]
      apply h.resume
  holds := hholds

theorem deliver_part (h : Related server m sent) {client : Nat} {read : ByteString}
    {operation : Operation} (hne : ∀ argument ∈ arguments operation, argument ≠ [])
    (hencodable : Encodable (arguments operation)) (hread : sent client ++ read ≠ [])
    (hpref : sent client ++ read <+: request (arguments operation))
    (hproper : sent client ++ read ≠ request (arguments operation))
    : ∃ server', deliver server ⟨client, read⟩ = .ok (server', (true, []))
        ∧ Related server' m (Function.update sent client (sent client ++ read)) := by
  rcases step_of_prefix_request hencodable hne _ hread hpref hproper with ⟨handler, hstep, hpending⟩
  refine ⟨_, ?_, h.update (resumable.resume hpending) h.holds⟩
  unfold deliver
  simp only [h.resume, hstep, ok_bind]
  rfl

theorem deliver_last (h : Related server m sent) {client : Nat} {read : ByteString}
    {operation : Operation} (hne : ∀ argument ∈ arguments operation, argument ≠ [])
    (hencodable : Encodable (arguments operation))
    (hread : sent client ++ read = request (arguments operation))
    : ∃ server', deliver server ⟨client, read⟩
          = .ok (server', (false, [(m.step operation).2.encode]))
        ∧ Related server' (m.step operation).1 (Function.update sent client []) := by
  have hstep := step_request hencodable hne []
  rw [List.append_nil, ← hread] at hstep
  rcases execute_holds h.holds operation with ⟨c', hexecute, hholds⟩
  have hresume (y : ByteString) : step fresh y = step fresh ([] ++ y) := rfl
  refine ⟨_, ?_, h.update hresume hholds⟩
  unfold deliver executeAll
  simp only [h.resume, hstep, ok_bind, hexecute]
  rfl

theorem sends_update {client : Nat} {read : ByteString} {completes : Option Operation}
    {schedule : List Completing}
    (hsends : ∀ client', Sends client' (sent client')
      (((⟨client, read⟩, completes) :: schedule).filter (·.1.client == client')))
    {bytes : ByteString} (hbytes : Sends client bytes (schedule.filter (·.1.client == client)))
    (client' : Nat)
    : Sends client' (Function.update sent client bytes client')
        (schedule.filter (·.1.client == client')) := by
  by_cases heq : client' = client
  . rw [heq, Function.update_self]
    apply hbytes
  . have := hsends client'
    rw [List.filter_cons_of_neg (by simpa using Ne.symm heq)] at this
    rw [Function.update_of_ne heq]
    apply this

structure Follows (schedule : List Completing) (server : CommandServer env) (m : Map)
    (sent : Nat → ByteString) : Prop where
  related : Related server m sent
  sends : ∀ client, Sends client (sent client) (schedule.filter (·.1.client == client))

theorem follows_start {schedule : List Completing} {cuts : Nat → List Cut}
    (h : ∀ client, schedule.filter (·.1.client == client)
      <+: (cuts client).flatMap (Cut.deliveries client))
    : Follows schedule (start : CommandServer env) (fun _ => none) (fun _ => []) where
  related := related_start
  sends client := (sends_cuts client (cuts client)).take (h client)

theorem deliver_follows {delivery : Delivery} {completes : Option Operation}
    {schedule : List Completing} (h : Follows ((delivery, completes) :: schedule) server m sent)
    : ∃ server' m' sent' o, deliver server delivery = .ok (server', o)
        ∧ m.deliver completes = .ok (m', o)
        ∧ Serves { sent := sent, map := m } delivery { sent := sent', map := m' } o
        ∧ Follows schedule server' m' sent' := by
  rcases delivery with ⟨client, read⟩
  have hclient := h.sends client
  rw [List.filter_cons_of_pos (by simp)] at hclient
  cases hclient with
  | part hne hencodable hread hpref hproper hrest =>
    rcases deliver_part h.related hne hencodable hread hpref hproper with ⟨server', hdeliver, h'⟩
    exact ⟨server', m, _, _, hdeliver, rfl, .part hpref hproper, h', sends_update h.sends hrest⟩
  | last hne hencodable hread hrest =>
    rcases deliver_last h.related hne hencodable hread with ⟨server', hdeliver, h'⟩
    exact ⟨server', _, _, _, hdeliver, rfl, .last hread, h', sends_update h.sends hrest⟩

end Simulation

theorem run_eq_map (env : Environment ρ) {schedule : List Completing} {cuts : Nat → List Cut}
    (h : ∀ client, schedule.filter (·.1.client == client)
      <+: (cuts client).flatMap (Cut.deliveries client))
    : (Machine.run deliver (start : CommandServer env) (schedule.map Prod.fst)).outputs
        = (Machine.run Map.deliver (fun _ => none) (schedule.map Prod.snd)).outputs
      ∧
      (∃ server m,
        (Machine.run deliver (start : CommandServer env) (schedule.map Prod.fst)).final = .ok server
        ∧ (Machine.run Map.deliver (fun _ => none) (schedule.map Prod.snd)).final = .ok m
        ∧ ∀ key, server.commands.dbHashTable.table.lookup key = m key)
      ∧
      ∀ (m : Map) (operation : Operation),
        IsReply (m.step operation).2.encode (m.step operation).2 := by
  have hstep {x : Completing} {schedule : List Completing} {server : CommandServer env} {m : Map}
      (h : ∃ sent, Follows (x :: schedule) server m sent)
      : ∃ server' m' o, deliver server x.1 = .ok (server', o) ∧ m.deliver x.2 = .ok (m', o)
        ∧ ∃ sent, Follows schedule server' m' sent := by
    rcases h with ⟨sent, hfollows⟩
    rcases deliver_follows hfollows with ⟨server', m', sent', o, hdeliver, hm, -, hfollows'⟩
    exact ⟨server', m', o, hdeliver, hm, sent', hfollows'⟩
  rw [Machine.run_comap, Machine.run_comap]
  rcases Machine.run_simulation
    (R := fun schedule server m => ∃ sent, Follows schedule server m sent) hstep ⟨_, follows_start h⟩
    with ⟨houtputs, server, m, hserver, hm, sent, hfollows⟩
  exact ⟨houtputs, ⟨server, m, hserver, hm, hfollows.related.holds⟩, isReply_step⟩

theorem run_eq_map_two_clients
    : (Machine.run deliver (start : CommandServer Commands.plain)
        [
          ⟨1, literal "*2\r\n$4\r\nHG"⟩,
          ⟨0, literal "*3\r\n$4\r\nHSET\r\n$1\r\nk\r\n$2\r\n\r"⟩,
          ⟨0, literal "\n\r\n"⟩,
          ⟨1, literal "ET\r\n$1\r\nk\r\n"⟩
        ]).outputs
        =
      [
        (true, []),
        (true, []),
        (false, [literal "+OK\r\n"]),
        (false, [literal "$2\r\n\r\n\r\n"])
      ] := by
  let set : Cut :=
    {
      operation := .set (literal "k") (literal "\r\n")
      reads := [literal "*3\r\n$4\r\nHSET\r\n$1\r\nk\r\n$2\r\n\r", literal "\n\r\n"]
      argument_ne_nil := by decide
      argument_length_le := by decide
      read_ne_nil := by decide
      flatten_reads := by decide +kernel
    }
  let get : Cut :=
    {
      operation := .get (literal "k")
      reads := [literal "*2\r\n$4\r\nHG", literal "ET\r\n$1\r\nk\r\n"]
      argument_ne_nil := by decide
      argument_length_le := by decide
      read_ne_nil := by decide
      flatten_reads := by decide +kernel
    }
  let cuts : Nat → List Cut := fun client =>
    match client with
    | 0 => [set]
    | 1 => [get]
    | _ => []
  let schedule : List Completing :=
    [
      (⟨1, literal "*2\r\n$4\r\nHG"⟩, none),
      (⟨0, literal "*3\r\n$4\r\nHSET\r\n$1\r\nk\r\n$2\r\n\r"⟩, none),
      (⟨0, literal "\n\r\n"⟩, some (.set (literal "k") (literal "\r\n"))),
      (⟨1, literal "ET\r\n$1\r\nk\r\n"⟩, some (.get (literal "k")))
    ]
  apply ((@run_eq_map _ Commands.plain schedule cuts _).1).trans
  . decide +kernel
  . intro client
    match client with
    | 0 => decide
    | 1 => decide
    | n + 2 => simp [schedule]

end CommandServer
