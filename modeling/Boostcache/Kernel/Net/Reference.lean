import Boostcache.Kernel.CommandHandler.Reparse
import Boostcache.Kernel.Commands.Reference
import Boostcache.Kernel.Net.Workers

/-!
The server as its clients see it, whatever they send: one buffer for each of them, a finite map and
a list of bindings. Nothing is left of workers, locks, parser states and trees.
-/

open Boost Cpp CommandHandler Commands Machine

namespace CommandServer

variable {ρ : Type} {env : Environment ρ}

variable (env) in
structure Reference where
  buffers : Nat → ByteString
  stores : Commands.Reference env

namespace Reference

variable (env) in
def start : Reference env :=
  { buffers := fun _ => [], stores := Commands.Reference.empty env }

inductive Serves (s : Reference env) (delivery : Delivery) : Reference env → Bool × List ByteString → Prop
  | waits {buffer : ByteString}
      : reparse (s.buffers delivery.client) delivery.bytes = .ok (buffer, true, [])
          →
        Serves s delivery { s with buffers := Function.update s.buffers delivery.client buffer }
          (true, [])
  | executes {buffer : ByteString} {arguments : Arguments} {stores : Commands.Reference env}
      {reply : ByteString}
      : reparse (s.buffers delivery.client) delivery.bytes = .ok (buffer, false, [arguments])
          →
        Executes env s.stores arguments stores reply
          →
        Serves s delivery
          { buffers := Function.update s.buffers delivery.client buffer, stores := stores }
          (false, [reply])

end Reference

structure Shows (server : CommandServer env) (s : Reference env) : Prop where
  buffers : ∀ client, CommandHandler.Holds (s.buffers client) (server.sessions client)
  stores : Commands.Follows server.commands s.stores

theorem holds_update {sessions : Nat → CommandHandler} {buffers : Nat → ByteString}
    (h : ∀ client, CommandHandler.Holds (buffers client) (sessions client)) {handler : CommandHandler}
    {buffer : ByteString} (hholds : CommandHandler.Holds buffer handler) (client : Nat)
    : ∀ client', CommandHandler.Holds (Function.update buffers client buffer client')
        (Function.update sessions client handler client') := by
  intro client'
  by_cases hclient : client' = client
  . rw [hclient, Function.update_self, Function.update_self]
    exact hholds
  . rw [Function.update_of_ne hclient, Function.update_of_ne hclient]
    apply h

theorem Shows.deliver {server server' : CommandServer env} {s : Reference env} (h : Shows server s)
    {delivery : Delivery} {o : Bool × List ByteString}
    (hdeliver : server.deliver delivery = .ok (server', o))
    : ∃ s', s.Serves delivery s' o ∧ Shows server' s' := by
  unfold CommandServer.deliver at hdeliver
  rcases bind_eq_ok.mp hdeliver with ⟨⟨handler, needMore, executed⟩, hstep, hdeliver⟩
  rcases bind_eq_ok.mp hdeliver with ⟨⟨commands, replies⟩, hexecute, hdeliver⟩
  injection hdeliver with hdeliver
  injection hdeliver with hserver ho
  have hreparse := reparse_of_holds (h.buffers delivery.client) delivery.bytes
  rw [hstep] at hreparse
  rcases (h.buffers delivery.client).answer hstep with ⟨hholds, hanswer | ⟨name, rest, hanswer⟩⟩
  . injection hanswer with hneedMore hexecuted
    subst hneedMore hexecuted
    injection hexecute with hexecute
    injection hexecute with hcommands hreplies
    subst hcommands hreplies hserver ho
    exact ⟨_, .waits hreparse, holds_update h.buffers hholds delivery.client, h.stores⟩
  . injection hanswer with hneedMore hexecuted
    subst hneedMore hexecuted
    rcases h.stores.execute name rest with ⟨commands', stores, reply, hexecute', hexecutes, hstores⟩
    simp only [executeAll, hexecute', ok_bind] at hexecute
    injection hexecute with hexecute
    injection hexecute with hcommands hreplies
    subst hcommands hreplies hserver ho
    exact ⟨_, .executes hreparse hexecutes, holds_update h.buffers hholds delivery.client, hstores⟩

theorem Shows.fault {server : CommandServer env} {s : Reference env} (h : Shows server s)
    {delivery : Delivery} {e : Fault} (hdeliver : server.deliver delivery = .error e)
    : reparse (s.buffers delivery.client) delivery.bytes = .error e := by
  rw [reparse_of_holds (h.buffers delivery.client)]
  unfold CommandServer.deliver at hdeliver
  cases hstep : step (server.sessions delivery.client) delivery.bytes with
  | error e' =>
    rw [hstep] at hdeliver
    injection hdeliver with hdeliver
    rw [hdeliver]
    rfl
  | ok r =>
    exfalso
    rcases r with ⟨handler, answer⟩
    rw [hstep] at hdeliver
    rcases ((h.buffers delivery.client).answer hstep).2 with rfl | ⟨name, rest, rfl⟩
    . contradiction
    . rcases h.stores.execute name rest with ⟨commands, stores, reply, hexecute, -⟩
      simp only [ok_bind, executeAll, hexecute] at hdeliver
      contradiction

section Runs

variable {n : Nat} [NeZero n] {mutex : SharedMutex (Fin n)}
  {history : List (Event (Fin n) Delivery (Bool × List ByteString))}
  {c : System (program env mutex)}

end Runs

end CommandServer
