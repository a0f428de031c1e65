import Boostcache.Kernel.CommandHandler.State
import Boostcache.Kernel.Commands.Reply

/-!
What the `CommandHandler` hands to `Commands` can be dispatched: the name of the command is there and
`find` only returns callbacks that find the arguments they look at.
-/

open Cpp CommandHandler

namespace Commands

variable {ρ : Type} {env : Environment ρ}

theorem execute_ok {c : Commands env} (hc : c.Valid) (name : ByteString) (rest : Arguments)
    : ∃ c' reply, c.execute (name :: rest) = .ok (c', reply) ∧ c'.Valid := by
  rw [find_eq]
  by_cases hversion : name = literal "VERSION"
  . rw [hversion]
    exact ⟨c, _, rfl, hc⟩
  . rcases find_cases name rest
      with ⟨-, hfind⟩ | ⟨-, n, hfind⟩ | ⟨-, command, hmem, hname, hfind, harity⟩
    . rw [hfind]
      exact ⟨c, _, rfl, hc⟩
    . rw [hfind]
      exact ⟨c, _, rfl, hc⟩
    . rw [← hname] at hversion
      rcases answers_of_mem hmem (fun h => absurd h hversion) name rest harity c hc
        with ⟨c', reply, -, hcallback, hc', -⟩
      rw [hfind]
      exact ⟨c', reply, hcallback, hc'⟩

theorem stage_dispatch {h : CommandHandler} (hreachable : Reachable h)
    : (∃! stage, InStage h stage)
      ∧
      ∀ (x : ByteString) (fed : Fed), h.feedAndParseCommand x = .ok fed →
        (fed.executed ≠ [] ∨ fed.handler.commandString = [] → fed.handler = fresh)
          ∧ ∀ vector ∈ fed.executed,
            (∃ name arguments, vector = name :: arguments ∧ name ≠ [])
              ∧ ((h.commandString ++ x).head? = some star
                → (∀ argument ∈ vector, argument ≠ [])
                  ∧ ∃ f : Frame, f.Matches AnyLine ∧ f.bytes <+: h.commandString ++ x
                    ∧ f.arguments = vector)
              ∧ ∀ (ρ : Type) (env : Environment ρ) (c : Commands env), c.Valid
                → ∃ c' reply, c.execute vector = .ok (c', reply) ∧ c'.Valid := by
  have hholds := hreachable.holds
  refine ⟨hholds.stage, ?_⟩
  intro x fed hfeed
  rw [hholds.feed] at hfeed
  cases outcome_of_feed hfeed with
  | rejected => exact ⟨fun _ => rfl, by simp [leave]⟩
  | pending hpending =>
    refine ⟨?_, by simp [leave]⟩
    intro hor
    rcases hor with hexecuted | hbuffer
    . contradiction
    . exact absurd hbuffer hpending.commandString_ne_nil
  | executed hrequest =>
    refine ⟨fun _ => rfl, ?_⟩
    intro vector hmem
    rw [List.mem_singleton.mp hmem]
    rcases hrequest.exists_name with ⟨name, rest, rfl, hname⟩
    refine ⟨⟨name, rest, rfl, hname⟩, hrequest.exists_frame, ?_⟩
    intro ρ env c hc
    apply execute_ok hc

theorem stage_dispatch_ping
    : ∃! stage,
        InStage (argumentsPending (literal "*1\r\n$4\r\nPI") 1 1 [] 4 (literal "$4\r\nPI")) stage := by
  apply (stage_dispatch _).1
  exact ⟨[literal "*1\r", literal "\n$4\r\nPI"], by decide, by decide +kernel⟩

end Commands
