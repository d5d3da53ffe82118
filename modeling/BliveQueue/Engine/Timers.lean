/-
# Every timer can run

Whatever an engine that is left its pipe has been through, as long as no event is due and nobody
has told it to stop, every event in its queue comes to be run: no new call is needed for it, only
the steps that are under way and the passing of time, and the answers of the allocator do not
matter, nor do those of `select` while no file descriptor of a client becomes readable. Messages
in the pipe keep `select` from timing out, so the loop first reads them in a dispatch. Then it
waits for the top of the queue, runs it and pops it, until the event is on top.
-/

import BliveQueue.Engine.Stop

namespace BliveQueue.Engine

open BliveQueue.FdPool BliveQueue.Math BliveQueue.Utils BliveQueue.Utils.Engine
open BliveQueue.Utils.Engine.SelectEngineT BliveQueue.Utils.FdPool BliveQueue.Utils.PriQueue
open BliveQueue.Utils.Select
open BliveQueue.PriQueue (Stores)

variable {s s' : SelectEngineT} {event top : EngineEvent} {q q' : PriQueueT EngineEvent}
variable {history : List SelectEngineT.Action} {P Q : SelectEngineT → Prop} {c : Caller}
variable {wait : Timeval} {since : ℕ} {loop : SelectEngine}

/-! ## Continuations in time -/

/-- What can happen without a new call: a move of a thread, or time passes. -/
inductive TimedMove
  | now (m : Move)
  | wait (d : ℕ)

/-- The steps of a move while no file descriptor of a client becomes readable. -/
def TakesInTime : TimedMove → SelectEngineT → SelectEngineT.Action → Prop
  | .now m, s, act => Takes (fun _ => False) m s act
  | .wait d, _, act => act = .tick d

/-- The threads can wait and go on to a state with the property. -/
def LeadsInTime (s : SelectEngineT) (P : SelectEngineT → Prop) : Prop :=
  engineSystem.Forces TakesInTime (fun t => Attended t ∧ P t) s

theorem LeadsInTime.trans (h : LeadsInTime s P)
    (hnext : ∀ t, Attended t → P t → LeadsInTime t Q) : LeadsInTime s Q :=
  System.Forces.trans h fun t ht => hnext t ht.1 ht.2

/-- Time passes. -/
theorem LeadsInTime.tick (h : Attended s) (d : ℕ)
    (hnext : Attended { s with loop := { s.loop with clock := s.loop.clock + d } } →
      LeadsInTime { s with loop := { s.loop with clock := s.loop.clock + d } } P) :
    LeadsInTime s P := by
  have hleaves : LeavesPipe s (.tick d) := ⟨trivial, trivial⟩
  have hstep : engineSystem.step s (.tick d)
      { s with loop := { s.loop with clock := s.loop.clock + d } } := ⟨trivial, rfl⟩
  refine System.Forces.move (.wait d) ⟨.tick d, _, rfl, hstep⟩ ?_
  rintro act t rfl ⟨-, hnext'⟩
  obtain rfl := Option.some.inj hnext'
  exact hnext (h.step hleaves hstep)

/-! ## The top of the queue -/

/-- Nobody has told the loop to stop: it is on, and no stop message waits in the pipe. -/
def Unasked (loop : SelectEngine) : Prop :=
  loop.needContinue = true ∧ .stop ∉ loop.managePipe

theorem Unasked.drained (h : Unasked loop) : Unasked (drained loop) := by
  refine ⟨?_, List.not_mem_nil⟩
  simp [Engine.drained, h.1, h.2]

end BliveQueue.Engine
