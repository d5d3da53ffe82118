/-
# Deadlines

Along every run an event whose `select` timed out is due, and stays due until it is
popped, so whatever its own callback schedules is not before it. The invariant
follows the event from the clock reading for its wait to the return of `select`.
-/

import BliveQueue.Select.Steps
import BliveQueue.Select.Times

namespace BliveQueue.Select

open BliveQueue.Utils.Select BliveQueue.Utils.Select.SelectEngine

variable {s s' : SelectEngine} {act : Action} {obs : Observation} {ret : SelectRet} {c : Caller}
variable {a : CallAction}

/-- The event whose `select` has timed out, until it is popped. -/
def Pc.due : Pc → Option EngineEvent
  | .selected event .timeout => event
  | .timedOut event => event
  | .running event => some event
  | .popping event => some event
  | _ => none

/-- The wait of an event was computed from an earlier clock reading, and once `select`
has timed out the event is due. -/
def Timed (clock : ℕ) : Pc → Prop
  | .armed (some e) (some tm) =>
    ∃ reading ≤ clock, tm = waitTime e.time (gettimeofday reading)
  | .selecting (some e) (some tm) since =>
    ∃ reading ≤ since, tm = waitTime e.time (gettimeofday reading)
  | pc => ∀ e, Pc.due pc = some e → Timeval.NotAfter e.time (gettimeofday clock)

/-- The loop is on time; the engine's own thread calls only from callbacks, and what the
callback of an event schedules is not before the event. -/
structure Punctual (s : SelectEngine) : Prop where
  timed : Timed s.clock s.pc
  outside : ¬ s.InCallback → s.callState .engine = .idle
  own : ∀ e event, Pc.due s.pc = some e → s.callState .engine = .stamped event →
    eventQueuePriComp e event = true

theorem Timed.mono {pc : Pc} {clock clock' : ℕ} (h : Timed clock pc) (hle : clock ≤ clock') :
    Timed clock' pc := by
  unfold Timed at *
  split at h
  · obtain ⟨reading, hreading, htm⟩ := h
    exact ⟨reading, hreading.trans hle, htm⟩
  · exact h
  · exact fun e he => (h e he).trans (gettimeofday_notAfter hle)

/-- The loop goes on only when the engine's own thread has no call under way. -/
theorem Punctual.engine_idle (h : Punctual s) (performs : Performs s ret obs s') :
    s.callState .engine = .idle := by
  cases performs with
  | callbackReturns _ idle => exact idle
  | dispatched _ idle => exact idle
  | _ => exact h.outside (by simp [InCallback, *])

theorem Punctual.performs (h : Punctual s) (performs : Performs s ret obs s') : Punctual s' := by
  have hidle := h.engine_idle performs
  obtain ⟨hcalls, -, hclock, -⟩ := performs.frame
  have hidle' : s'.callState .engine = .idle := by rw [hcalls, hidle]
  refine ⟨?_, fun _ => hidle', fun e event _ hstamped => ?_⟩
  · have htimed := h.timed
    rw [hclock]
    cases performs with
    | arm hpc => exact ⟨s.clock, le_rfl, rfl⟩
    | @select event wait hpc =>
        rw [hpc] at htimed
        cases event <;> cases wait <;> exact htimed
    | @wake event wait since hpc may =>
        cases ret with
        | timeout =>
            intro e he
            obtain ⟨⟨tm, rfl, hwaited⟩, -⟩ := may
            obtain rfl : event = some e := he
            rw [hpc] at htimed
            obtain ⟨reading, hreading, rfl⟩ := htimed
            exact notAfter_of_waited e.usec_nonneg hreading hwaited
        | ready => exact nofun
        | interrupted => exact nofun
    | @timeOut event hpc =>
        rw [hpc] at htimed
        exact htimed
    | @run event hpc =>
        rw [hpc] at htimed
        exact htimed
    | @callbackReturns event hpc _ =>
        rw [hpc] at htimed
        exact htimed
    | @peekNone event hpc empty => cases event <;> exact nofun
    | _ => exact nofun
  · rw [hidle'] at hstamped
    exact absurd hstamped nofun

/-- A due event is not after the clock. -/
theorem Punctual.notAfter_clock (h : Punctual s) {e : EngineEvent} (hdue : Pc.due s.pc = some e) :
    Timeval.NotAfter e.time (gettimeofday s.clock) := by
  have htimed := h.timed
  cases hpc : s.pc with
  | selected event ret =>
      rw [hpc] at hdue htimed
      exact htimed e hdue
  | timedOut event =>
      rw [hpc] at hdue htimed
      exact htimed e hdue
  | running event =>
      rw [hpc] at hdue htimed
      exact htimed e hdue
  | popping event =>
      rw [hpc] at hdue htimed
      exact htimed e hdue
  | _ => simp [hpc, Pc.due] at hdue

theorem Punctual.calls (h : Punctual s) (calls : Calls s c a obs s') : Punctual s' := by
  obtain ⟨hpc, hclock, -, -⟩ := calls.frame
  have hwhere : s'.InCallback ↔ s.InCallback := by simp [InCallback, hpc]
  have htimed : Timed s'.clock s'.pc := by
    rw [hpc, hclock]
    exact h.timed
  cases c with
  | thread t =>
      have hengine : s'.callState .engine = s.callState .engine :=
        calls.callState_of_ne (by simp)
      refine ⟨htimed, ?_, ?_⟩
      · rw [hwhere, hengine]
        exact h.outside
      · rw [hpc, hengine]
        exact h.own
  | engine =>
      -- every step of such a call is inside a callback
      have hinside : s.InCallback := by
        by_contra hout
        exact calls.can.elim hout fun hbusy => hbusy (h.outside hout)
      refine ⟨htimed, fun hout => absurd (hwhere.mpr hinside) hout, ?_⟩
      intro e event hdue hstamped
      rw [hpc] at hdue
      obtain ⟨timeous, hnonneg, rfl⟩ := calls.stamped hstamped
      exact eventQueuePriComp_iff.mpr ((h.notAfter_clock hdue).trans (notAfter_eventTime hnonneg))

theorem Punctual.steps (h : Punctual s) (steps : Steps s act obs s') : Punctual s' := by
  cases steps with
  | perform performs => exact h.performs performs
  | call calls => exact h.calls calls
  | manage _ => exact ⟨h.timed, h.outside, h.own⟩
  | stop => exact ⟨h.timed, h.outside, h.own⟩
  | tick => exact ⟨h.timed.mono (Nat.le_add_right _ _), h.outside, h.own⟩

end BliveQueue.Select
