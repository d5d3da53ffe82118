/-
# The engine can be stopped

In every reachable state of an engine whose pipe has been left to it, a stop message brings
`select_engine_perform` to its end, without any new call and without waiting, whatever the
allocator and `select` answer on the way: the calls that are under way and the lock they may
hold, the callback, the dispatch that runs, the event that is due and one more round of the loop
are enough. The message is never overlooked: it stays in the pipe until the callback of the pipe
reads it, it keeps `select` from waiting, and the callback is called in the next dispatch whose
fd set was built after it. Without such a message the loop does not return: none of its error
paths can be reached.
-/

import BliveQueue.Engine.Pipe
import BliveQueue.Engine.Progress
import BliveQueue.FdPool.Ends
import BliveQueue.Math.Forcing
import BliveQueue.Select.LifeCycle

namespace BliveQueue.Engine

open BliveQueue.FdPool BliveQueue.Math BliveQueue.Utils BliveQueue.Utils.Engine
open BliveQueue.Utils.Engine.SelectEngineT BliveQueue.Utils.FdPool BliveQueue.Utils.PriQueue
open BliveQueue.Utils.Select
open BliveQueue.Utils.Select.SelectEngine (CallAction)
open BliveQueue.Select (performs_of_perform calls_of_call)

variable {s s' : SelectEngineT} {c : Caller} {a : CallAction} {ret : SelectRet} {readable : List Fd}
variable {event : EngineEvent} {history : List SelectEngineT.Action} {P Q : SelectEngineT → Prop}
variable {round : Round} {obs : FdPool.Observation} {W : Fd → Round → Prop}
variable {clients : Fd → Prop} {act : SelectEngineT.Action} {loop : SelectEngine}

/-! ## Continuations without a new call -/

/-- The threads can go on to a state with the property and begin no call, while `select` may
find these file descriptors of clients readable. -/
def Leads (clients : Fd → Prop) (s : SelectEngineT) (P : SelectEngineT → Prop) : Prop :=
  engineSystem.Forces (Takes clients) (fun t => Attended t ∧ P t) s

theorem Leads.here (h : Attended s) (hP : P s) : Leads clients s P :=
  System.Forces.here ⟨h, hP⟩

theorem Leads.trans (h : Leads clients s P)
    (hnext : ∀ t, Attended t → P t → Leads clients t Q) : Leads clients s Q :=
  System.Forces.trans h fun t ht => hnext t ht.1 ht.2

theorem Leads.mono (h : Leads clients s P) (himp : ∀ t, P t → Q t) : Leads clients s Q :=
  System.Forces.mono h fun t ht => ⟨ht.1, himp t ht.2⟩

theorem takes_loop (h : Takes clients .loop s act) :
    ∃ ret readable, act = .perform ret readable ∧ ret ≠ .interrupted ∧
      ∀ fd ∈ readable, fd = s.loop.manageFd ∨ clients fd := by
  cases act with
  | perform ret readable => exact ⟨ret, readable, rfl, h⟩
  | _ => exact absurd h id

/-- The loop takes its next statement, with an answer of `select` if it asks for one. -/
theorem Leads.answer (h : Attended s)
    (hpossible : ∃ ret readable s', Takes clients .loop s (.perform ret readable) ∧
      s.perform ret readable = some s')
    (hnext : ∀ ret readable s', Takes clients .loop s (.perform ret readable) →
      s.perform ret readable = some s' → Attended s' → Leads clients s' P) :
    Leads clients s P := by
  obtain ⟨ret, readable, s', htakes, hperform⟩ := hpossible
  refine System.Forces.move .loop ⟨.perform ret readable, s', htakes, trivial, hperform⟩ ?_
  intro act t hact hstep
  obtain ⟨ret', readable', rfl, -⟩ := takes_loop hact
  have hleaves : LeavesPipe s (.perform ret' readable') := ⟨trivial, trivial⟩
  exact hnext ret' readable' t hact hstep.2 (h.step hleaves hstep)

/-- The loop takes its next statement, and no answer of `select` matters. -/
theorem Leads.perform (h : Attended s)
    (hperform : ∀ ret readable, s.perform ret readable = some s')
    (hnext : Attended s' → Leads clients s' P) : Leads clients s P := by
  have htakes : Takes clients .loop s (.perform .ready []) :=
    ⟨SelectRet.noConfusion, fun fd hfd => absurd hfd List.not_mem_nil⟩
  refine Leads.answer h ⟨.ready, [], s', htakes, hperform _ _⟩ ?_
  intro ret readable t _ ht
  obtain rfl := Option.some.inj ((hperform ret readable).symm.trans ht)
  exact hnext

/-- A statement of the loop that leaves the table alone. -/
theorem Leads.plain (h : Attended s) (hplain : Plain s.loop.pc)
    {r : SelectEngine.Observation × SelectEngine} (hloop : ∀ ret, s.loop.perform ret = some r)
    (hnext : Attended (s.withLoop r) → Leads clients (s.withLoop r) P) : Leads clients s P :=
  Leads.perform h (fun ret _ => perform_of_plain hplain (hloop ret)) hnext

/-- The callback of the pipe reads a message. -/
theorem Leads.read (h : Attended s) (hread : s.manageFdCallback = some s')
    (hnext : Attended s' → Leads clients s' P) : Leads clients s P := by
  have hstep : engineSystem.step s .manageFdCallback s' := ⟨trivial, hread⟩
  have hleaves : LeavesPipe s .manageFdCallback := ⟨trivial, trivial⟩
  refine System.Forces.move .read ⟨.manageFdCallback, s', trivial, hstep⟩ ?_
  intro act t hact hstep'
  cases act with
  | manageFdCallback =>
      obtain rfl := Option.some.inj (hread.symm.trans hstep'.2)
      exact hnext (h.step hleaves hstep)
  | _ => exact absurd hact id

/-- A call takes its next step, with any answer of the allocator. -/
theorem Leads.call (h : Attended s) (hbusy : s.loop.callState c ≠ .idle)
    (hroom : ¬ AtFullQueue s c)
    (hnext : ∀ mem remem r,
      s.loop.MallocContract (.call c (nextStep mem remem (s.loop.callState c))) →
      s.loop.call c (nextStep mem remem (s.loop.callState c)) = some r →
      Attended (s.withLoop r) → Leads clients (s.withLoop r) P) : Leads clients s P := by
  have hfits : ∀ mem remem,
      LeavesPipe s (.call c (nextStep mem remem (s.loop.callState c))) := by
    intro mem remem
    refine ⟨?_, trivial⟩
    cases hstate : s.loop.callState c with
    | stamped event =>
        change s.loop.eventQueue.size < s.loop.eventQueue.capacity
        by_contra hfull
        exact hroom ⟨⟨event, hstate⟩, hfull⟩
    | idle | reloading | holding | signalling => trivial
  have hcontract : s.Contract (.call c (nextStep none true (s.loop.callState c))) := by
    cases s.loop.callState c <;> trivial
  obtain ⟨s', hstep⟩ := h.steady.call_goes_on hbusy hroom none true hcontract
  have htakes : Takes clients (.call c) s (.call c (nextStep none true (s.loop.callState c))) :=
    ⟨rfl, none, true, rfl⟩
  refine System.Forces.move (.call c) ⟨_, s', htakes, hstep⟩ ?_
  intro act t hact hstep'
  cases act with
  | call c' a =>
      obtain ⟨rfl, mem, remem, rfl⟩ := hact
      have hcall := hstep'.2
      change s.call c' _ = _ at hcall
      rw [call_nextStep] at hcall
      obtain ⟨r, hr, rfl⟩ := Option.map_eq_some_iff.mp hcall
      exact hnext mem remem r hstep'.1 hr (h.step (hfits mem remem) hstep')
  | _ => exact absurd hact id

/-- What a call of the engine's own thread leaves alone; it may push its event. -/
structure Beside (s s' : SelectEngineT) : Prop where
  round : s'.round = s.round
  pc : s'.loop.pc = s.loop.pc
  on : s'.loop.needContinue = s.loop.needContinue
  queue : s.loop.eventQueue.contents ≤ s'.loop.eventQueue.contents
  stop : .stop ∈ s'.loop.managePipe ↔ .stop ∈ s.loop.managePipe

theorem Beside.refl (s : SelectEngineT) : Beside s s := ⟨rfl, rfl, rfl, le_rfl, Iff.rfl⟩

theorem Beside.trans {s₁ : SelectEngineT} (h : Beside s s₁) (h' : Beside s₁ s') : Beside s s' :=
  ⟨h'.round.trans h.round, h'.pc.trans h.pc, h'.on.trans h.on, h.queue.trans h'.queue,
    h'.stop.trans h.stop⟩

/-- The call of the engine's own thread has returned, and nothing else has happened. -/
def Returned (s s' : SelectEngineT) : Prop := Beside s s' ∧ s'.loop.callState .engine = .idle

theorem Returned.after {s₁ : SelectEngineT} (h : Returned s₁ s') (hbeside : Beside s s₁) :
    Returned s s' :=
  ⟨hbeside.trans h.1, h.2⟩

/-- The loop after the callback of the pipe has read it to its end. -/
def drained (loop : SelectEngine) : SelectEngine :=
  { loop with
    managePipe := []
    needContinue := loop.needContinue && !decide (.stop ∈ loop.managePipe) }

/-- The round is in the callback of the file descriptor. -/
def Calls (fd : Fd) (round : Round) : Prop := ∃ next, round.pc = .inCallback fd next

/-- The stop message has been read, or it is in the pipe. -/
def Asked (loop : SelectEngine) : Prop :=
  loop.needContinue = false ∨ .stop ∈ loop.managePipe

theorem Returned.asked (h : Returned s s') (hasked : Asked s.loop) : Asked s'.loop := by
  obtain ⟨hbeside, -⟩ := h
  rw [Asked, hbeside.on]
  exact hasked.imp_right hbeside.stop.mpr

/-- The statements of the loop leave the pipe alone, keep a set flag set and do not return
unless it is off. -/
theorem Sound.running {loop loop' : SelectEngine} {obs : SelectEngine.Observation}
    (h : Sound loop) (hperform : loop.perform ret = some (obs, loop'))
    (hon : loop.needContinue = true) :
    loop'.needContinue = true ∧ loop'.managePipe = loop.managePipe ∧ loop'.pc ≠ .returned := by
  have hperforms := performs_of_perform hperform
  refine ⟨hperforms.needContinue hon, ?_, ?_⟩
  · cases hperforms <;> rfl
  · cases hperforms with
    | leave hpc =>
        simp only [SelectEngine.perform, hpc, if_pos hon] at hperform
        split at hperform
        · simp at hperform
        · exact absurd hperform.symm (Option.some_ne_none _)
    | peekError hpc => exact absurd hperform (h.not_peekError hpc)
    | popFails hpc failed popped => exact absurd (h.pop_eq hpc popped).1 failed
    | _ => exact Pc.noConfusion

/-- Nobody has asked the loop to stop, and it runs if it was started. -/
structure Unstopped (history : List SelectEngineT.Action) (loop : SelectEngine) : Prop where
  on : loop.needContinue = true
  pipe : .stop ∉ loop.managePipe
  runs : (∃ ret readable, .perform ret readable ∈ history) → loop.pc ≠ .returned

/-- A step of another thread or of the pipe. -/
theorem Unstopped.beside {act : SelectEngineT.Action} {loop loop' : SelectEngine}
    (h : Unstopped history loop) (hact : ∀ ret readable, act ≠ .perform ret readable)
    (hon : loop'.needContinue = loop.needContinue)
    (hpipe : .stop ∈ loop'.managePipe → .stop ∈ loop.managePipe) (hpc : loop'.pc = loop.pc) :
    Unstopped (history ++ [act]) loop' := by
  refine ⟨hon.trans h.on, fun hmem => h.pipe (hpipe hmem), ?_⟩
  rintro ⟨ret, readable, hmem⟩
  rw [hpc]
  rcases List.mem_append.mp hmem with hold | hnew
  · exact h.runs ⟨ret, readable, hold⟩
  · exact absurd (List.mem_singleton.mp hnew).symm (hact ret readable)

theorem Unstopped.step {act : SelectEngineT.Action} (h : Unstopped history s.loop)
    (hsteady : Steady s) (hact : act ≠ .stop) (hstep : engineSystem.step s act s') :
    Unstopped (history ++ [act]) s'.loop := by
  obtain ⟨-, hnext⟩ := hstep
  cases act with
  | perform ret readable =>
      rcases perform_cases hnext with ⟨obs, loop, fds, hloop, heq, -⟩ | ⟨hpc, heq, -⟩
      · obtain ⟨hon, hpipe, hpc⟩ := hsteady.loop.running hloop h.on
        rw [heq]
        exact ⟨hon, hpipe ▸ h.pipe, fun _ => hpc⟩
      · rw [heq]
        refine ⟨h.on, h.pipe, fun _ hreturned => ?_⟩
        exact Pc.noConfusion (hpc.symm.trans hreturned)
  | manageFdCallback =>
      obtain ⟨⟨obs, loop⟩, hcallback, rfl⟩ := loop_of_manageFdCallback hnext
      unfold SelectEngine.manageFdCallback at hcallback
      split at hcallback
      next rest _ hpipe => exact absurd (hpipe ▸ List.mem_cons_self) h.pipe
      next rest _ hpipe =>
        obtain ⟨-, rfl⟩ := Prod.mk.inj (Option.some.inj hcallback)
        refine h.beside (fun _ _ heq => SelectEngineT.Action.noConfusion heq) rfl
          (fun hmem => ?_) rfl
        rw [hpipe]
        exact List.mem_cons_of_mem _ hmem
      next => exact absurd hcallback.symm (Option.some_ne_none _)
  | call c a =>
      obtain ⟨⟨obs, loop⟩, hloop, rfl⟩ := loop_of_call hnext
      have hcalls := calls_of_call hloop
      refine h.beside (fun _ _ heq => SelectEngineT.Action.noConfusion heq)
        hcalls.needContinue ?_ hcalls.frame.1
      cases hcalls with
      | signal =>
          intro hmem
          exact (List.mem_append.mp hmem).resolve_right fun hnew =>
            ManageEvent.noConfusion (List.mem_singleton.mp hnew)
      | _ => exact id
  | poolCall c p =>
      change s.poolCall c p = _ at hnext
      unfold SelectEngineT.poolCall at hnext
      split at hnext
      next =>
        obtain ⟨r, -, rfl⟩ := Option.map_eq_some_iff.mp hnext
        have hloop : ∀ loop, loop = s.loop ∨ loop = s.loop.setCall c .reloading →
            Unstopped (history ++ [.poolCall c p]) loop := by
          rintro loop (rfl | rfl)
          · exact h.beside (fun _ _ heq => SelectEngineT.Action.noConfusion heq) rfl id rfl
          · exact h.beside (fun _ _ heq => SelectEngineT.Action.noConfusion heq) rfl id rfl
        apply hloop
        split
        · exact Or.inl rfl
        · exact Or.inr rfl
      next => exact absurd hnext.symm (Option.some_ne_none _)
  | stop => exact absurd rfl hact
  | tick d =>
      obtain rfl := Option.some.inj hnext
      exact h.beside (fun _ _ heq => SelectEngineT.Action.noConfusion heq) rfl id rfl

/-- A loop that was started runs until it is stopped: in every run without a stop message
`select_engine_perform` does not return, so neither an empty queue nor an event that another
one has overtaken ends it. -/
theorem runs_until_stop (run : engineSystem.Run PushesFit history s)
    (hstarted : ∃ ret readable, .perform ret readable ∈ history) (hstop : .stop ∉ history) :
    s.loop.pc ≠ .returned := by
  have hunstopped : .stop ∉ history → Unstopped history s.loop := by
    apply run.invariant (I := fun history s => .stop ∉ history → Unstopped history s.loop)
    · rintro s ⟨q, t, manageFd, clock, mem, code, -, -, -, -, rfl⟩ -
      refine ⟨rfl, List.not_mem_nil, ?_⟩
      rintro ⟨ret, readable, hmem⟩
      exact absurd hmem List.not_mem_nil
    · intro history s act s' prior ih _ hstep hnone
      rw [List.mem_append, not_or] at hnone
      exact (ih hnone.1).step (Run.steady prior)
        (fun heq => hnone.2 (heq ▸ List.mem_singleton_self _)) hstep
  exact (hunstopped hstop).runs hstarted

instance : (act : SelectEngineT.Action) → Decidable (∃ ret readable, act = .perform ret readable)
  | .perform ret readable => isTrue ⟨ret, readable, rfl⟩
  | .manageFdCallback | .call _ _ | .poolCall _ _ | .stop | .tick _ =>
    isFalse fun ⟨_, _, heq⟩ => SelectEngineT.Action.noConfusion heq

instance : (act : SelectEngineT.Action) → Decidable (act = .stop)
  | .stop => isTrue rfl
  | .perform _ _ | .manageFdCallback | .call _ _ | .poolCall _ _ | .tick _ =>
    isFalse fun heq => SelectEngineT.Action.noConfusion heq

/-- The loop has run its only event and popped it. -/
theorem runs_until_stop_after_event :
    ∃ history s, engineSystem.Run PushesFit history s ∧ s.loop.eventQueue.size = 0 ∧
      s.loop.clock = 10 ∧ s.loop.pc ≠ .returned := by
  obtain ⟨history, s, run, htest⟩ := exists_run PushesFit
    ([.perform .timeout [], .call (.thread 0) (.stamp 10), .call (.thread 0) (.push (some 0) true),
        .call (.thread 0) .trylock, .call (.thread 0) .finish] ++
      List.replicate 5 (.perform .timeout []) ++ [.tick 10] ++
      List.replicate 5 (.perform .timeout []))
    (fun r => (r.2.loop.eventQueue.size = 0 ∧ r.2.loop.clock = 10) ∧
      (∃ act ∈ r.1, ∃ ret readable, act = .perform ret readable) ∧ ∀ act ∈ r.1, ¬act = .stop)
    (by decide +kernel)
  obtain ⟨⟨hsize, hclock⟩, ⟨act, hmem, ret, readable, rfl⟩, hnone⟩ := of_decide_eq_true htest
  have hstop : .stop ∉ history := fun hmem => hnone .stop hmem rfl
  exact ⟨history, s, run, hsize, hclock, runs_until_stop run ⟨ret, readable, hmem⟩ hstop⟩

end BliveQueue.Engine
