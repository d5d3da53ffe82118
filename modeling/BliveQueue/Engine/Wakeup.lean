/-
# No lost wake-up

A caller changes the pool or the event queue before it probes the lock, and the loop
takes the lock before it reads them. So when the loop is about to wait with an outdated
fd set or event, the caller that made the change is still on its way to the pipe, or has
already written to it: what is outdated is pending. Only a dispatch empties the pipe, and
the loop reads everything again after it.

The message wakes the loop if the pipe is in its fd set, and it is there if the pool
watched the pipe when the set was built. Nothing sees to that: the creation of the engine
does not look at whether it has registered the pipe, and a client may remove the pipe's
file descriptor like any other. Then the loop sleeps over its messages.
-/

import BliveQueue.Engine.Moves
import BliveQueue.PriQueue.Refinement

namespace BliveQueue.Engine

open BliveQueue.FdPool BliveQueue.Math BliveQueue.Utils BliveQueue.Utils.Engine
open BliveQueue.Utils.Engine.SelectEngineT BliveQueue.Utils.FdPool BliveQueue.Utils.PriQueue
open BliveQueue.Utils.Select
open BliveQueue.Utils.Select.SelectEngine (CallAction)
open BliveQueue.PriQueue (newQueue priQueueCreate_eq)
open BliveQueue.Select (Performs Calls)

variable {s s' : SelectEngineT} {loop : SelectEngine} {c : Caller} {a : CallAction}
variable {obs : SelectEngine.Observation} {ret : SelectRet}
variable {history : List SelectEngineT.Action}

/-! ## What is read under the lock -/

/-- The loop holds the lock. -/
def InLock : Pc → Prop
  | .locked | .watching | .peeked _ | .armed _ _ | .selecting _ _ _ | .selected _ _ => True
  | .returned | .head | .timedOut _ | .running _ | .popping _ | .dispatching => False

/-- The event is the top of the queue, or there is none. -/
def IsTop (q : PriQueueT EngineEvent) : Option EngineEvent → Prop
  | some event => priQueuePeek q = some (.ok, some event)
  | none => ∃ data, priQueuePeek q = some (.resource, data)

/-- The wait is the time from some clock reading to the event, if there is one. -/
def TimedFor (event : Option EngineEvent) (wait : Option Timeval) : Prop :=
  ∃ reading, wait = event.map fun e => waitTime e.time (gettimeofday reading)

/-- What the loop has read so far is what the pool and the queue hold now. -/
def Current (s : SelectEngineT) : Prop :=
  match s.loop.pc with
  | .watching => fdSet s.round.fdPoll = some s.loop.readFds
  | .peeked event =>
    fdSet s.round.fdPoll = some s.loop.readFds ∧ IsTop s.loop.eventQueue (some event)
  | .armed event wait | .selecting event wait _ =>
    fdSet s.round.fdPoll = some s.loop.readFds ∧ IsTop s.loop.eventQueue event ∧
      TimedFor event wait
  | _ => True

/-- A caller is between its change and the pipe, or the pipe holds a message. -/
def Pending (loop : SelectEngine) : Prop :=
  (∃ c, loop.callState c = .reloading ∨ loop.callState c = .signalling) ∨ loop.managePipe ≠ []

/-- The invariant of the engine. -/
structure Awake (s : SelectEngineT) : Prop where
  pool : IsPool s.round.fdPoll
  locked : InLock s.loop.pc → s.loop.runningFlag = some .engine
  holding : ∀ c, s.loop.callState c = .holding → s.loop.runningFlag = some c
  quiet : ¬ s.loop.InCallback → s.loop.callState .engine = .idle
  current : Pending s.loop ∨ Current s

theorem not_inCallback_of_inLock (h : InLock s.loop.pc) : ¬ s.loop.InCallback := by
  unfold SelectEngine.InCallback
  split
  next hpc =>
    rw [hpc] at h
    exact absurd h id
  next hpc =>
    rw [hpc] at h
    exact absurd h id
  next => exact id

/-- While the loop holds the lock, nobody else does. -/
theorem Awake.not_holding (h : Awake s) (hlock : InLock s.loop.pc) (c : Caller) :
    s.loop.callState c ≠ .holding := by
  intro hc
  obtain rfl : c = .engine := by
    have hflag := (h.holding c hc).symm.trans (h.locked hlock)
    exact Option.some.inj hflag
  rw [h.quiet (not_inCallback_of_inLock hlock)] at hc
  cases hc

/-- Outside the lock nothing has to be current. -/
theorem current_of_not_inLock (h : ¬ InLock s.loop.pc) : Current s := by
  unfold Current
  split
  next hpc => exact absurd (by rw [hpc]; trivial) h
  next hpc => exact absurd (by rw [hpc]; trivial) h
  next hpc => exact absurd (by rw [hpc]; trivial) h
  next hpc => exact absurd (by rw [hpc]; trivial) h
  next => trivial

/-! ## The loop -/

/-- A statement under the lock that leaves the lock, the calls and the pipe alone. -/
theorem Awake.read (h : Awake s) (hlock : InLock s.loop.pc)
    (hflag : loop.runningFlag = s.loop.runningFlag) (hcalls : loop.callState = s.loop.callState)
    (hpipe : loop.managePipe = s.loop.managePipe)
    (hcurrent : Current s → Current { s with loop := loop }) : Awake { s with loop := loop } where
  pool := h.pool
  locked _ := hflag.trans (h.locked hlock)
  holding c hc := absurd (hcalls ▸ hc) (h.not_holding hlock c)
  quiet _ := by
    rw [hcalls]
    exact h.quiet (not_inCallback_of_inLock hlock)
  current := by
    rw [Pending, hcalls, hpipe]
    exact h.current.imp_right hcurrent

/-- A statement that ends outside the lock and leaves the calls alone. -/
theorem Awake.outside (h : Awake s) (hpool : IsPool s'.round.fdPoll) (hout : ¬ InLock s'.loop.pc)
    (hcalls : s'.loop.callState = s.loop.callState)
    (hflag : s'.loop.runningFlag = s.loop.runningFlag ∨ InLock s.loop.pc)
    (hquiet : s'.loop.InCallback ∨ s.loop.callState .engine = .idle) : Awake s' where
  pool := hpool
  locked hlock := absurd hlock hout
  holding c hc := by
    rw [hcalls] at hc
    rcases hflag with hsame | hlock
    · rw [hsame]
      exact h.holding c hc
    · exact absurd hc (h.not_holding hlock c)
  quiet hnot := by
    rw [hcalls]
    exact hquiet.resolve_left hnot
  current := Or.inr (current_of_not_inLock hout)

/-- A peek that finds nothing answers nothing. -/
theorem eq_none_of_resource {q : PriQueueT EngineEvent} {data : Option EngineEvent}
    (h : priQueuePeek q = some (.resource, data)) : data = none := by
  obtain ⟨heap, -, hpeek⟩ := Option.bind_eq_some_iff.mp h
  split at hpeek
  next =>
    obtain ⟨elem, -, hread⟩ := Option.bind_eq_some_iff.mp hpeek
    obtain ⟨a, -, hcell⟩ := Option.bind_eq_some_iff.mp hread
    obtain ⟨top, -, heq⟩ := Option.bind_eq_some_iff.mp hcell
    cases heq
  next =>
    cases hpeek
    rfl

theorem inLock_of_eq {pc pc' : Pc} (hpc : pc = pc') (h : InLock pc') : InLock pc := hpc ▸ h

/-- The statements of the loop other than the walk for the fd set and `select`. -/
theorem Awake.perform (h : Awake s) (elsewhere : s.loop.pc ≠ .locked)
    (awake : ∀ e w t, s.loop.pc ≠ .selecting e w t) (performs : Performs s.loop ret obs loop) :
    Awake { s with loop := loop } := by
  have hcallback : ∀ {pc}, s.loop.pc = pc → ¬ ({ s.loop with pc := pc }).InCallback →
      s.loop.callState .engine = .idle := by
    rintro pc rfl hnot
    exact h.quiet hnot
  cases performs with
  | start hpc => exact h.outside h.pool id rfl (Or.inl rfl) (Or.inr (hcallback hpc id))
  | enter hpc free =>
      refine ⟨h.pool, fun _ => rfl, fun c hc => ?_, fun _ => hcallback hpc id, Or.inr trivial⟩
      have hflag := h.holding c hc
      rw [free] at hflag
      cases hflag
  | leave hpc => exact h.outside h.pool id rfl (Or.inl rfl) (Or.inr (hcallback hpc id))
  | watch hpc => exact absurd hpc elsewhere
  | peek hpc top =>
      refine h.read (inLock_of_eq hpc trivial) rfl rfl rfl fun hcurrent => ?_
      rw [Current, hpc] at hcurrent
      exact ⟨hcurrent, top⟩
  | peekNone hpc empty =>
      refine h.read (inLock_of_eq hpc trivial) rfl rfl rfl fun hcurrent => ?_
      rw [Current, hpc] at hcurrent
      obtain rfl := eq_none_of_resource empty
      exact ⟨hcurrent, ⟨none, empty⟩, 0, rfl⟩
  | peekError hpc =>
      exact h.outside h.pool id rfl (Or.inl rfl) (Or.inr (hcallback hpc id))
  | arm hpc =>
      refine h.read (inLock_of_eq hpc trivial) rfl rfl rfl fun hcurrent => ?_
      rw [Current, hpc] at hcurrent
      exact ⟨hcurrent.1, hcurrent.2, _, rfl⟩
  | select hpc =>
      refine h.read (inLock_of_eq hpc trivial) rfl rfl rfl fun hcurrent => ?_
      rw [Current, hpc] at hcurrent
      exact hcurrent
  | wake hpc _ => exact absurd hpc (awake _ _ _)
  | timeOut hpc =>
      exact h.outside h.pool id rfl (Or.inr (inLock_of_eq hpc trivial)) (Or.inr (hcallback hpc id))
  | dispatch hpc =>
      exact h.outside h.pool id rfl (Or.inr (inLock_of_eq hpc trivial)) (Or.inl trivial)
  | interrupt hpc =>
      exact h.outside h.pool id rfl (Or.inr (inLock_of_eq hpc trivial)) (Or.inr (hcallback hpc id))
  | run hpc => exact h.outside h.pool id rfl (Or.inl rfl) (Or.inl trivial)
  | callbackReturns hpc idle => exact h.outside h.pool id rfl (Or.inl rfl) (Or.inr idle)
  | pop hpc popped => exact h.outside h.pool id rfl (Or.inl rfl) (Or.inr (hcallback hpc id))
  | popFails hpc failed popped =>
      exact h.outside h.pool id rfl (Or.inl rfl) (Or.inr (hcallback hpc id))
  | dispatched hpc idle => exact h.outside h.pool id rfl (Or.inl rfl) (Or.inr idle)

/-! ## The calls -/

/-- What was pending stays so when a caller that was not on its way moves on. -/
theorem Pending.of_update (h : Pending s.loop) (callState : CallState)
    (hnot : ¬ (s.loop.callState c = .reloading ∨ s.loop.callState c = .signalling))
    (hcalls : loop.callState = Function.update s.loop.callState c callState)
    (hpipe : loop.managePipe = s.loop.managePipe) : Pending loop := by
  rw [Pending, hcalls, hpipe]
  refine h.imp_left ?_
  rintro ⟨c', hc'⟩
  have hne : c' ≠ c := by
    rintro rfl
    exact hnot hc'
  exact ⟨c', by rwa [Function.update_of_ne hne]⟩

/-- A caller that is on its way makes a change pending. -/
theorem pending_of_update {callState : CallState}
    (hway : callState = .reloading ∨ callState = .signalling)
    (hcalls : loop.callState = Function.update s.loop.callState c callState) : Pending loop := by
  refine Or.inl ⟨c, ?_⟩
  rwa [hcalls, Function.update_self]

/-- The step of a call that leaves the lock alone. -/
theorem Awake.callStep (h : Awake s) (hpool : IsPool s'.round.fdPoll) {callState : CallState}
    (hstate : callState ≠ .holding)
    (hcalls : s'.loop.callState = Function.update s.loop.callState c callState)
    (hpc : s'.loop.pc = s.loop.pc) (hflag : s'.loop.runningFlag = s.loop.runningFlag)
    (hcan : s.loop.CanCall c ∨ s.loop.callState c ≠ .idle)
    (hcurrent : Pending s'.loop ∨ Current s') : Awake s' where
  pool := hpool
  locked hlock := by
    rw [hpc] at hlock
    exact hflag.trans (h.locked hlock)
  holding c' hc' := by
    rw [hcalls] at hc'
    have hne : c' ≠ c := by
      rintro rfl
      rw [Function.update_self] at hc'
      exact hstate hc'
    rw [Function.update_of_ne hne] at hc'
    exact hflag.trans (h.holding c' hc')
  quiet hnot := by
    have hout : ¬ s.loop.InCallback := by
      rwa [SelectEngine.InCallback, hpc] at hnot
    have hidle := h.quiet hout
    have hne : Caller.engine ≠ c := by
      rintro rfl
      exact hcan.elim hout fun hbusy => hbusy hidle
    rw [hcalls, Function.update_of_ne hne]
    exact hidle
  current := hcurrent

theorem Awake.call (h : Awake s) (other : ∀ fds, a ≠ .changeFds fds)
    (calls : Calls s.loop c a obs loop) : Awake { s with loop := loop } := by
  have hcan := calls.can
  have hothers := fun c' (hne : c' ≠ c) => calls.callState_of_ne hne
  cases calls with
  | stamp idle can nonneg =>
      refine h.callStep h.pool (by simp) rfl rfl rfl hcan (h.current.imp_left fun hpending => ?_)
      exact hpending.of_update _ (by simp [idle]) rfl rfl
  | push stamped pushed =>
      exact h.callStep h.pool (by simp) rfl rfl rfl hcan
        (Or.inl (pending_of_update (Or.inl rfl) rfl))
  | changeFds idle can => exact absurd rfl (other _)
  | busy reloading taken =>
      exact h.callStep h.pool (by simp) rfl rfl rfl hcan
        (Or.inl (pending_of_update (Or.inr rfl) rfl))
  | signal signalling =>
      exact h.callStep h.pool (by simp) rfl rfl rfl hcan (Or.inl (Or.inr (by simp)))
  | lock reloading free =>
      have hout : ¬ InLock s.loop.pc := by
        intro hlock
        rw [h.locked hlock] at free
        cases free
      refine ⟨h.pool, fun hlock => absurd hlock hout, fun c' hc' => ?_, fun hnot => ?_,
        Or.inr (current_of_not_inLock hout)⟩
      · rcases eq_or_ne c' c with rfl | hne
        · rfl
        · rw [h.holding c' ((hothers c' hne).symm.trans hc')] at free
          cases free
      · have hidle := h.quiet hnot
        have hne : Caller.engine ≠ c := by
          rintro rfl
          exact hcan.elim hnot fun hbusy => hbusy hidle
        exact (hothers _ hne).trans hidle
  | unlock holding =>
      have hflag := h.holding c holding
      have hout : ¬ InLock s.loop.pc := fun hlock => h.not_holding hlock c holding
      refine ⟨h.pool, fun hlock => absurd hlock hout, fun c' hc' => ?_, fun hnot => ?_,
        Or.inr (current_of_not_inLock hout)⟩
      · have hne : c' ≠ c := by
          rintro rfl
          simp [SelectEngine.setCall] at hc'
        have hflag' := h.holding c' ((hothers c' hne).symm.trans hc')
        exact absurd (Option.some.inj (hflag'.symm.trans hflag)) hne
      · rcases eq_or_ne Caller.engine c with rfl | hne
        · simp [SelectEngine.setCall]
        · exact (hothers _ hne).trans (h.quiet hnot)

/-- Dispatching, the loop is outside its lock and runs callbacks. -/
theorem outside_of_dispatching (hpc : s.loop.pc = .dispatching) :
    ¬ InLock s.loop.pc ∧ s.loop.InCallback := by
  rw [SelectEngine.InCallback, hpc]
  exact ⟨id, trivial⟩

/-! ## Runs -/

theorem Awake.move (h : Awake s) {caller : Option Caller} (move : Moves s caller s') :
    Awake s' := by
  cases move with
  | watch hpc walked =>
      exact h.read (inLock_of_eq hpc trivial) rfl rfl rfl fun _ => walked
  | wake hpc =>
      exact h.read (inLock_of_eq hpc trivial) rfl rfl rfl fun _ => trivial
  | dispatch hpc table =>
      have hlock := inLock_of_eq hpc trivial
      exact h.outside (by rw [table]; exact h.pool) id rfl (Or.inr hlock) (Or.inl trivial)
  | advance hpc pool =>
      obtain ⟨hout, hin⟩ := outside_of_dispatching hpc
      exact h.outside pool hout rfl (Or.inl rfl) (Or.inl hin)
  | perform elsewhere awake performs => exact h.perform elsewhere awake performs
  | manage hpc =>
      obtain ⟨hout, hin⟩ := outside_of_dispatching hpc
      exact h.outside h.pool hout rfl (Or.inl rfl) (Or.inl hin)
  | call other calls => exact h.call other calls
  | refuse => exact ⟨h.pool, h.locked, h.holding, h.quiet, h.current⟩
  | pool can idle table =>
      exact h.callStep table (by simp) rfl rfl rfl (Or.inl can)
        (Or.inl (pending_of_update (Or.inl rfl) rfl))
  | stop => exact ⟨h.pool, h.locked, h.holding, h.quiet, Or.inl (Or.inr (by simp))⟩
  | tick => exact ⟨h.pool, h.locked, h.holding, h.quiet, h.current⟩

theorem Run.awake (run : engineSystem.Trace history s) : Awake s := by
  apply run.invariant (I := fun _ s => Awake s)
  · rintro s ⟨q, t, manageFd, clock, mem, code, hnonneg, hlt, hcreate, hpool, rfl⟩
    have hreachable : Reachable t := ⟨[], .start ⟨manageFd, mem, code, hnonneg, hlt, hpool⟩⟩
    refine ⟨pool_of_reachable hreachable, fun hlock => absurd hlock id, fun c hc => ?_,
      fun _ => rfl, Or.inr trivial⟩
    cases hc
  · rintro history s act s' - hawake - hstep
    exact hawake.move (moves_of_step hawake.pool hstep)

/-! ## The pipe in the fd set -/

/-- The engine watches its pipe. -/
def WatchesPipe (s : SelectEngineT) : Prop :=
  Registered s.round.fdPoll s.loop.manageFd

/-- Between the building of the fd set and the end of `select` the pipe is in the set. -/
def ReadsPipe (loop : SelectEngine) : Prop :=
  match loop.pc with
  | .watching | .peeked _ | .armed _ _ | .selecting _ _ _ => loop.manageFd ∈ loop.readFds
  | _ => True

theorem ReadsPipe.performs (h : ReadsPipe loop) (elsewhere : loop.pc ≠ .locked)
    (performs : Performs loop ret obs loop') : ReadsPipe loop' := by
  unfold ReadsPipe at h
  cases performs with
  | watch hpc => exact absurd hpc elsewhere
  | peek hpc top =>
      rw [hpc] at h
      exact h
  | peekNone hpc empty =>
      rw [hpc] at h
      exact h
  | arm hpc =>
      rw [hpc] at h
      exact h
  | select hpc =>
      rw [hpc] at h
      exact h
  | _ => trivial

/-- The fields that the fd set does not depend on. -/
theorem ReadsPipe.congr (h : ReadsPipe loop) (hpc : loop'.pc = loop.pc)
    (hpipe : loop'.manageFd = loop.manageFd) (hfds : loop'.readFds = loop.readFds) :
    ReadsPipe loop' := by
  rw [ReadsPipe, hpc, hpipe, hfds]
  exact h

theorem ReadsPipe.calls (h : ReadsPipe loop) (calls : Calls loop c a obs loop') :
    ReadsPipe loop' := by
  cases calls <;> exact h.congr rfl rfl rfl

/-- A loop that watches its pipe puts it into the fd set. -/
theorem ReadsPipe.move (h : ReadsPipe s.loop) (hpool : IsPool s.round.fdPoll)
    {caller : Option Caller} (move : Moves s caller s')
    (hwatches : s.loop.pc = .locked → s'.loop.pc ≠ .locked → WatchesPipe s) :
    ReadsPipe s'.loop := by
  cases move with
  | watch hpc walked =>
      obtain ⟨chain, recycled, hpool⟩ := hpool
      obtain ⟨fds, hset, hmem⟩ := Pool.fdSet_eq hpool
      obtain rfl := Option.some.inj (hset.symm.trans walked)
      exact (hmem _).mpr (hwatches hpc Pc.noConfusion)
  | perform elsewhere awake performs => exact h.performs elsewhere performs
  | call other calls => exact h.calls calls
  | wake hpc => trivial
  | dispatch hpc table => trivial
  | advance hpc pool => exact h
  | manage hpc => exact h.congr rfl rfl rfl
  | refuse => exact h
  | pool can idle table => exact h.congr rfl rfl rfl
  | stop => exact h.congr rfl rfl rfl
  | tick => exact h.congr rfl rfl rfl

/-- Whenever the loop builds its fd set, the pool watches the pipe. -/
def SeesPipe (s : SelectEngineT) : SelectEngineT.Action → Prop
  | .perform _ _ => s.loop.pc = .locked → WatchesPipe s
  | _ => True

theorem Run.readsPipe (run : engineSystem.Run SeesPipe history s) : ReadsPipe s.loop := by
  apply run.invariant (I := fun _ s => ReadsPipe s.loop)
  · rintro s ⟨q, t, manageFd, clock, mem, code, -, -, -, -, rfl⟩
    trivial
  · rintro history s act s' prior hreads hsees hstep
    have hpool := (Run.awake prior.trace).pool
    refine hreads.move hpool (moves_of_step hpool hstep) fun hpc hmoved => ?_
    cases act with
    | perform ret readable => exact hsees hpc
    | _ => exact absurd ((pc_of_step (by simp) hstep).trans hpc) hmoved

/-! ## Blocked loops -/

/-- The fd set and the event with its wait are those of the pool and of the queue. -/
def UpToDate (s : SelectEngineT) (event : Option EngineEvent) (wait : Option Timeval) : Prop :=
  (∀ fd, fd ∈ s.loop.readFds ↔ Registered s.round.fdPoll fd) ∧ IsTop s.loop.eventQueue event ∧
    TimedFor event wait

/-- The pipe holds a message, and `select` waits for it. -/
def Signalled (s : SelectEngineT) : Prop :=
  s.loop.managePipe ≠ [] ∧ s.loop.manageFd ∈ s.loop.readFds

/-- Then `select` may find the pipe readable. -/
theorem Signalled.mayFind (h : Signalled s) : s.MayFind [s.loop.manageFd] :=
  ⟨⟨_, h.2, List.mem_singleton_self _⟩, iff_of_true (List.mem_singleton_self _) h.1⟩

/-- No lost wake-up: in every run in which the pool watches the pipe whenever the loop builds
its fd set, a loop that waits in `select` after every call has returned is up to date, or
there is a message in the pipe that `select` returns for. -/
theorem no_lost_wakeup (run : engineSystem.Run SeesPipe history s) {event : Option EngineEvent}
    {wait : Option Timeval} {since : ℕ} (blocked : s.loop.pc = .selecting event wait since)
    (returned : ∀ c, s.loop.callState c = .idle) : UpToDate s event wait ∨ Signalled s := by
  have hawake := Run.awake run.trace
  have hreads := Run.readsPipe run
  rw [ReadsPipe, blocked] at hreads
  rcases hawake.current with (⟨c, hway⟩ | hpipe) | hcurrent
  · rw [returned c] at hway
    rcases hway with hway | hway <;> cases hway
  · exact Or.inr ⟨hpipe, hreads⟩
  · rw [Current, blocked] at hcurrent
    obtain ⟨hwalked, htop, htimed⟩ := hcurrent
    obtain ⟨chain, recycled, hpool⟩ := hawake.pool
    obtain ⟨fds, hfds, hmem⟩ := Pool.fdSet_eq hpool
    obtain rfl := Option.some.inj (hwalked.symm.trans hfds)
    exact Or.inl ⟨hmem, htop, htimed⟩

/-! ## Executions -/

variable {guard : SelectEngineT → SelectEngineT.Action → Prop}

/-- A caller that has not made a call stands nowhere. -/
theorem Run.idle (run : engineSystem.Run guard history s)
    (hnever : ∀ act ∈ history, callerOf act ≠ some c) : s.loop.callState c = .idle := by
  induction run with
  | start initial =>
      obtain ⟨q, t, manageFd, clock, mem, code, -, -, -, -, rfl⟩ := initial
      rfl
  | extend prior _ taken ih =>
      have hmove := moves_of_step (Run.awake prior.trace).pool taken
      rw [hmove.callState_of_ne (hnever _ (by simp))]
      exact ih fun act hact => hnever act (List.mem_append_left _ hact)

/-- If only one caller has made calls and it is idle, then all are. -/
theorem Run.all_idle (run : engineSystem.Run guard history s) (hidle : s.loop.callState c = .idle)
    (honly : ∀ act ∈ history, ∀ c' ∈ callerOf act, c' = c) (c' : Caller) :
    s.loop.callState c' = .idle := by
  by_cases hc : c' = c
  · rw [hc]
    exact hidle
  · exact Run.idle run fun act hact hcaller => hc (honly act hact c' hcaller)

instance (s : SelectEngineT) : (act : SelectEngineT.Action) → Decidable (s.Contract act)
  | .call _ (.push (some a) _) => inferInstanceAs (Decidable (s.loop.eventQueue.cell a = none))
  | .call _ (.push none _) | .call _ (.stamp _) | .call _ (.changeFds _) | .call _ .trylock
  | .call _ .finish | .perform _ _ | .manageFdCallback | .stop | .tick _ =>
    inferInstanceAs (Decidable True)
  | .poolCall _ p => inferInstanceAs (Decidable (p.Contract s.round.fdPoll))

instance (s : SelectEngineT) : Decidable (WatchesPipe s) :=
  inferInstanceAs (Decidable (Registered _ _))

instance (s : SelectEngineT) : (act : SelectEngineT.Action) → Decidable (SeesPipe s act)
  | .perform _ _ => inferInstanceAs (Decidable (s.loop.pc = .locked → WatchesPipe s))
  | .manageFdCallback | .call _ _ | .poolCall _ _ | .stop | .tick _ =>
    inferInstanceAs (Decidable True)

variable [∀ s act, Decidable (guard s act)]

/-- One step that keeps the contracts and passes the guard. -/
def stepNext (guard : SelectEngineT → SelectEngineT.Action → Prop)
    [∀ s act, Decidable (guard s act)] (s : SelectEngineT) (act : SelectEngineT.Action) :
    Option (SelectEngineT.Action × SelectEngineT) :=
  if guard s act ∧ s.Contract act then (s.next act).map fun s' => (act, s') else none

theorem stepNext_sound (act label : SelectEngineT.Action)
    (h : stepNext guard s act = some (label, s')) :
    label = act ∧ guard s label ∧ engineSystem.step s label s' := by
  unfold stepNext at h
  split at h
  next hkept =>
    obtain ⟨s'', hnext, heq⟩ := Option.map_eq_some_iff.mp h
    cases heq
    exact ⟨rfl, hkept.1, hkept.2, hnext⟩
  next => cases h

/-- A new engine with the pipe 3 at clock 0. -/
theorem init_newEngine {t : FdPoll} {mem : PoolMem} {code : BliveErrno}
    (hcreate : createPool 3 mem = some (code, t)) :
    engineSystem.init (createEngine (newQueue eventQueuePriComp priQueueSize true) t 3 0) :=
  ⟨_, t, 3, 0, mem, code, by decide, by decide, priQueueCreate_eq (by decide) true, hcreate, rfl⟩

/-- The end of an execution from a new engine with the pipe 3. -/
def runEngine (guard : SelectEngineT → SelectEngineT.Action → Prop)
    [∀ s act, Decidable (guard s act)] (acts : List SelectEngineT.Action) :
    Option (List SelectEngineT.Action × SelectEngineT) := do
  let (_, t) ← createPool 3 ⟨true, some 0, true⟩
  System.execute (stepNext guard)
    (createEngine (newQueue eventQueuePriComp priQueueSize true) t 3 0) acts

/-- A test passed by an execution of the model is passed at the end of a run. -/
theorem exists_run (guard : SelectEngineT → SelectEngineT.Action → Prop)
    [∀ s act, Decidable (guard s act)] (acts : List SelectEngineT.Action)
    (test : List SelectEngineT.Action × SelectEngineT → Bool)
    (h : (runEngine guard acts).any test = true) :
    ∃ history s, engineSystem.Run guard history s ∧ test (history, s) = true := by
  obtain ⟨⟨history, s⟩, hrun, htest⟩ := (Option.any_eq_true _ _).mp h
  simp only [runEngine, Option.bind_eq_bind, Option.bind_eq_some_iff, Prod.exists] at hrun
  obtain ⟨code, t, hcreate, hexec⟩ := hrun
  have hstart : engineSystem.Run guard [] _ := .start (init_newEngine hcreate)
  exact ⟨history, s,
    hstart.execute (fun s act label s' hnext => (stepNext_sound act label hnext).2) hexec, htest⟩

/-- The loop waits without timers when a thread adds the file descriptor 5: it is not in
the fd set yet, and the pipe holds the message. -/
theorem no_lost_wakeup_after_add :
    ∃ history s, engineSystem.Run SeesPipe history s ∧ s.loop.pc = .selecting none none 0 ∧
      (∀ c, s.loop.callState c = .idle) ∧ Registered s.round.fdPoll 5 ∧ 5 ∉ s.loop.readFds ∧
      Signalled s := by
  obtain ⟨history, s, run, htest⟩ := exists_run SeesPipe
    (List.replicate 5 (.perform .timeout []) ++
      [.poolCall (.thread 0) (.add 5 false ⟨true, some 1, true⟩), .call (.thread 0) .trylock,
        .call (.thread 0) .finish])
    (fun r => r.2.loop.pc = .selecting none none 0 ∧ r.2.loop.callState (.thread 0) = .idle ∧
      Registered r.2.round.fdPoll 5 ∧ 5 ∉ r.2.loop.readFds ∧
      ∀ act ∈ r.1, ∀ c ∈ callerOf act, c = .thread 0)
    (by decide +kernel)
  obtain ⟨hpc, hzero, hregistered, hstale, honly⟩ := of_decide_eq_true htest
  have hidle := Run.all_idle run hzero honly
  refine ⟨history, s, run, hpc, hidle, hregistered, hstale, ?_⟩
  refine (no_lost_wakeup run hpc hidle).resolve_left fun huptodate => hstale ?_
  exact (huptodate.1 5).mpr hregistered

/-- A client has removed the pipe 3 before the loop built its fd set. The loop waits on an empty
set when a thread adds the file descriptor 5, and `select` does not return for its message. -/
theorem exists_lost_wakeup :
    ∃ history s, engineSystem.Trace history s ∧ s.loop.pc = .selecting none none 0 ∧
      (∀ c, s.loop.callState c = .idle) ∧ Registered s.round.fdPoll 5 ∧ s.loop.readFds = [] ∧
      s.loop.managePipe = [.restart] ∧
      (∀ ret readable, ret ≠ .interrupted → s.perform ret readable = none) ∧
      ¬ (UpToDate s none none ∨ Signalled s) := by
  obtain ⟨history, s, run, htest⟩ := exists_run System.anyStep
    ([.perform .timeout [], .poolCall (.thread 0) (.del 3), .call (.thread 0) .trylock,
        .call (.thread 0) .finish] ++ List.replicate 4 (.perform .timeout []) ++
      [.poolCall (.thread 0) (.add 5 false ⟨true, some 1, true⟩), .call (.thread 0) .trylock,
        .call (.thread 0) .finish])
    (fun r => r.2.loop.pc = .selecting none none 0 ∧ r.2.loop.callState (.thread 0) = .idle ∧
      Registered r.2.round.fdPoll 5 ∧ r.2.loop.readFds = [] ∧
      r.2.loop.managePipe = [.restart] ∧ ∀ act ∈ r.1, ∀ c ∈ callerOf act, c = .thread 0)
    (by decide +kernel)
  obtain ⟨hpc, hzero, hregistered, hempty, hpipe, honly⟩ := of_decide_eq_true htest
  refine ⟨history, s, run, hpc, Run.all_idle run hzero honly, hregistered, hempty, hpipe, ?_, ?_⟩
  · intro ret readable hret
    by_contra hreturns
    obtain ⟨s', hperform⟩ := Option.ne_none_iff_exists'.mp hreturns
    obtain ⟨hanswer, hfind, -⟩ := (perform_selecting hpc).mp hperform
    cases ret with
    | interrupted => exact hret rfl
    | timeout =>
        obtain ⟨⟨tm, htm, -⟩, -⟩ := hanswer
        exact absurd htm.symm (Option.some_ne_none tm)
    | ready =>
        obtain ⟨⟨fd, hread, -⟩, -⟩ := hfind rfl
        rw [hempty] at hread
        exact List.not_mem_nil hread
  · rintro (huptodate | hsignalled)
    · have hread := (huptodate.1 5).mpr hregistered
      rw [hempty] at hread
      exact List.not_mem_nil hread
    · have hread := hsignalled.2
      rw [hempty] at hread
      exact List.not_mem_nil hread

end BliveQueue.Engine
