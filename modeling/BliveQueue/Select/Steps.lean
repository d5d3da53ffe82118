/-
# The steps of the engine

What each statement of the loop and each step of a call can do, one case for each
path of the source, and what a history of steps says about the timer events.
-/

import BliveQueue.Utils.Select

namespace BliveQueue.Select

open BliveQueue.Utils BliveQueue.Utils.PriQueue BliveQueue.Utils.Select
open BliveQueue.Utils.Select.SelectEngine

/-! ## Histories -/

/-- The event that a step pushes. -/
def pushedEvent : Observation → Option EngineEvent
  | .pushed event .ok => some event
  | _ => none

/-- The event whose callback a step runs. -/
def ranEvent : Observation → Option EngineEvent
  | .ran event => some event
  | _ => none

/-- The event that a step removes from the queue. -/
def poppedEvent : Observation → Option EngineEvent
  | .popped _ event => event
  | _ => none

/-- The events of one kind in a history, oldest first. -/
def collect (kind : Observation → Option EngineEvent) (history : List (Action × Observation)) :
    List EngineEvent :=
  history.filterMap fun label => kind label.2

@[simp] theorem collect_nil (kind : Observation → Option EngineEvent) : collect kind [] = [] := rfl

theorem collect_concat (kind : Observation → Option EngineEvent)
    (history : List (Action × Observation)) (act : Action) (obs : Observation) :
    collect kind (history ++ [(act, obs)]) = collect kind history ++ (kind obs).toList := by
  cases hkind : kind obs <;> simp [collect, hkind]

/-! ## The loop -/

/-- The effect of the next statement of `select_engine_perform`. -/
inductive Performs (s : SelectEngine) (ret : SelectRet) : Observation → SelectEngine → Prop
  | start (hpc : s.pc = .returned) : Performs s ret .silent { s with pc := .head }
  | enter (hpc : s.pc = .head) (free : s.runningFlag = none) :
      Performs s ret .silent { s with runningFlag := some .engine, pc := .locked }
  | leave (hpc : s.pc = .head) :
      Performs s ret .silent { s with pc := .returned, needContinue := true }
  | watch (hpc : s.pc = .locked) :
      Performs s ret .silent { s with readFds := s.fdPoll, pc := .watching }
  | peek {event : EngineEvent} (hpc : s.pc = .watching)
      (top : priQueuePeek s.eventQueue = some (.ok, some event)) :
      Performs s ret .silent { s with pc := .peeked event }
  | peekNone {event : Option EngineEvent} (hpc : s.pc = .watching)
      (empty : priQueuePeek s.eventQueue = some (.resource, event)) :
      Performs s ret .silent { s with pc := .armed event none }
  | peekError (hpc : s.pc = .watching) : Performs s ret .silent { s with pc := .returned }
  | arm {event : EngineEvent} (hpc : s.pc = .peeked event) :
      Performs s ret .silent
        { s with pc := .armed (some event) (some (waitTime event.time (gettimeofday s.clock))) }
  | select {event : Option EngineEvent} {wait : Option Timeval} (hpc : s.pc = .armed event wait) :
      Performs s ret .silent { s with pc := .selecting event wait s.clock }
  | wake {event : Option EngineEvent} {wait : Option Timeval} {since : ℕ}
      (hpc : s.pc = .selecting event wait since)
      (may : s.MayAnswer wait since ret) :
      Performs s ret .silent { s with pc := .selected event ret }
  | timeOut {event : Option EngineEvent} (hpc : s.pc = .selected event .timeout) :
      Performs s ret .silent { s with runningFlag := none, pc := .timedOut event }
  | dispatch {event : Option EngineEvent} (hpc : s.pc = .selected event .ready) :
      Performs s ret .silent { s with runningFlag := none, pc := .dispatching }
  | interrupt {event : Option EngineEvent} (hpc : s.pc = .selected event .interrupted) :
      Performs s ret .silent { s with runningFlag := none, pc := .head }
  | run {event : EngineEvent} (hpc : s.pc = .timedOut (some event)) :
      Performs s ret (.ran event) { s with pc := .running event }
  | callbackReturns {event : EngineEvent} (hpc : s.pc = .running event)
      (idle : s.callState .engine = .idle) :
      Performs s ret .silent { s with pc := .popping event }
  | pop {event : EngineEvent} {data : Option EngineEvent} {q : PriQueueT EngineEvent}
      (hpc : s.pc = .popping event)
      (popped : priQueuePopTrywait s.eventQueue (some event) = some (.ok, data, q)) :
      Performs s ret (.popped .ok data) { s with eventQueue := q, pc := .head }
  | popFails {event : EngineEvent} {code : BliveErrno} {data : Option EngineEvent}
      {q : PriQueueT EngineEvent} (hpc : s.pc = .popping event) (failed : code ≠ .ok)
      (popped : priQueuePopTrywait s.eventQueue (some event) = some (code, data, q)) :
      Performs s ret (.popped code none)
        { s with eventQueue := q, pc := .returned, needContinue := true }
  | dispatched (hpc : s.pc = .dispatching) (idle : s.callState .engine = .idle) :
      Performs s ret .silent { s with pc := .head }

variable {s s' : SelectEngine} {obs : Observation} {ret : SelectRet} {c : Caller}

theorem performs_of_perform (h : s.perform ret = some (obs, s')) : Performs s ret obs s' := by
  unfold perform at h
  split at h
  next hpc => cases h; exact .start hpc
  next hpc =>
    split at h
    · split at h
      next hfree => cases h; exact .enter hpc hfree
      next => cases h
    · cases h; exact .leave hpc
  next hpc => cases h; exact .watch hpc
  next hpc =>
    split at h
    next => cases h
    next event hpeek => cases h; exact .peek hpc hpeek
    next event hpeek => cases h; exact .peekNone hpc hpeek
    next => cases h; exact .peekError hpc
  next event hpc => cases h; exact .arm hpc
  next event wait hpc => cases h; exact .select hpc
  next event wait since hpc =>
    split at h
    next hmay => cases h; exact .wake hpc hmay
    next => cases h
  next event sel hpc =>
    cases sel with
    | timeout => cases h; exact .timeOut hpc
    | ready => cases h; exact .dispatch hpc
    | interrupted => cases h; exact .interrupt hpc
  next event hpc =>
    cases event with
    | none => cases h
    | some event => cases h; exact .run hpc
  next event hpc =>
    split at h
    next hidle => cases h; exact .callbackReturns hpc hidle
    next => cases h
  next event hpc =>
    split at h
    next => cases h
    next code data q hpop =>
      split at h
      next hok => subst hok; cases h; exact .pop hpc hpop
      next hfailed => cases h; exact .popFails hpc hfailed hpop
  next hpc =>
    split at h
    next hidle => cases h; exact .dispatched hpc hidle
    next => cases h

/-- The engine's own statements leave the calls and the clock alone and push nothing. -/
theorem Performs.frame (h : Performs s ret obs s') :
    s'.callState = s.callState ∧ s'.events = s.events ∧ s'.clock = s.clock ∧
      pushedEvent obs = none := by
  cases h <;> exact ⟨rfl, rfl, rfl, rfl⟩

/-! ## The calls -/

/-- The effect of the next step of a call. -/
inductive Calls (s : SelectEngine) (c : Caller) :
    CallAction → Observation → SelectEngine → Prop
  | stamp {timeous : ℤ} (idle : s.callState c = .idle) (can : s.CanCall c)
      (nonneg : 0 ≤ timeous) :
      Calls s c (.stamp timeous) .silent
        { s.setCall c (.stamped (newEvent s.events s.clock timeous)) with events := s.events + 1 }
  | push {mem : Option Addr} {remem : Bool} {event : EngineEvent} {code : BliveErrno}
      {q : PriQueueT EngineEvent} (stamped : s.callState c = .stamped event)
      (pushed : priQueuePush s.eventQueue (some event) mem remem = some (code, q)) :
      Calls s c (.push mem remem) (.pushed event code)
        { s.setCall c .reloading with eventQueue := q }
  | changeFds {fds : List Fd} (idle : s.callState c = .idle) (can : s.CanCall c) :
      Calls s c (.changeFds fds) .silent { s.setCall c .reloading with fdPoll := fds }
  | lock (reloading : s.callState c = .reloading) (free : s.runningFlag = none) :
      Calls s c .trylock .silent { s.setCall c .holding with runningFlag := some c }
  | busy (reloading : s.callState c = .reloading) (taken : s.runningFlag ≠ none) :
      Calls s c .trylock .silent (s.setCall c .signalling)
  | unlock (holding : s.callState c = .holding) :
      Calls s c .finish .silent { s.setCall c .idle with runningFlag := none }
  | signal (signalling : s.callState c = .signalling) :
      Calls s c .finish .silent
        { s.setCall c .idle with managePipe := s.managePipe ++ [.restart] }

theorem calls_of_call {a : CallAction} (h : s.call c a = some (obs, s')) : Calls s c a obs s' := by
  unfold SelectEngine.call at h
  split at h
  next timeous =>
    split at h
    next hcan => cases h; exact .stamp hcan.1 hcan.2.1 hcan.2.2
    next => cases h
  next mem remem =>
    split at h
    next event hstamped =>
      split at h
      next => cases h
      next code q hpush => cases h; exact .push hstamped hpush
    next => cases h
  next fds =>
    split at h
    next hcan => cases h; exact .changeFds hcan.1 hcan.2
    next => cases h
  next =>
    split at h
    next hreloading =>
      split at h
      next hfree => cases h; exact .lock hreloading hfree
      next htaken => cases h; exact .busy hreloading htaken
    next => cases h
  next =>
    split at h
    next hholding => cases h; exact .unlock hholding
    next hsignalling => cases h; exact .signal hsignalling
    next => cases h

/-- A call does not move the loop, and it runs and removes nothing. -/
theorem Calls.frame {a : CallAction} (h : Calls s c a obs s') :
    s'.pc = s.pc ∧ s'.clock = s.clock ∧ ranEvent obs = none ∧ poppedEvent obs = none := by
  cases h <;> exact ⟨rfl, rfl, rfl, rfl⟩

/-- A call of one caller leaves the calls of the others alone. -/
theorem Calls.callState_of_ne {a : CallAction} {c' : Caller} (h : Calls s c a obs s')
    (hne : c' ≠ c) : s'.callState c' = s.callState c' := by
  cases h <;> exact Function.update_of_ne hne _ _

/-- A call starts where it may, and otherwise was under way. -/
theorem Calls.can {a : CallAction} (h : Calls s c a obs s') :
    s.CanCall c ∨ s.callState c ≠ .idle := by
  cases h with
  | stamp _ can _ => exact Or.inl can
  | changeFds _ can => exact Or.inl can
  | push stamped _ => exact Or.inr (by simp [stamped])
  | lock reloading _ => exact Or.inr (by simp [reloading])
  | busy reloading _ => exact Or.inr (by simp [reloading])
  | unlock holding => exact Or.inr (by simp [holding])
  | signal signalling => exact Or.inr (by simp [signalling])

/-- The event in the hands of a caller that has just moved is new. -/
theorem Calls.stamped {a : CallAction} {event : EngineEvent} (h : Calls s c a obs s')
    (hst : s'.callState c = .stamped event) :
    ∃ timeous, 0 ≤ timeous ∧ event = newEvent s.events s.clock timeous := by
  cases h with
  | stamp _ _ nonneg =>
      simp only [setCall, Function.update_self, CallState.stamped.injEq] at hst
      exact ⟨_, nonneg, hst.symm⟩
  | _ => simp [setCall] at hst

/-! ## Steps -/

/-- The effect of a step of the system. -/
inductive Steps (s : SelectEngine) : Action → Observation → SelectEngine → Prop
  | perform {ret : SelectRet} {obs : Observation} {s' : SelectEngine}
      (performs : Performs s ret obs s') : Steps s (.perform ret) obs s'
  | manage {rest : List ManageEvent} {needContinue : Bool} (hpc : s.pc = .dispatching) :
      Steps s .manageFdCallback .silent
        { s with managePipe := rest, needContinue := needContinue }
  | call {c : Caller} {a : CallAction} {obs : Observation} {s' : SelectEngine}
      (calls : Calls s c a obs s') : Steps s (.call c a) obs s'
  | stop : Steps s .stop .silent { s with managePipe := s.managePipe ++ [.stop] }
  | tick {d : ℕ} : Steps s (.tick d) .silent { s with clock := s.clock + d }

theorem steps_of_next {act : Action} (h : s.next act = some (obs, s')) : Steps s act obs s' := by
  cases act with
  | perform ret => exact .perform (performs_of_perform h)
  | manageFdCallback =>
      change s.manageFdCallback = _ at h
      unfold SelectEngine.manageFdCallback at h
      split at h
      next hpc _ => cases h; exact .manage hpc
      next hpc _ => cases h; exact .manage hpc
      next => cases h
  | call c a => exact .call (calls_of_call h)
  | stop => cases h; exact .stop
  | tick d => cases h; exact .tick

end BliveQueue.Select
