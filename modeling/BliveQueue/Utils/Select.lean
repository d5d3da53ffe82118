/-
# `select.c`: the engine loop and the threads around it

One thread runs `select_engine_perform`; its statements that touch shared state are
atomic steps, and the field `pc` says which one comes next. Any number of other
threads, and the callbacks on the engine's own thread, call
`select_engine_schedule_add` and the functions that change the fd pool, whose
clock reading, change and reload are separate steps. The clock counts
microseconds and only the step `tick` moves it. `select` returns 0 only after its
timeout has elapsed and while nothing it watches is known to be readable, and a positive
number only if something it watches may be readable: the pipe while it holds a message,
the other file descriptors at any time. A signal may interrupt it at any time.

Events are never freed, so their addresses are never handed out again: the `n`th
event has the identity `n`. The callbacks are arbitrary code; of the fd pool only
the file descriptors are kept here.
-/

import BliveQueue.Utils.PriQueue

namespace BliveQueue.Utils.Select

open BliveQueue.Utils.PriQueue

abbrev Fd := ℤ

/-- `PRI_QUEUE_SIZE`. -/
def priQueueSize : ℤ := 50

/-! ## Times -/

/-- `struct timeval`. -/
structure Timeval where
  sec : ℤ
  usec : ℤ
deriving DecidableEq

def usecPerSec : ℤ := 1000 * 1000

def gettimeofday (clock : ℕ) : Timeval := ⟨clock / usecPerSec, clock % usecPerSec⟩

/-- Borrow a second for a negative number of microseconds. -/
def Timeval.borrow (tm : Timeval) : Timeval :=
  if tm.usec < 0 then ⟨tm.sec - 1, tm.usec + usecPerSec⟩ else tm

/-- No time before zero. -/
def Timeval.floor (tm : Timeval) : Timeval :=
  if tm.sec < 0 then ⟨0, 0⟩ else tm

/-- `event->time` in `select_engine_schedule_add`. A number of microseconds beyond a
second is not carried. -/
def eventTime (now : Timeval) (timeous : ℤ) : Timeval :=
  (Timeval.mk (now.sec + timeous.tdiv usecPerSec) (now.usec + timeous.tmod usecPerSec)).borrow.floor

/-- `tm_wait` in `select_engine_perform`. -/
def waitTime (time now : Timeval) : Timeval :=
  (Timeval.mk (time.sec - now.sec) (time.usec - now.usec)).borrow.floor

/-- The length of a timeout in microseconds. -/
def Timeval.micros (tm : Timeval) : ℤ := tm.sec * usecPerSec + tm.usec

theorem Timeval.borrow_usec_nonneg {tm : Timeval} (h : -usecPerSec ≤ tm.usec) :
    0 ≤ tm.borrow.usec := by
  unfold borrow
  split
  · show 0 ≤ tm.usec + usecPerSec
    omega
  · exact not_lt.mp ‹_›

theorem Timeval.floor_usec_nonneg {tm : Timeval} (h : 0 ≤ tm.usec) : 0 ≤ tm.floor.usec := by
  unfold floor
  split
  · exact le_rfl
  · exact h

theorem eventTime_usec_nonneg (clock : ℕ) (timeous : ℤ) :
    0 ≤ (eventTime (gettimeofday clock) timeous).usec := by
  have hreading : 0 ≤ (clock : ℤ) % usecPerSec := Int.emod_nonneg _ (by decide)
  have hrest : -usecPerSec < timeous.tmod usecPerSec := Int.lt_tmod_of_pos _ (by decide)
  apply Timeval.floor_usec_nonneg
  apply Timeval.borrow_usec_nonneg
  show -usecPerSec ≤ (clock : ℤ) % usecPerSec + timeous.tmod usecPerSec
  omega

/-! ## Events -/

/-- `engine_event_t`; `id` is its address. -/
structure EngineEvent where
  id : ℕ
  time : Timeval
  usec_nonneg : 0 ≤ time.usec
deriving DecidableEq

/-- The event that `select_engine_schedule_add` builds. -/
def newEvent (id : ℕ) (clock : ℕ) (timeous : ℤ) : EngineEvent where
  id := id
  time := eventTime (gettimeofday clock) timeous
  usec_nonneg := eventTime_usec_nonneg clock timeous

/-- `__event_queue_pri_comp`. -/
def eventQueuePriComp (event1 event2 : EngineEvent) : Bool :=
  let tmpS := event1.time.sec - event2.time.sec
  let tmpUs := event1.time.usec - event2.time.usec
  tmpS < 0 || (tmpS = 0 && tmpUs ≤ 0)

/-- `engine_manage_event_t`. -/
inductive ManageEvent
  | restart
  | stop
deriving DecidableEq

/-! ## The engine and its threads -/

/-- Who calls into the engine: a callback on its own thread, or another thread. -/
inductive Caller
  | engine
  | thread (t : ℕ)
deriving DecidableEq

/-- Where a call stands. -/
inductive CallState
  /-- No call is under way. -/
  | idle
  /-- The event is built, the push comes next. -/
  | stamped (event : EngineEvent)
  /-- The change is made, `__engine_reload` comes next. -/
  | reloading
  /-- `__engine_reload` got the lock and gives it back next. -/
  | holding
  /-- `__engine_reload` did not get the lock and writes to the pipe next. -/
  | signalling
deriving DecidableEq

/-- The result of `select`. -/
inductive SelectRet
  | timeout
  | ready
  | interrupted
deriving DecidableEq

/-- The next statement of `select_engine_perform`. -/
inductive Pc
  /-- `select_engine_perform` is not running. -/
  | returned
  /-- Test `need_continue` and take the lock. -/
  | head
  /-- Build the fd set. -/
  | locked
  /-- Peek the event queue. -/
  | watching
  /-- Read the clock for the peeked event. -/
  | peeked (event : EngineEvent)
  /-- Call `select`. -/
  | armed (event : Option EngineEvent) (wait : Option Timeval)
  /-- In `select`, which was called when the clock read `since`. -/
  | selecting (event : Option EngineEvent) (wait : Option Timeval) (since : ℕ)
  /-- Give the lock back. -/
  | selected (event : Option EngineEvent) (ret : SelectRet)
  /-- Call the callback of the event. -/
  | timedOut (event : Option EngineEvent)
  /-- In the callback of the event. -/
  | running (event : EngineEvent)
  /-- Pop the event queue. -/
  | popping (event : EngineEvent)
  /-- In the fd callbacks. -/
  | dispatching
deriving DecidableEq

/-- `select_engine_t`, the threads that use it and the clock. -/
structure SelectEngine where
  eventQueue : PriQueueT EngineEvent
  fdPoll : List Fd
  readFds : List Fd
  needContinue : Bool
  runningFlag : Option Caller
  manageFd : Fd
  managePipe : List ManageEvent
  pc : Pc
  callState : Caller → CallState
  clock : ℕ
  /-- The number of events built so far. -/
  events : ℕ

/-- `select_engine_create`, with its new event queue and the reading end of its pipe. -/
def selectEngineCreate (eventQueue : PriQueueT EngineEvent) (manageFd : Fd) (clock : ℕ) :
    SelectEngine where
  eventQueue := eventQueue
  fdPoll := [manageFd]
  readFds := []
  needContinue := true
  runningFlag := none
  manageFd := manageFd
  managePipe := []
  pc := .returned
  callState := fun _ => .idle
  clock := clock
  events := 0

namespace SelectEngine

variable (s : SelectEngine)

/-- What a step lets the world see. -/
inductive Observation
  | silent
  | pushed (event : EngineEvent) (code : BliveErrno)
  | ran (event : EngineEvent)
  | popped (code : BliveErrno) (event : Option EngineEvent)
deriving DecidableEq

/-- `select` may return 0: there is a timeout, it has elapsed, and the pipe is not
readable if it is watched. -/
def MayTimeOut (wait : Option Timeval) (since : ℕ) : Prop :=
  (∃ tm, wait = some tm ∧ since + tm.micros ≤ s.clock) ∧
    (s.manageFd ∈ s.readFds → s.managePipe = [])

instance (wait : Option Timeval) (since : ℕ) : Decidable (s.MayTimeOut wait since) :=
  match wait with
  | none => isFalse fun h => by simp [MayTimeOut] at h
  | some tm =>
    decidable_of_iff (since + tm.micros ≤ s.clock ∧ (s.manageFd ∈ s.readFds → s.managePipe = []))
      (by simp [MayTimeOut])

/-- `select` may find something readable: the pipe if it holds a message, any other file
descriptor of the fd set at any time. -/
def MayBeReady : Prop := ∃ fd ∈ s.readFds, fd = s.manageFd → s.managePipe ≠ []

instance : Decidable s.MayBeReady :=
  inferInstanceAs (Decidable (∃ fd ∈ s.readFds, fd = s.manageFd → s.managePipe ≠ []))

/-- `select` may answer this; a signal may interrupt it at any time. -/
def MayAnswer (wait : Option Timeval) (since : ℕ) : SelectRet → Prop
  | .timeout => s.MayTimeOut wait since
  | .ready => s.MayBeReady
  | .interrupted => True

instance (wait : Option Timeval) (since : ℕ) :
    (ret : SelectRet) → Decidable (s.MayAnswer wait since ret)
  | .timeout => inferInstanceAs (Decidable (s.MayTimeOut wait since))
  | .ready => inferInstanceAs (Decidable s.MayBeReady)
  | .interrupted => inferInstanceAs (Decidable True)

/-- The next statement of `select_engine_perform`; `ret` is the result of `select`, if
that is the statement. A callback returns only when its own calls have returned. -/
def perform (ret : SelectRet) : Option (Observation × SelectEngine) :=
  match s.pc with
  | .returned => some (.silent, { s with pc := .head })
  | .head =>
    if s.needContinue then
      if s.runningFlag = none then
        some (.silent, { s with runningFlag := some .engine, pc := .locked })
      else none
    else some (.silent, { s with pc := .returned, needContinue := true })
  | .locked => some (.silent, { s with readFds := s.fdPoll, pc := .watching })
  | .watching =>
    match priQueuePeek s.eventQueue with
    | none => none
    | some (.ok, some event) => some (.silent, { s with pc := .peeked event })
    | some (.resource, event) => some (.silent, { s with pc := .armed event none })
    | some _ => some (.silent, { s with pc := .returned })
  | .peeked event =>
    let tmWait := waitTime event.time (gettimeofday s.clock)
    some (.silent, { s with pc := .armed (some event) (some tmWait) })
  | .armed event wait => some (.silent, { s with pc := .selecting event wait s.clock })
  | .selecting event wait since =>
    if s.MayAnswer wait since ret then some (.silent, { s with pc := .selected event ret })
    else none
  | .selected event ret =>
    let pc := match ret with
      | .timeout => .timedOut event
      | .ready => .dispatching
      | .interrupted => .head
    some (.silent, { s with runningFlag := none, pc := pc })
  | .timedOut event => event.map fun e => (.ran e, { s with pc := .running e })
  | .running event =>
    if s.callState .engine = .idle then some (.silent, { s with pc := .popping event }) else none
  | .popping event =>
    match priQueuePopTrywait s.eventQueue (some event) with
    | none => none
    | some (code, data, q) =>
      if code = .ok then some (.popped code data, { s with eventQueue := q, pc := .head })
      else
        some (.popped code none,
          { s with eventQueue := q, pc := .returned, needContinue := true })
  | .dispatching =>
    if s.callState .engine = .idle then some (.silent, { s with pc := .head }) else none

/-- `__manage_fd_callback` reads one message. -/
def manageFdCallback : Option (Observation × SelectEngine) :=
  match s.pc, s.managePipe with
  | .dispatching, .stop :: rest =>
    some (.silent, { s with managePipe := rest, needContinue := false })
  | .dispatching, .restart :: rest => some (.silent, { s with managePipe := rest })
  | _, _ => none

/-- The engine's own thread is in a callback. -/
def InCallback : Prop :=
  match s.pc with
  | .running _ | .dispatching => True
  | _ => False

instance : Decidable s.InCallback := by
  unfold InCallback
  split <;> infer_instance

/-- The caller may start a call. -/
def CanCall : Caller → Prop
  | .engine => s.InCallback
  | .thread _ => True

instance : (c : Caller) → Decidable (s.CanCall c)
  | .engine => inferInstanceAs (Decidable s.InCallback)
  | .thread _ => inferInstanceAs (Decidable True)

/-- The steps of a call. -/
inductive CallAction
  /-- `select_engine_schedule_add` builds its event. -/
  | stamp (timeous : ℤ)
  /-- It pushes the event, with these answers of the allocator. -/
  | push (mem : Option Addr) (remem : Bool)
  /-- A call of `select_engine_fd_add_*` or `select_engine_fd_del` changes the pool. -/
  | changeFds (fds : List Fd)
  /-- The first half of `__engine_reload`. -/
  | trylock
  /-- The second half of `__engine_reload`. -/
  | finish

/-- The state with the call of `c` at `callState`. -/
def setCall (c : Caller) (callState : CallState) : SelectEngine :=
  { s with callState := Function.update s.callState c callState }

/-- The next step of a call of `c`. -/
def call (c : Caller) : CallAction → Option (Observation × SelectEngine)
  | .stamp timeous =>
    if s.callState c = .idle ∧ s.CanCall c ∧ 0 ≤ timeous then
      let event := newEvent s.events s.clock timeous
      some (.silent, { s.setCall c (.stamped event) with events := s.events + 1 })
    else none
  | .push mem remem =>
    match s.callState c with
    | .stamped event =>
      match priQueuePush s.eventQueue (some event) mem remem with
      | none => none
      | some (code, q) =>
        some (.pushed event code, { s.setCall c .reloading with eventQueue := q })
    | _ => none
  | .changeFds fds =>
    if s.callState c = .idle ∧ s.CanCall c then
      some (.silent, { s.setCall c .reloading with fdPoll := fds })
    else none
  | .trylock =>
    if s.callState c = .reloading then
      if s.runningFlag = none then
        some (.silent, { s.setCall c .holding with runningFlag := some c })
      else some (.silent, s.setCall c .signalling)
    else none
  | .finish =>
    match s.callState c with
    | .holding => some (.silent, { s.setCall c .idle with runningFlag := none })
    | .signalling =>
      some (.silent, { s.setCall c .idle with managePipe := s.managePipe ++ [.restart] })
    | _ => none

/-- A step of the system. -/
inductive Action
  | perform (ret : SelectRet)
  | manageFdCallback
  | call (c : Caller) (a : CallAction)
  /-- `select_engine_stop`. -/
  | stop
  /-- Time passes. -/
  | tick (d : ℕ)

def next : Action → Option (Observation × SelectEngine)
  | .perform ret => s.perform ret
  | .manageFdCallback => s.manageFdCallback
  | .call c a => s.call c a
  | .stop => some (.silent, { s with managePipe := s.managePipe ++ [.stop] })
  | .tick d => some (.silent, { s with clock := s.clock + d })

/-- `malloc` never hands out a cell that is still allocated. -/
def MallocContract : Action → Prop
  | .call _ (.push (some a) _) => s.eventQueue.cell a = none
  | _ => True

end SelectEngine

/-- The engine under every interleaving of its loop, its callbacks and other threads. -/
def selectSystem : Math.System SelectEngine (SelectEngine.Action × SelectEngine.Observation) where
  init s := ∃ q manageFd clock,
    priQueueCreate priQueueSize true eventQueuePriComp true true = some (some q) ∧
      s = selectEngineCreate q manageFd clock
  step s label s' := s.MallocContract label.1 ∧ s.next label.1 = some (label.2, s')

/-! ## The life of an engine -/

/-- `select_engine_destroy`: its code, and the engine unless it has been freed. -/
def selectEngineDestroy (engine : Option SelectEngine) : BliveErrno × Option SelectEngine :=
  match engine with
  | none => (.nullPtr, none)
  | some s => if s.needContinue then (.invalid, some s) else (.ok, none)

/-- What happens to an engine. -/
inductive LifeAction
  /-- `select_engine_create`, with successful allocations. -/
  | create (manageFd : Fd) (clock : ℕ)
  /-- A step of its loop, its callbacks or its other callers. -/
  | engine (act : SelectEngine.Action)
  | destroy

/-- What a step means for the life of the engine. -/
inductive LifeEvent
  | created
  /-- `select_engine_perform` is called. -/
  | started
  /-- The callback of the pipe reads a stop message. -/
  | stopTaken
  /-- `select_engine_perform` leaves its loop because `need_continue` is off, and returns. -/
  | stopped
  | destroyed (code : BliveErrno)
  | other
deriving DecidableEq

/-- The event of a step of the engine. -/
def lifeEvent (s : SelectEngine) : SelectEngine.Action → LifeEvent
  | .perform _ =>
    match s.pc with
    | .returned => .started
    | .head => if s.needContinue then .other else .stopped
    | _ => .other
  | .manageFdCallback =>
    match s.managePipe with
    | .stop :: _ => .stopTaken
    | _ => .other
  | _ => .other

/-- The next thing that happens; there is no engine before `select_engine_create` and after
its memory has been freed. -/
def lifeNext (engine : Option SelectEngine) : LifeAction → Option (LifeEvent × Option SelectEngine)
  | .create manageFd clock =>
    match engine, priQueueCreate priQueueSize true eventQueuePriComp true true with
    | none, some (some q) => some (.created, some (selectEngineCreate q manageFd clock))
    | _, _ => none
  | .engine act => engine.bind fun s => (s.next act).map fun r => (lifeEvent s act, some r.2)
  | .destroy =>
    engine.map fun s =>
      (.destroyed (selectEngineDestroy (some s)).1, (selectEngineDestroy (some s)).2)

/-- `malloc` never hands out a cell that is still allocated. -/
def LifeContract : Option SelectEngine → LifeAction → Prop
  | some s, .engine act => s.MallocContract act
  | _, _ => True

/-- The life of an engine under every interleaving of its functions. -/
def lifeSystem : Math.System (Option SelectEngine) (LifeAction × LifeEvent) where
  init engine := engine = none
  step engine label engine' :=
    LifeContract engine label.1 ∧ lifeNext engine label.1 = some (label.2, engine')

end BliveQueue.Utils.Select
