/-
# `select.c`: the engine with its fd pool

The loop, the threads and the callbacks of `Select`, with the hash table of `FdPool` as
the pool: the loop builds its fd set by walking the table, `select` narrows the set to
what is readable, and a dispatch walks the table again and calls the callbacks. Calls
that change the pool change the table and then reload the engine like any other call.
The list of file descriptors that the loop of `Select` keeps is not used here. Of the
callbacks that the entries of the pool hold only one is known, that of the pipe.
-/

import BliveQueue.Utils.FdPool
import BliveQueue.Utils.Select

namespace BliveQueue.Utils.Engine

open BliveQueue.Utils.FdPool BliveQueue.Utils.Hash BliveQueue.Utils.PriQueue
open BliveQueue.Utils.Select
open BliveQueue.Utils.Select.SelectEngine (CallAction)

/-- `hash_foreach(fd_poll, __fd_set_foreach, engine)`: the file descriptors that it sets. -/
def fdSet (t : FdPoll) : Option (List Fd) :=
  (t.hashForeach fun given => (given.getLast?.bind Prod.snd).isSome).map fun given =>
    given.filterMap fun pair => pair.2.map EngineFd.fd

/-- `select_engine_t` and the threads that use it; `round` holds `fd_poll` and the walk of
the current dispatch. -/
structure SelectEngineT where
  loop : SelectEngine
  round : Round
  /-- An entry for the pipe has the callback `__manage_fd_callback`: no client has put
  another one in its place. -/
  manageCb : Bool

namespace SelectEngineT

variable (s : SelectEngineT)

/-- The engine after a step of its loop. -/
def withLoop (r : SelectEngine.Observation × SelectEngine) : SelectEngineT := { s with loop := r.2 }

/-- The fd set that `select` leaves. -/
def selectedFds (ret : SelectRet) (readable : List Fd) : List Fd :=
  match ret with
  | .timeout => []
  | .ready => s.loop.readFds.filter (· ∈ readable)
  | .interrupted => s.loop.readFds

/-- `select` may find exactly these readable: one of its set at least, and the pipe if and
only if it holds a message. -/
def MayFind (readable : List Fd) : Prop :=
  (∃ fd ∈ s.loop.readFds, fd ∈ readable) ∧
    (s.loop.manageFd ∈ readable ↔ s.loop.managePipe ≠ [])

instance (readable : List Fd) : Decidable (s.MayFind readable) :=
  inferInstanceAs (Decidable (_ ∧ _))

/-- The callback of the walk may return: its own calls have returned, and
`__manage_fd_callback` has read the pipe to its end. Nothing is known of the callback that a
client has put in its place, nor whether the old one still runs. -/
def MayAdvance : Prop :=
  s.loop.callState .engine = .idle ∧
    match s.round.pc with
    | .inCallback fd _ => fd = s.loop.manageFd → s.manageCb = true → s.loop.managePipe = []
    | _ => True

instance : Decidable s.MayAdvance := by
  unfold MayAdvance
  split <;> infer_instance

/-- The next statement of `select_engine_perform`; `ret` and `readable` are what `select`
answers, if that is the statement. -/
def perform (ret : SelectRet) (readable : List Fd) : Option SelectEngineT :=
  match s.loop.pc with
  | .locked =>
    (fdSet s.round.fdPoll).map fun fds =>
      { s with loop := { s.loop with readFds := fds, pc := .watching } }
  | .selecting _ _ _ =>
    if ret = .ready ∧ ¬ s.MayFind readable then none
    else
      (s.loop.perform ret).map fun r =>
        s.withLoop (r.1, { r.2 with readFds := s.selectedFds ret readable })
  | .selected _ .ready => do
    let r ← s.loop.perform ret
    let round ← startRound s.round.fdPoll s.loop.readFds
    some { s with loop := r.2, round := round }
  | .dispatching =>
    if s.round.pc = .finished then (s.loop.perform ret).map s.withLoop
    else if s.MayAdvance then s.round.advance.map fun r => { s with round := r.2 }
    else none
  | _ => (s.loop.perform ret).map s.withLoop

/-- The walk is in a callback of `fd`, or of any file descriptor. -/
def InFdCallback (fd : Option Fd) : Prop :=
  match s.round.pc with
  | .inCallback fd' _ => ∀ f ∈ fd, f = fd'
  | _ => False

instance (fd : Option Fd) : Decidable (s.InFdCallback fd) := by
  unfold InFdCallback
  split <;> infer_instance

/-- `__manage_fd_callback` reads one message. -/
def manageFdCallback : Option SelectEngineT :=
  if s.InFdCallback (some s.loop.manageFd) then s.loop.manageFdCallback.map s.withLoop else none

/-- The caller may start a call. -/
def CanCall (c : Caller) : Prop :=
  s.loop.CanCall c ∧ (c = .engine → s.loop.pc = .dispatching → s.InFdCallback none)

instance (c : Caller) : Decidable (s.CanCall c) := by
  unfold CanCall
  infer_instance

/-- The steps of a call that `Select` has: those of `select_engine_schedule_add` and of
`__engine_reload`. -/
def call (c : Caller) : CallAction → Option SelectEngineT
  | .stamp timeous =>
    if s.CanCall c then (s.loop.call c (.stamp timeous)).map s.withLoop else none
  | .changeFds _ => none
  | .push mem remem => (s.loop.call c (.push mem remem)).map s.withLoop
  | .trylock => (s.loop.call c .trylock).map s.withLoop
  | .finish => (s.loop.call c .finish).map s.withLoop

/-- A call with this code has given the pipe's file descriptor a callback of the client. -/
def Replaces : PoolCall → BliveErrno → Prop
  | .add fd _ _, code => fd = s.loop.manageFd ∧ code = .ok
  | .del _, _ => False

instance : (p : PoolCall) → (code : BliveErrno) → Decidable (s.Replaces p code)
  | .add _ _ _, _ => inferInstanceAs (Decidable (_ ∧ _))
  | .del _, _ => inferInstanceAs (Decidable False)

/-- A call of `select_engine_fd_add_once`, `select_engine_fd_add_forever` or
`select_engine_fd_del` changes the pool. A negative file descriptor is refused at once. -/
def poolCall (c : Caller) (p : PoolCall) : Option SelectEngineT :=
  if s.loop.callState c = .idle ∧ s.CanCall c then
    (p.run s.round.fdPoll).map fun r =>
      { loop := if p.fd < 0 then s.loop else s.loop.setCall c .reloading
        round := { s.round with fdPoll := r.2 }
        manageCb := s.manageCb && !decide (s.Replaces p r.1) }
  else none

/-- A step of the system. -/
inductive Action
  | perform (ret : SelectRet) (readable : List Fd)
  | manageFdCallback
  | call (c : Caller) (a : CallAction)
  | poolCall (c : Caller) (p : PoolCall)
  /-- `select_engine_stop`. -/
  | stop
  /-- Time passes. -/
  | tick (d : ℕ)

def next : Action → Option SelectEngineT
  | .perform ret readable => s.perform ret readable
  | .manageFdCallback => s.manageFdCallback
  | .call c a => s.call c a
  | .poolCall c p => s.poolCall c p
  | .stop => (s.loop.next .stop).map s.withLoop
  | .tick d => (s.loop.next (.tick d)).map s.withLoop

/-- The contracts of the allocator and of the callers. -/
def Contract : Action → Prop
  | .call c a => s.loop.MallocContract (.call c a)
  | .poolCall _ p => p.Contract s.round.fdPoll
  | .perform _ _ | .manageFdCallback | .stop | .tick _ => True

end SelectEngineT

/-- `select_engine_create`. -/
def createEngine (q : PriQueueT EngineEvent) (t : FdPoll) (manageFd : Fd) (clock : ℕ) :
    SelectEngineT where
  loop := selectEngineCreate q manageFd clock
  round := { fdPoll := t, readFds := [], index := 0, pc := .finished, invoked := [] }
  manageCb := true

/-- The engine under every interleaving of its loop, its callbacks and other threads.
`select_engine_create` does not look at the code of `__engine_fd_add`, so the pool may lack
the pipe. -/
def engineSystem : Math.System SelectEngineT SelectEngineT.Action where
  init s := ∃ q t manageFd clock mem code, 0 ≤ manageFd ∧ manageFd < 2 ^ 31 ∧
    priQueueCreate priQueueSize true eventQueuePriComp true true = some (some q) ∧
    createPool manageFd mem = some (code, t) ∧ s = createEngine q t manageFd clock
  step s act s' := s.Contract act ∧ s.next act = some s'

end BliveQueue.Utils.Engine
