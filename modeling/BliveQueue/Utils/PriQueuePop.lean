/-
# `pri_queue.c`: the blocking pops

`pri_queue_pop_wait`, `pri_queue_pop_trywait` and `pri_queue_pop_timedwait` share
`__queue_pop`. Each section in which it holds the mutex is one atomic step. A wait on
the condition variable gives the mutex back and ends with a wake-up, which a push, the
timeout or nothing at all may cause, so a waiting thread may wake up in every state. The
arithmetic that turns the timeout into a time has no effect on the queue and is left out.
-/

import BliveQueue.Utils.PriQueue

namespace BliveQueue.Utils.PriQueue

variable {α : Type}

/-- The pops of a thread, with the timeout in milliseconds. -/
inductive PopCall
  | wait
  | trywait
  | timedwait (timeout : ℤ)
deriving DecidableEq

/-- The `timeout` that `__queue_pop` is called with, if it is called. -/
def PopCall.timeout : PopCall → Option ℤ
  | .wait => some (-1)
  | .trywait => some 0
  | .timedwait timeout => if timeout < 0 then none else some timeout

/-- What a thread has done when it gives the mutex back. -/
inductive PopResult (α : Type)
  /-- It returns this code, and `*pdata` holds this data. -/
  | returned (code : BliveErrno) (pdata : Option α)
  /-- It waits on the condition variable. -/
  | blocked
deriving DecidableEq

/-- What the caller's pointer points to while it waits. -/
def PopResult.awaited (dest : Option (Option α)) : PopResult α → Option (Option α)
  | .blocked => dest
  | .returned _ _ => none

/-- The first section of `__queue_pop`. The size is unsigned, so the last branch of the
source, for a negative size, does not exist. -/
def queuePop (q : PriQueueT α) (pdata : Option α) (timeout : ℤ) :
    Option (PopResult α × PriQueueT α) := do
  let heap ← q.heap
  if heap.curSize = 0 then
    if timeout = -1 ∨ timeout > 0 then some (.blocked, q)
    else some (.returned .resource pdata, q)
  else do
    let (data, heap, cell) ← heapPop q.cell heap
    some (.returned .ok data, { q with heap := some heap, cell := cell })

/-- The section of `__queue_pop` after a wait: `retval` still is `BLIVE_ERR_OK`. -/
def queuePopWoken (q : PriQueueT α) (pdata : Option α) : PopResult α × PriQueueT α :=
  (.returned .ok pdata, q)

/-- `pri_queue_pop_wait`, `pri_queue_pop_trywait` and `pri_queue_pop_timedwait`, up to the
first wait. `dest` is what the caller's pointer points to, if it is not null. -/
def priQueuePop (q : PriQueueT α) (dest : Option (Option α)) (c : PopCall) :
    Option (PopResult α × PriQueueT α) :=
  match dest, c.timeout with
  | some pdata, some timeout => queuePop q pdata timeout
  | some pdata, none => some (.returned .invalid pdata, q)
  | none, _ => some (.returned .invalid none, q)

/-- A queue and the threads that wait in a pop, with what `*pdata` holds for each. -/
structure Shared (α : Type) where
  queue : PriQueueT α
  waiting : ℕ → Option (Option α)

namespace Shared

variable (s : Shared α)

/-- A step of one thread. -/
inductive Action (α : Type)
  /-- Thread `t` starts a pop. -/
  | pop (t : ℕ) (c : PopCall) (dest : Option (Option α))
  /-- Thread `t` wakes up from its wait. -/
  | wake (t : ℕ)
  /-- A push; `mem` and `remem` are the answers of the allocator. -/
  | push (data : Option α) (mem : Option Addr) (remem : Bool)
deriving DecidableEq

/-- What a step lets the world see. -/
inductive Observation (α : Type)
  | popped (result : PopResult α)
  | pushed (code : BliveErrno)
deriving DecidableEq

/-- Whether thread `t` waits, and what its `*pdata` holds. -/
def setWaiting (t : ℕ) (pdata : Option (Option α)) : Shared α :=
  { s with waiting := Function.update s.waiting t pdata }

def next : Action α → Option (Observation α × Shared α)
  | .pop t c dest =>
    if s.waiting t = none then
      (priQueuePop s.queue dest c).map fun r =>
        (.popped r.1,
          { s.setWaiting t (r.1.awaited dest) with queue := r.2 })
    else none
  | .wake t =>
    (s.waiting t).map fun pdata =>
      let r := queuePopWoken s.queue pdata
      (.popped r.1, { s.setWaiting t none with queue := r.2 })
  | .push data mem remem =>
    (priQueuePush s.queue data mem remem).map fun r => (.pushed r.1, { s with queue := r.2 })

/-- `malloc` never hands out a cell that is still allocated. -/
def MallocContract : Action α → Prop
  | .push _ (some a) _ => s.queue.cell a = none
  | _ => True

end Shared

/-- A queue under every interleaving of pushes and pops, from `pri_queue_create` on. -/
def sharedSystem (cb : α → α → Bool) :
    Math.System (Shared α) (Shared.Action α × Shared.Observation α) where
  init s := (priQueueSystem cb).init s.queue ∧ s.waiting = fun _ => none
  step s label s' := s.MallocContract label.1 ∧ s.next label.1 = some (label.2, s')

end BliveQueue.Utils.PriQueue
