/-
# `select.c`: the fd pool and the dispatch of its callbacks

The engine keeps the watched file descriptors in a hash table under their decimal text.
When `select` reports readable ones, `hash_foreach` walks the table and
`__fd_isset_foreach` calls the callbacks. A callback is arbitrary code; what it can do
to the walk are its calls of `select_engine_fd_add_once`, `select_engine_fd_add_forever`
and `select_engine_fd_del`, which are steps of their own here. What the callback of a
file descriptor and its context are does not matter to the pool, so they are left out.
-/

import BliveQueue.Utils.Errno
import BliveQueue.Utils.Hash
import BliveQueue.Utils.Select

namespace BliveQueue.Utils.FdPool

open BliveQueue.Utils.Hash BliveQueue.Utils.Select

/-! ## Keys -/

/-- What `%d` prints. -/
def decimal (fd : Fd) : CString :=
  let digits := (Nat.toDigits 10 fd.natAbs).map fun c => c.toNat.toUInt8
  if fd < 0 then 45 :: digits else digits

/-- The text that `snprintf(buffer, 31, "%d", fd)` leaves in the buffer. -/
def fdKey (fd : Fd) : CString := (decimal fd).take 30

def isDigit (c : UInt8) : Bool := 48 ≤ c && c ≤ 57

def isSpace (c : UInt8) : Bool := c = 32 || (9 ≤ c && c ≤ 13)

/-- The value of the digits at the head of a text. -/
def digitsValue (s : CString) : ℤ :=
  (s.takeWhile isDigit).foldl (fun n c => 10 * n + (c.toNat - 48)) 0

/-- `atoi`, on numbers that an `int` holds. -/
def atoi (s : CString) : ℤ :=
  match s.dropWhile isSpace with
  | 45 :: s => -digitsValue s
  | 43 :: s => digitsValue s
  | s => digitsValue s

/-- `__fd_poll_hash_func`. -/
def fdPollHashFunc (key : CString) : UInt32 := UInt32.ofInt (atoi key)

/-! ## The pool -/

/-- `engine_fd_t`. -/
structure EngineFd where
  fd : Fd
  temporary : Bool
deriving DecidableEq

/-- The type of `fd_poll`. -/
abbrev FdPoll := HashT EngineFd

/-- What the allocator answers to `__engine_fd_add`: for the `engine_fd_t`, for a new
entry and for a larger array. -/
structure PoolMem where
  engineFd : Bool
  entry : Option EntryPtr
  array : Bool
deriving DecidableEq

/-- `__engine_fd_add`. -/
def engineFdAdd (t : FdPoll) (fd : Fd) (temporary : Bool) (mem : PoolMem) :
    Option (BliveErrno × FdPoll) :=
  if mem.engineFd then
    (t.hashPush (fdKey fd) ⟨fd, temporary⟩ mem.entry mem.array).map fun r => (.ok, r.2)
  else some (.outOfMem, t)

/-- `__engine_fd_del`. -/
def engineFdDel (t : FdPoll) (fd : Fd) : Option (BliveErrno × FdPoll) :=
  (t.hashPop (fdKey fd)).map fun r => (if r.1 = none then .notExsit else .ok, r.2)

/-- What `select_engine_fd_add_once` and `select_engine_fd_add_forever` share. -/
def selectEngineFdAdd (t : FdPoll) (fd : Fd) (temporary : Bool) (mem : PoolMem) :
    Option (BliveErrno × FdPoll) :=
  if fd < 0 then some (.invalid, t) else engineFdAdd t fd temporary mem

/-- `select_engine_fd_add_once`, on the pool. -/
def selectEngineFdAddOnce (t : FdPoll) (fd : Fd) (mem : PoolMem) : Option (BliveErrno × FdPoll) :=
  selectEngineFdAdd t fd true mem

/-- `select_engine_fd_add_forever`, on the pool. -/
def selectEngineFdAddForever (t : FdPoll) (fd : Fd) (mem : PoolMem) :
    Option (BliveErrno × FdPoll) :=
  selectEngineFdAdd t fd false mem

/-- `select_engine_fd_del`, on the pool. It does not pass the code of
`__engine_fd_del` on. -/
def selectEngineFdDel (t : FdPoll) (fd : Fd) : Option (BliveErrno × FdPoll) :=
  if fd < 0 then some (.invalid, t) else (engineFdDel t fd).map fun r => (.ok, r.2)

/-- A call that changes the pool; a temporary file descriptor is added once. -/
inductive PoolCall
  | add (fd : Fd) (temporary : Bool) (mem : PoolMem)
  | del (fd : Fd)
deriving DecidableEq

namespace PoolCall

def fd : PoolCall → Fd
  | add fd _ _ => fd
  | del fd => fd

def run (t : FdPoll) : PoolCall → Option (BliveErrno × FdPoll)
  | add fd true mem => selectEngineFdAddOnce t fd mem
  | add fd false mem => selectEngineFdAddForever t fd mem
  | del fd => selectEngineFdDel t fd

/-- `malloc` never hands out an entry that is still allocated. -/
def Fresh (t : FdPoll) (mem : PoolMem) : Prop :=
  match mem.entry with
  | none => True
  | some p => t.entry p = none

instance (t : FdPoll) (mem : PoolMem) : Decidable (Fresh t mem) := by
  unfold Fresh
  split <;> infer_instance

/-- The argument is an `int` and the allocator keeps its promise. -/
def Contract (t : FdPoll) : PoolCall → Prop
  | add fd _ mem => fd < 2 ^ 31 ∧ Fresh t mem
  | del fd => fd < 2 ^ 31

instance (t : FdPoll) (c : PoolCall) : Decidable (c.Contract t) := by
  unfold Contract
  split <;> infer_instance

end PoolCall

/-- The pool that `select_engine_create` leaves, which watches its pipe. -/
def createPool (manageFd : Fd) (mem : PoolMem) : Option (BliveErrno × FdPoll) := do
  let t ← HashT.hashCreate 100 (some fdPollHashFunc)
  engineFdAdd t manageFd false mem

/-- The pool under any sequence of calls. -/
def fdPool : Math.System FdPoll (PoolCall × BliveErrno) where
  init t := ∃ manageFd mem code, 0 ≤ manageFd ∧ manageFd < 2 ^ 31 ∧
    createPool manageFd mem = some (code, t)
  step t label t' := label.1.Contract t ∧ label.1.run t = some (label.2, t')

/-- The tables that calls can produce. -/
def Reachable (t : FdPoll) : Prop := ∃ history, fdPool.Trace history t

/-! ## One dispatch round -/

/-- The next statement of `hash_foreach` or of the callback that it called. -/
inductive RoundPc
  /-- Test `entry` and give it to `__fd_isset_foreach`. -/
  | visiting (entry : Option EntryPtr)
  /-- In the callback of `fd`; the walk goes on at `next`. -/
  | inCallback (fd : Fd) (next : Option EntryPtr)
  | finished
deriving DecidableEq

/-- `hash_foreach(fd_poll, __fd_isset_foreach, engine)`. -/
structure Round where
  fdPoll : FdPoll
  readFds : List Fd
  /-- The bucket of the walk. -/
  index : ℕ
  pc : RoundPc
  /-- The file descriptors whose callbacks were called in this round. -/
  invoked : List Fd

/-- The start of a round. -/
def startRound (t : FdPoll) (readFds : List Fd) : Option Round :=
  (t.readLink (.bucket 0)).map fun entry =>
    { fdPoll := t, readFds := readFds, index := 0, pc := .visiting entry, invoked := [] }

/-- What a step of a round lets the world see. -/
inductive Observation
  | silent
  | invoked (fd : Fd)
  | called (caller : Fd) (code : BliveErrno)
deriving DecidableEq

namespace Round

variable (s : Round)

/-- The table after `__fd_isset_foreach` has removed a temporary file descriptor. -/
def popTemporary (engineFd : EngineFd) : Option FdPoll :=
  if engineFd.temporary then (s.fdPoll.hashPop (fdKey engineFd.fd)).map Prod.snd
  else some s.fdPoll

/-- The next statement of the walk; from a callback it returns. -/
def advance : Option (Observation × Round) :=
  match s.pc with
  | .visiting none =>
    if s.index + 1 ≤ s.fdPoll.max.toNat then
      (s.fdPoll.readLink (.bucket (s.index + 1))).map fun entry =>
        (.silent, { s with index := s.index + 1, pc := .visiting entry })
    else some (.silent, { s with pc := .finished })
  | .visiting (some p) => do
    let e ← s.fdPoll.entry p
    match e.value with
    | none => some (.silent, { s with pc := .finished })
    | some engineFd =>
      if engineFd.fd ∈ s.readFds then
        let t ← s.popTemporary engineFd
        some (.invoked engineFd.fd,
          { s with
            fdPoll := t
            pc := .inCallback engineFd.fd e.next
            invoked := s.invoked ++ [engineFd.fd] })
      else some (.silent, { s with pc := .visiting e.next })
  | .inCallback _ next => some (.silent, { s with pc := .visiting next })
  | .finished => none

/-- A call that the running callback makes. -/
def call (c : PoolCall) : Option (Observation × Round) :=
  match s.pc with
  | .inCallback fd _ =>
    (c.run s.fdPoll).map fun r => (.called fd r.1, { s with fdPoll := r.2 })
  | _ => none

/-- A step of a round. -/
inductive Action
  | advance
  | call (c : PoolCall)
deriving DecidableEq

def next : Action → Option (Observation × Round)
  | .advance => s.advance
  | .call c => s.call c

def Contract : Action → Prop
  | .advance => True
  | .call c => c.Contract s.fdPoll

instance (a : Action) : Decidable (s.Contract a) := by
  unfold Contract
  split <;> infer_instance

end Round

/-- The rounds over a table, with arbitrary callbacks. -/
def dispatch (t : FdPoll) (readFds : List Fd) : Math.System Round (Round.Action × Observation) where
  init s := startRound t readFds = some s
  step s label s' := s.Contract label.1 ∧ s.next label.1 = some (label.2, s')

end BliveQueue.Utils.FdPool
