/-
# No thread of the engine is stuck

A thread in the middle of a call can always take its next step, whatever the allocator answers,
and so can the loop: its statements have a result in every reachable state, whatever callbacks
and other threads did before. There are three exceptions. A caller may come to push onto a full
queue. The loop waits in `select` until its timeout has elapsed or something is readable. And it
waits at its head while another thread has the lock; that thread gives it back in one step, and
then the loop goes on.
-/

import BliveQueue.Engine.Lock

namespace BliveQueue.Engine

open BliveQueue.FdPool BliveQueue.Math BliveQueue.Utils BliveQueue.Utils.Engine
open BliveQueue.Utils.Engine.SelectEngineT BliveQueue.Utils.FdPool BliveQueue.Utils.PriQueue
open BliveQueue.Utils.Select
open BliveQueue.Utils.Select.SelectEngine (CallAction)
open BliveQueue.PriQueue (newQueue)

variable {s s' : SelectEngineT} {c : Caller} {ret : SelectRet} {readable : List Fd}
variable {event : EngineEvent} {history : List SelectEngineT.Action}

/-! ## Moves -/

/-- What a thread can do without beginning a call. -/
inductive Move
  /-- The next statement of the loop, or of the walk of its dispatch. -/
  | loop
  /-- The callback of the pipe reads a message. -/
  | read
  /-- The next step of a call. -/
  | call (c : Caller)

/-- The next step of a call that stands here, with these answers of the allocator. -/
def nextStep (mem : Option Addr) (remem : Bool) : CallState → CallAction
  | .stamped _ => .push mem remem
  | .reloading => .trylock
  | .holding | .signalling | .idle => .finish

/-- The steps of a move. The allocator is free in its answers, and so is `select` as far as it
is not interrupted and finds at most the pipe and these file descriptors readable. -/
def Takes (clients : Fd → Prop) : Move → SelectEngineT → SelectEngineT.Action → Prop
  | .loop, s, .perform ret readable =>
    ret ≠ .interrupted ∧ ∀ fd ∈ readable, fd = s.loop.manageFd ∨ clients fd
  | .read, _, .manageFdCallback => True
  | .call c, s, .call c' a =>
    c' = c ∧ ∃ mem remem, a = nextStep mem remem (s.loop.callState c)
  | _, _, _ => False

/-- The caller can take its next step, whatever the allocator answers. -/
def CallGoesOn (s : SelectEngineT) (c : Caller) : Prop :=
  ∀ mem remem, s.Contract (.call c (nextStep mem remem (s.loop.callState c))) →
    ∃ s', engineSystem.step s (.call c (nextStep mem remem (s.loop.callState c))) s'

/-- The loop or its callback can take its next step, although nothing but the pipe is known to
be readable and no signal arrives. -/
def LoopGoesOn (s : SelectEngineT) : Prop :=
  ∃ m act s', (m = .loop ∨ m = .read) ∧ Takes (fun _ => False) m s act ∧ engineSystem.step s act s'

/-- The call is about to push an event, and the queue is full. -/
def AtFullQueue (s : SelectEngineT) (c : Caller) : Prop :=
  (∃ event, s.loop.callState c = .stamped event) ∧
    ¬ s.loop.eventQueue.size < s.loop.eventQueue.capacity

/-- The loop is in `select`, its timeout has not elapsed if it has one, and there is no message
to return for. -/
def WaitsInSelect (s : SelectEngineT) : Prop :=
  ∃ event wait since, s.loop.pc = .selecting event wait since ∧
    (∀ tm ∈ wait, (s.loop.clock : ℤ) < since + tm.micros) ∧ ¬ Signalled s

theorem loopGoesOn_of_perform (hret : ret ≠ .interrupted)
    (hreadable : ∀ fd ∈ readable, fd = s.loop.manageFd) (h : s.perform ret readable = some s') :
    LoopGoesOn s :=
  ⟨.loop, .perform ret readable, s', Or.inl rfl,
    ⟨hret, fun fd hfd => Or.inl (hreadable fd hfd)⟩, trivial, h⟩

/-- A statement that does not ask `select`. -/
theorem loopGoesOn_of_ready (h : s.perform .ready [] = some s') : LoopGoesOn s :=
  loopGoesOn_of_perform SelectRet.noConfusion (fun _ hfd => absurd hfd List.not_mem_nil) h

/-- The statements of the loop that leave the table alone. -/
def Plain : Pc → Prop
  | .locked | .selecting _ _ _ | .selected _ .ready | .dispatching => False
  | _ => True

theorem perform_of_plain (hplain : Plain s.loop.pc) {r : SelectEngine.Observation × SelectEngine}
    (h : s.loop.perform ret = some r) : s.perform ret readable = some (s.withLoop r) := by
  unfold SelectEngineT.perform
  split
  next hpc =>
    rw [hpc] at hplain
    exact absurd hplain id
  next hpc =>
    rw [hpc] at hplain
    exact absurd hplain id
  next hpc =>
    rw [hpc] at hplain
    exact absurd hplain id
  next hpc =>
    rw [hpc] at hplain
    exact absurd hplain id
  next => rw [h, Option.map_some]

theorem loopGoesOn_of_plain (hplain : Plain s.loop.pc) (h : ∃ r, s.loop.perform .ready = some r) :
    LoopGoesOn s := by
  obtain ⟨r, hr⟩ := h
  have hperform : s.perform .ready [] = some (s.withLoop r) := perform_of_plain hplain hr
  exact loopGoesOn_of_ready hperform

/-! ## Callers -/

/-- A push that finds room has a result, whatever the allocator answers. -/
theorem IsHeap.exists_push {q : PriQueueT EngineEvent} (h : IsHeap q) {mem : Option Addr}
    (remem : Bool) (hroom : q.size < q.capacity) (hmalloc : ∀ a ∈ mem, q.cell a = none) :
    ∃ r, priQueuePush q (some event) mem remem = some r := by
  obtain ⟨heap, slot, st⟩ := h
  have hbelow : heap.curSize < heap.maxSize := by
    rwa [st.size_eq, st.capacity_eq] at hroom
  cases mem with
  | none => exact ⟨_, st.push_outOfMem hbelow remem⟩
  | some a =>
      obtain ⟨q', mem, hpush, -⟩ := st.push hbelow (hmalloc a rfl) remem
      exact ⟨_, hpush⟩

theorem call_nextStep (s : SelectEngineT) (c : Caller) (mem : Option Addr) (remem : Bool)
    (callState : CallState) :
    s.call c (nextStep mem remem callState) =
      (s.loop.call c (nextStep mem remem callState)).map s.withLoop := by
  cases callState <;> rfl

/-- Only a full queue keeps a caller from its next step. -/
theorem Steady.call_goes_on (h : Steady s) (hbusy : s.loop.callState c ≠ .idle)
    (hroom : ¬ AtFullQueue s c) : CallGoesOn s c := by
  rintro mem remem hcontract
  suffices hcall : ∃ r, s.loop.call c (nextStep mem remem (s.loop.callState c)) = some r by
    obtain ⟨r, hr⟩ := hcall
    refine ⟨s.withLoop r, hcontract, ?_⟩
    change s.call c _ = _
    rw [call_nextStep, hr, Option.map_some]
  cases hstate : s.loop.callState c with
  | idle => exact absurd hstate hbusy
  | stamped event =>
      have hsize : s.loop.eventQueue.size < s.loop.eventQueue.capacity := by
        by_contra hfull
        exact hroom ⟨⟨event, hstate⟩, hfull⟩
      rw [hstate] at hcontract
      have hmalloc : ∀ a ∈ mem, s.loop.eventQueue.cell a = none := by
        rintro a rfl
        exact hcontract
      obtain ⟨r, hpush⟩ : ∃ r, priQueuePush s.loop.eventQueue (some event) mem remem = some r :=
        h.loop.heap.exists_push remem hsize hmalloc
      simp only [nextStep, SelectEngine.call, hstate, hpush]
      exact ⟨_, rfl⟩
  | reloading =>
      simp only [nextStep, SelectEngine.call, if_pos hstate]
      split
      · exact ⟨_, rfl⟩
      · exact ⟨_, rfl⟩
  | holding | signalling =>
      simp only [nextStep, SelectEngine.call, hstate]
      exact ⟨_, rfl⟩

/-! ## The loop -/

/-- The loop is at its head, and a thread has the lock. -/
def WaitsForLock (s : SelectEngineT) : Prop :=
  s.loop.pc = .head ∧ ∃ t, s.loop.callState (.thread t) = .holding

/-- At its head the loop leaves, enters its critical section or waits for a thread. -/
theorem Steady.head (h : Steady s) (hpc : s.loop.pc = .head)
    (hidle : s.loop.callState .engine = .idle) : LoopGoesOn s ∨ WaitsForLock s := by
  cases hflag : s.loop.runningFlag with
  | none =>
      have hperform : ∃ r, s.loop.perform .ready = some r := by
        simp only [SelectEngine.perform, hpc, hflag, if_true]
        split
        · exact ⟨_, rfl⟩
        · exact ⟨_, rfl⟩
      exact Or.inl (loopGoesOn_of_plain (hpc ▸ trivial) hperform)
  | some owner =>
      have howns := h.loop.owner owner hflag
      have hholding : s.loop.callState owner = .holding := by
        rcases howns with hholding | ⟨-, hlock⟩
        · exact hholding
        · rw [hpc] at hlock
          exact absurd hlock id
      cases owner with
      | engine =>
          rw [hidle] at hholding
          exact CallState.noConfusion hholding
      | thread t => exact Or.inr ⟨hpc, t, hholding⟩

/-- A dispatch goes on, unless the callback has still to read the pipe: then it reads. -/
theorem Steady.dispatching (h : Steady s) (hpc : s.loop.pc = .dispatching)
    (hidle : s.loop.callState .engine = .idle) : LoopGoesOn s := by
  obtain ⟨r, hserves⟩ := h.serves
  by_cases hfinished : s.round.pc = .finished
  · have hperform : s.perform .ready [] =
        some (s.withLoop (.silent, { s.loop with pc := .head })) := by
      simp only [SelectEngineT.perform, hpc, if_pos hfinished, SelectEngine.perform, if_pos hidle,
        Option.map_some]
    exact loopGoesOn_of_ready hperform
  · by_cases hmay : s.MayAdvance
    · obtain ⟨obs, round, hadvance, -⟩ := hserves.advances (h.walk hpc) hfinished
      have hperform : s.perform .ready [] = some { s with round := round } := by
        simp only [SelectEngineT.perform, hpc, if_neg hfinished, if_pos hmay, hadvance,
          Option.map_some]
      exact loopGoesOn_of_ready hperform
    · -- the callback of the pipe runs, and there is something to read
      have hreads : ∃ s', s.manageFdCallback = some s' := by
        unfold SelectEngineT.MayAdvance at hmay
        cases hround : s.round.pc with
        | finished => exact absurd hround hfinished
        | visiting entry =>
            rw [hround] at hmay
            exact absurd ⟨hidle, trivial⟩ hmay
        | inCallback fd next =>
            rw [hround] at hmay
            have hunread : fd = s.loop.manageFd ∧ s.loop.managePipe ≠ [] := by
              by_contra hnot
              refine hmay ⟨hidle, fun hfd _ => ?_⟩
              by_contra hpipe
              exact hnot ⟨hfd, hpipe⟩
            obtain ⟨rfl, hpipe⟩ := hunread
            have hin : s.InFdCallback (some s.loop.manageFd) := by
              rw [SelectEngineT.InFdCallback, hround]
              exact fun f hf => (Option.mem_some_iff.mp hf).symm
            unfold SelectEngineT.manageFdCallback
            rw [if_pos hin]
            cases hmessages : s.loop.managePipe with
            | nil => exact absurd hmessages hpipe
            | cons message rest =>
                cases message with
                | stop | restart =>
                    simp only [SelectEngine.manageFdCallback, hpc, hmessages]
                    exact ⟨_, rfl⟩
      obtain ⟨s', hread⟩ := hreads
      exact ⟨.read, .manageFdCallback, s', Or.inr rfl, trivial, trivial, hread⟩

/-- `select` returns when its timeout has elapsed or a message is there. -/
theorem loopGoesOn_of_selecting {event : Option EngineEvent} {wait : Option Timeval} {since : ℕ}
    (hpc : s.loop.pc = .selecting event wait since) : LoopGoesOn s ∨ WaitsInSelect s := by
  by_cases hsignalled : Signalled s
  · have hperform := perform_ready hpc hsignalled.mayFind
    exact Or.inl (loopGoesOn_of_perform SelectRet.noConfusion
      (fun _ hfd => List.mem_singleton.mp hfd) hperform)
  · by_cases helapsed : ∃ tm ∈ wait, since + tm.micros ≤ s.loop.clock
    · obtain ⟨tm, htm, hle⟩ := helapsed
      have hmay : s.loop.MayTimeOut wait since := by
        refine ⟨⟨tm, htm, hle⟩, fun hread => ?_⟩
        by_contra hpipe
        exact hsignalled ⟨hpipe, hread⟩
      have hperform : s.perform .timeout [] = some _ := perform_timeout hpc hmay
      exact Or.inl (loopGoesOn_of_perform SelectRet.noConfusion
        (fun _ hfd => absurd hfd List.not_mem_nil) hperform)
    · refine Or.inr ⟨event, wait, since, hpc, fun tm htm => ?_, hsignalled⟩
      exact not_le.mp fun hle => helapsed ⟨tm, htm, hle⟩

theorem Steady.engine (h : Steady s) (hidle : s.loop.callState .engine = .idle) :
    LoopGoesOn s ∨ WaitsInSelect s ∨ WaitsForLock s := by
  obtain ⟨r, hserves⟩ := h.serves
  have hwaits := h.loop.waits
  have hheld := h.loop.held
  cases hpc : s.loop.pc with
  | head => exact (h.head hpc hidle).imp_right Or.inr
  | dispatching => exact Or.inl (h.dispatching hpc hidle)
  | locked =>
      obtain ⟨fds, hfds, -⟩ := hserves.holds.fdSet
      have hperform : s.perform .ready [] =
          some { s with loop := { s.loop with readFds := fds, pc := .watching } } := by
        simp only [SelectEngineT.perform, hpc, hfds, Option.map_some]
      exact Or.inl (loopGoesOn_of_ready hperform)
  | selecting event wait since => exact (loopGoesOn_of_selecting hpc).imp_right Or.inl
  | selected event sel =>
      cases sel with
      | ready =>
          obtain ⟨round, hround⟩ := hserves.exists_startRound s.loop.readFds
          have hperform : s.perform .ready [] = some
              { s with
                loop := { s.loop with runningFlag := none, pc := .dispatching }
                round := round } := by
            simp only [SelectEngineT.perform, hpc, SelectEngine.perform, hround,
              Option.bind_eq_bind, Option.bind_some]
          exact Or.inl (loopGoesOn_of_ready hperform)
      | timeout | interrupted =>
          have hperform : ∃ r, s.loop.perform .ready = some r := by
            simp only [SelectEngine.perform, hpc]
            exact ⟨_, rfl⟩
          exact Or.inl (loopGoesOn_of_plain (hpc ▸ trivial) hperform)
  | watching =>
      have hperform : ∃ r, s.loop.perform .ready = some r := by
        simp only [SelectEngine.perform, hpc]
        rcases h.loop.heap.peek with ⟨-, event, hpeek⟩ | ⟨data, hpeek⟩
        · exact ⟨_, by simp only [hpeek]; rfl⟩
        · exact ⟨_, by simp only [hpeek]; rfl⟩
      exact Or.inl (loopGoesOn_of_plain (hpc ▸ trivial) hperform)
  | timedOut event =>
      rw [hpc] at hwaits
      obtain ⟨event, rfl⟩ := Option.ne_none_iff_exists'.mp hwaits
      have hperform : ∃ r, s.loop.perform .ready = some r := by
        simp only [SelectEngine.perform, hpc, Option.map_some]
        exact ⟨_, rfl⟩
      exact Or.inl (loopGoesOn_of_plain (hpc ▸ trivial) hperform)
  | popping event =>
      rw [hpc] at hheld
      obtain ⟨data, q, hpop, -⟩ := h.loop.heap.pop (hheld (Option.some_ne_none _)) (some event)
      have hperform : ∃ r, s.loop.perform .ready = some r := by
        simp only [SelectEngine.perform, hpc, hpop, if_true]
        exact ⟨_, rfl⟩
      exact Or.inl (loopGoesOn_of_plain (hpc ▸ trivial) hperform)
  | running event =>
      have hperform : ∃ r, s.loop.perform .ready = some r := by
        simp only [SelectEngine.perform, hpc, if_pos hidle]
        exact ⟨_, rfl⟩
      exact Or.inl (loopGoesOn_of_plain (hpc ▸ trivial) hperform)
  | returned | peeked _ | armed _ _ =>
      have hperform : ∃ r, s.loop.perform .ready = some r := by
        simp only [SelectEngine.perform, hpc]
        exact ⟨_, rfl⟩
      exact Or.inl (loopGoesOn_of_plain (hpc ▸ trivial) hperform)

/-! ## All threads -/

end BliveQueue.Engine
