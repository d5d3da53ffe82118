/-
# The lock of the engine

As long as no push finds the event queue full, the queue stays a heap in its block, an event
that the loop has peeked is still there when it pops, and the walk of a dispatch stands on
the table. So the loop leaves its critical section only where it gives the lock back: the
lock is taken exactly while the loop is in that section or a caller has it in its hands.
-/

import BliveQueue.Engine.Wakeup
import BliveQueue.FdPool.MapView
import BliveQueue.Select.Timers

namespace BliveQueue.Engine

open BliveQueue.FdPool BliveQueue.Math BliveQueue.Utils BliveQueue.Utils.Engine
open BliveQueue.Utils.Engine.SelectEngineT BliveQueue.Utils.FdPool BliveQueue.Utils.PriQueue
open BliveQueue.Utils.Select
open BliveQueue.Utils.Select.SelectEngine (CallAction)
open BliveQueue.PriQueue (Stores newQueue priQueueCreate_eq exists_stores_newQueue)
open BliveQueue.Select (Performs Calls WithinQueue performs_of_perform calls_of_call)

variable {s s' : SelectEngineT} {loop loop' : SelectEngine} {c c' : Caller} {a : CallAction}
variable {obs : SelectEngine.Observation} {ret : SelectRet} {readable : List Fd}
variable {q q' : PriQueueT EngineEvent} {event : EngineEvent} {act : SelectEngineT.Action}
variable {history : List SelectEngineT.Action}

/-! ## The event queue -/

/-- The event queue is a heap in its block. -/
def IsHeap (q : PriQueueT EngineEvent) : Prop :=
  ∃ heap slot, Stores eventQueuePriComp q heap slot

theorem IsHeap.peek (h : IsHeap q) :
    (0 < q.size ∧ ∃ event, priQueuePeek q = some (.ok, some event)) ∨
      ∃ data, priQueuePeek q = some (.resource, data) := by
  obtain ⟨heap, slot, st⟩ := h
  rcases Nat.eq_zero_or_pos heap.curSize with hsize | hsize
  · exact Or.inr ⟨_, st.peek_empty hsize⟩
  · exact Or.inl ⟨st.size_eq ▸ hsize, _, st.peek hsize⟩

/-- A queue that is not empty can be popped. -/
theorem IsHeap.pop (h : IsHeap q) (hpos : 0 < q.size) (pdata : Option EngineEvent) :
    ∃ data q', priQueuePopTrywait q pdata = some (.ok, data, q') ∧ IsHeap q' := by
  obtain ⟨heap, slot, st⟩ := h
  rw [st.size_eq] at hpos
  obtain ⟨n, hsize⟩ := Nat.exists_eq_succ_of_ne_zero hpos.ne'
  obtain ⟨q', mem, hpop, -, hstores⟩ := st.pop hsize pdata
  exact ⟨_, q', hpop, _, _, hstores⟩

/-- A push below capacity leaves a heap that has lost nothing. -/
theorem IsHeap.push (h : IsHeap q) {mem : Option Addr} {remem : Bool} {code : BliveErrno}
    (hmalloc : (PriQueueCall.push (some event) mem remem).MallocContract q)
    (hroom : q.size < q.capacity)
    (hpush : priQueuePush q (some event) mem remem = some (code, q')) :
    IsHeap q' ∧ q.size ≤ q'.size ∧ q.contents ≤ q'.contents := by
  obtain ⟨heap, slot, st⟩ := h
  have hcall : PriQueue.call q (.push (some event) mem remem) = some ((code, none), q') := by
    rw [PriQueue.call, hpush]
    rfl
  have hout := st.outcome hmalloc (Or.inl hroom) hcall
  rw [st.size_eq, st.capacity_eq] at hroom
  cases hout with
  | refused full _ => exact absurd full hroom.ne
  | outOfMem below => exact ⟨⟨heap, slot, st⟩, le_rfl, le_rfl⟩
  | pushed below _ hstores =>
      refine ⟨⟨_, _, hstores⟩, ?_, ?_⟩
      · rw [st.size_eq, hstores.size_eq]
        exact Nat.le_succ _
      · rw [st.contents_pushed hstores]
        exact Multiset.le_cons_self _ _

/-! ## The loop -/

/-- No push finds the event queue full. -/
def PushesFit (s : SelectEngineT) : SelectEngineT.Action → Prop
  | .call c a => WithinQueue s.loop (.call c a)
  | _ => True

/-- The event that the loop has peeked and not popped. -/
def heldEvent : Pc → Option EngineEvent
  | .peeked event | .running event | .popping event => some event
  | .armed event _ | .selecting event _ _ | .selected event _ | .timedOut event => event
  | .returned | .head | .locked | .watching | .dispatching => none

/-- Only a wait for an event has an end. -/
def WaitsForEvent : Pc → Prop
  | .armed event wait | .selecting event wait _ => wait ≠ none → event ≠ none
  | .selected event .timeout | .timedOut event => event ≠ none
  | _ => True

/-- The lock is in the hands of the caller, or of the loop. -/
def Owns (loop : SelectEngine) (c : Caller) : Prop :=
  loop.callState c = .holding ∨ (c = .engine ∧ InLock loop.pc)

/-- What holds of the loop at each of its statements. -/
structure Sound (loop : SelectEngine) : Prop where
  heap : IsHeap loop.eventQueue
  held : heldEvent loop.pc ≠ none → 0 < loop.eventQueue.size
  waits : WaitsForEvent loop.pc
  owner : ∀ c, loop.runningFlag = some c → Owns loop c

theorem Owns.move (h : Owns loop c) (hcalls : loop'.callState = loop.callState)
    (hlock : InLock loop.pc → InLock loop'.pc) : Owns loop' c := by
  rw [Owns, hcalls]
  exact h.imp_right fun hengine => ⟨hengine.1, hlock hengine.2⟩

/-- A statement that leaves queue, lock and calls alone. -/
theorem Sound.move (h : Sound loop) (hqueue : loop'.eventQueue = loop.eventQueue)
    (hflag : loop'.runningFlag = loop.runningFlag) (hcalls : loop'.callState = loop.callState)
    (hlock : InLock loop.pc → InLock loop'.pc)
    (hheld : heldEvent loop'.pc ≠ none → heldEvent loop.pc ≠ none)
    (hwaits : WaitsForEvent loop'.pc) : Sound loop' where
  heap := hqueue ▸ h.heap
  held hevent := hqueue ▸ h.held (hheld hevent)
  waits := hwaits
  owner c hc := (h.owner c (hflag ▸ hc)).move hcalls hlock

/-- A statement that gives the lock back. -/
theorem Sound.release (h : Sound loop) (hqueue : loop'.eventQueue = loop.eventQueue)
    (hflag : loop'.runningFlag = none)
    (hheld : heldEvent loop'.pc ≠ none → heldEvent loop.pc ≠ none)
    (hwaits : WaitsForEvent loop'.pc) : Sound loop' where
  heap := hqueue ▸ h.heap
  held hevent := hqueue ▸ h.held (hheld hevent)
  waits := hwaits
  owner c hc := absurd (hflag.symm.trans hc) (Option.some_ne_none c).symm

theorem not_inLock_of_eq {pc pc' : Pc} (hpc : pc = pc') (h : ¬ InLock pc') {P : Prop} :
    InLock pc → P := by
  rw [hpc]
  exact fun hlock => absurd hlock h

/-- A peek of a heap answers an event or that there is none. -/
theorem Sound.not_peekError (h : Sound loop) (hpc : loop.pc = .watching) :
    loop.perform ret ≠ some (obs, { loop with pc := .returned }) := by
  simp only [SelectEngine.perform, hpc]
  rcases h.heap.peek with ⟨-, event, hpeek⟩ | ⟨data, hpeek⟩
  · simp [hpeek]
  · simp [hpeek]

/-- A queue is not empty while the loop holds an event of it. -/
theorem Sound.pop_eq (h : Sound loop) (hpc : loop.pc = .popping event) {code : BliveErrno}
    {data : Option EngineEvent}
    (hpop : priQueuePopTrywait loop.eventQueue (some event) = some (code, data, q)) :
    code = .ok ∧ IsHeap q := by
  have hheld := h.held
  rw [hpc] at hheld
  obtain ⟨data', q', hpop', hheap⟩ := h.heap.pop (hheld (Option.some_ne_none _)) (some event)
  obtain ⟨rfl, hrest⟩ := Prod.mk.inj (Option.some.inj (hpop.symm.trans hpop'))
  obtain ⟨-, rfl⟩ := Prod.mk.inj hrest
  exact ⟨rfl, hheap⟩

theorem Sound.perform (h : Sound loop) (hperform : loop.perform ret = some (obs, loop')) :
    Sound loop' := by
  have hwaits := h.waits
  have hheld := h.held
  cases performs_of_perform hperform with
  | start hpc =>
      exact h.move rfl rfl rfl (not_inLock_of_eq hpc id) (fun hno => absurd rfl hno) trivial
  | enter hpc free =>
      refine ⟨h.heap, fun hno => absurd rfl hno, trivial, fun c hc => Or.inr ⟨?_, trivial⟩⟩
      exact (Option.some.inj hc).symm
  | leave hpc =>
      exact h.move rfl rfl rfl (not_inLock_of_eq hpc id) (fun hno => absurd rfl hno) trivial
  | watch hpc => exact h.move rfl rfl rfl (fun _ => trivial) (fun hno => absurd rfl hno) trivial
  | @peek event hpc top =>
      have hsize : 0 < loop.eventQueue.size := by
        rcases h.heap.peek with ⟨hpos, -⟩ | ⟨data, hnone⟩
        · exact hpos
        · exact absurd (hnone.symm.trans top) (by simp)
      exact ⟨h.heap, fun _ => hsize, trivial,
        fun c hc => (h.owner c hc).move rfl fun _ => trivial⟩
  | peekNone hpc empty =>
      obtain rfl := eq_none_of_resource empty
      exact h.move rfl rfl rfl (fun _ => trivial) (fun hno => absurd rfl hno)
        fun hwait => absurd rfl hwait
  | peekError hpc => exact absurd hperform (h.not_peekError hpc)
  | arm hpc =>
      rw [hpc] at hheld
      exact ⟨h.heap, fun _ => hheld (Option.some_ne_none _), fun _ => Option.some_ne_none _,
        fun c hc => (h.owner c hc).move rfl fun _ => trivial⟩
  | select hpc =>
      rw [hpc] at hwaits
      refine h.move rfl rfl rfl (fun _ => trivial) ?_ hwaits
      rw [hpc]
      exact id
  | wake hpc may =>
      rw [hpc] at hwaits
      refine h.move rfl rfl rfl (fun _ => trivial) ?_ ?_
      · rw [hpc]
        exact id
      · cases ret with
        | timeout =>
            obtain ⟨⟨tm, rfl, -⟩, -⟩ := may
            exact hwaits (Option.some_ne_none tm)
        | ready => trivial
        | interrupted => trivial
  | timeOut hpc =>
      rw [hpc] at hwaits
      refine h.release rfl rfl ?_ hwaits
      rw [hpc]
      exact id
  | dispatch hpc => exact h.release rfl rfl (fun hno => absurd rfl hno) trivial
  | interrupt hpc => exact h.release rfl rfl (fun hno => absurd rfl hno) trivial
  | run hpc =>
      refine h.move rfl rfl rfl (not_inLock_of_eq hpc id) ?_ trivial
      rw [hpc]
      exact id
  | callbackReturns hpc idle =>
      refine h.move rfl rfl rfl (not_inLock_of_eq hpc id) ?_ trivial
      rw [hpc]
      exact id
  | pop hpc popped =>
      exact ⟨(h.pop_eq hpc popped).2, fun hno => absurd rfl hno, trivial,
        fun c hc => (h.owner c hc).move rfl (not_inLock_of_eq hpc id)⟩
  | popFails hpc failed popped => exact absurd (h.pop_eq hpc popped).1 failed
  | dispatched hpc idle =>
      exact h.move rfl rfl rfl (not_inLock_of_eq hpc id) (fun hno => absurd rfl hno) trivial

/-! ## The calls -/

/-- A caller that moves on without the lock leaves the lock to its owner. -/
theorem Owns.setCall (h : Owns loop c') (hnot : loop.callState c ≠ .holding)
    {callState : CallState}
    (hcalls : loop'.callState = Function.update loop.callState c callState)
    (hpc : loop'.pc = loop.pc) : Owns loop' c' := by
  rw [Owns, hcalls, hpc]
  refine h.imp_left fun hholding => ?_
  have hne : c' ≠ c := by
    rintro rfl
    exact hnot hholding
  rw [Function.update_of_ne hne]
  exact hholding

/-- A step of a caller without the lock. -/
theorem Sound.callStep (h : Sound loop) (hheap : IsHeap loop'.eventQueue)
    (hsize : loop.eventQueue.size ≤ loop'.eventQueue.size)
    (hnot : loop.callState c ≠ .holding) {callState : CallState}
    (hcalls : loop'.callState = Function.update loop.callState c callState)
    (hpc : loop'.pc = loop.pc) (hflag : loop'.runningFlag = loop.runningFlag) : Sound loop' where
  heap := hheap
  held hevent := (h.held (hpc ▸ hevent)).trans_le hsize
  waits := hpc ▸ h.waits
  owner c' hc' := (h.owner c' (hflag ▸ hc')).setCall hnot hcalls hpc

theorem Sound.call (h : Sound loop) (hmalloc : loop.MallocContract (.call c a))
    (hfits : WithinQueue loop (.call c a)) (calls : Calls loop c a obs loop') : Sound loop' := by
  cases calls with
  | stamp idle => exact h.callStep h.heap le_rfl (by simp [idle]) rfl rfl rfl
  | @push mem remem event code q stamped pushed =>
      have hcontract :
          (PriQueueCall.push (some event) mem remem).MallocContract loop.eventQueue := by
        cases mem <;> exact hmalloc
      obtain ⟨hheap, hsize, -⟩ := h.heap.push hcontract hfits pushed
      exact h.callStep hheap hsize (by simp [stamped]) rfl rfl rfl
  | changeFds idle => exact h.callStep h.heap le_rfl (by simp [idle]) rfl rfl rfl
  | busy reloading => exact h.callStep h.heap le_rfl (by simp [reloading]) rfl rfl rfl
  | signal signalling => exact h.callStep h.heap le_rfl (by simp [signalling]) rfl rfl rfl
  | lock reloading free =>
      refine ⟨h.heap, h.held, h.waits, fun c' hc' => Or.inl ?_⟩
      obtain rfl := Option.some.inj hc'
      exact Function.update_self c _ _
  | unlock holding =>
      refine ⟨h.heap, h.held, h.waits, fun c' hc' => ?_⟩
      exact absurd hc' (Option.some_ne_none c').symm

/-- The fields that none of this depends on. -/
theorem Sound.congr (h : Sound loop) (hqueue : loop'.eventQueue = loop.eventQueue)
    (hpc : loop'.pc = loop.pc) (hflag : loop'.runningFlag = loop.runningFlag)
    (hcalls : loop'.callState = loop.callState) : Sound loop' :=
  h.move hqueue hflag hcalls (fun hlock => hpc ▸ hlock) (fun hevent => hpc ▸ hevent)
    (hpc ▸ h.waits)

/-! ## The engine -/

/-- The table holds a registry, and the walk of a dispatch stands on the table. -/
structure Stands (s : SelectEngineT) : Prop where
  serves : ∃ r, Serves s.round.fdPoll r
  walk : s.loop.pc = .dispatching → OnTable s.round

/-- What holds in every state of an engine. -/
structure Steady (s : SelectEngineT) : Prop extends Stands s where
  loop : Sound s.loop

/-- What a statement of the loop leaves as the fd set: under the lock that of the pool,
elsewhere a part of the old one. -/
def SetsFds (s : SelectEngineT) (fds : List Fd) : Prop :=
  if s.loop.pc = .locked then fdSet s.round.fdPoll = some fds else ∀ fd ∈ fds, fd ∈ s.loop.readFds

theorem setsFds_of_part (hpc : s.loop.pc ≠ .locked) {fds : List Fd}
    (hpart : ∀ fd ∈ fds, fd ∈ s.loop.readFds) : SetsFds s fds := by
  rw [SetsFds, if_neg hpc]
  exact hpart

theorem readFds_of_performs (h : Performs loop ret obs loop') (hpc : loop.pc ≠ .locked) :
    loop'.readFds = loop.readFds := by
  cases h with
  | watch hlocked => exact absurd hlocked hpc
  | _ => rfl

/-- A statement of `select_engine_perform` is one of the loop, which may set the fd set and
start a walk, or it is a statement of the walk. -/
theorem perform_cases (h : s.perform ret readable = some s') :
    (∃ obs loop fds, s.loop.perform ret = some (obs, loop) ∧
        s'.loop = { loop with readFds := fds } ∧ SetsFds s fds ∧
        ((s'.round = s.round ∧ loop.pc ≠ .dispatching) ∨
          startRound s.round.fdPoll s.loop.readFds = some s'.round)) ∨
      (s.loop.pc = .dispatching ∧ s'.loop = s.loop ∧
        ∃ obs, s.round.advance = some (obs, s'.round)) := by
  have hkept : ∀ {obs loop}, s.loop.pc ≠ .locked → s.loop.perform ret = some (obs, loop) →
      SetsFds s loop.readFds := by
    intro obs loop hpc hperform
    rw [readFds_of_performs (performs_of_perform hperform) hpc]
    exact setsFds_of_part hpc fun fd hfd => hfd
  unfold SelectEngineT.perform at h
  split at h
  next hpc =>
    obtain ⟨fds, hwalked, rfl⟩ := Option.map_eq_some_iff.mp h
    have hwatch : s.loop.perform ret =
        some (.silent, { s.loop with readFds := s.loop.fdPoll, pc := .watching }) := by
      simp only [SelectEngine.perform, hpc]
    have hfds : SetsFds s fds := by rwa [SetsFds, if_pos hpc]
    exact Or.inl ⟨_, _, fds, hwatch, rfl, hfds, Or.inl ⟨rfl, Pc.noConfusion⟩⟩
  next event wait since hpc =>
    split at h
    next => exact absurd h.symm (Option.some_ne_none _)
    next =>
      obtain ⟨⟨obs, loop⟩, hperform, rfl⟩ := Option.map_eq_some_iff.mp h
      have hlocked : s.loop.pc ≠ .locked := by simp [hpc]
      have hfds : SetsFds s (s.selectedFds ret readable) := by
        refine setsFds_of_part hlocked fun fd hfd => ?_
        cases ret with
        | timeout => exact absurd hfd List.not_mem_nil
        | ready => exact (List.mem_filter.mp hfd).1
        | interrupted => exact hfd
      refine Or.inl ⟨obs, loop, _, hperform, rfl, hfds, Or.inl ⟨rfl, ?_⟩⟩
      simp only [SelectEngine.perform, hpc] at hperform
      split at hperform
      next =>
        obtain ⟨-, rfl⟩ := Prod.mk.inj (Option.some.inj hperform)
        exact Pc.noConfusion
      next => exact absurd hperform.symm (Option.some_ne_none _)
  next event hpc =>
    obtain ⟨⟨obs, loop⟩, hperform, hstart⟩ := Option.bind_eq_some_iff.mp h
    obtain ⟨round, hround, heq⟩ := Option.bind_eq_some_iff.mp hstart
    obtain rfl := Option.some.inj heq
    have hlocked : s.loop.pc ≠ .locked := by simp [hpc]
    exact Or.inl ⟨obs, loop, loop.readFds, hperform, rfl, hkept hlocked hperform, Or.inr hround⟩
  next hpc =>
    split at h
    next =>
      obtain ⟨⟨obs, loop⟩, hperform, rfl⟩ := Option.map_eq_some_iff.mp h
      have hlocked : s.loop.pc ≠ .locked := by simp [hpc]
      refine Or.inl ⟨obs, loop, loop.readFds, hperform, rfl, hkept hlocked hperform,
        Or.inl ⟨rfl, ?_⟩⟩
      simp only [SelectEngine.perform, hpc] at hperform
      split at hperform
      next =>
        obtain ⟨-, rfl⟩ := Prod.mk.inj (Option.some.inj hperform)
        exact Pc.noConfusion
      next => exact absurd hperform.symm (Option.some_ne_none _)
    next =>
      split at h
      next =>
        obtain ⟨⟨obs, round⟩, hadvance, rfl⟩ := Option.map_eq_some_iff.mp h
        exact Or.inr ⟨hpc, rfl, obs, hadvance⟩
      next => exact absurd h.symm (Option.some_ne_none _)
  next hlocked hselecting hready hdispatching =>
    obtain ⟨⟨obs, loop⟩, hperform, rfl⟩ := Option.map_eq_some_iff.mp h
    refine Or.inl ⟨obs, loop, loop.readFds, hperform, rfl, hkept hlocked hperform,
      Or.inl ⟨rfl, ?_⟩⟩
    cases performs_of_perform hperform with
    | dispatch hpc => exact absurd hpc (hready _)
    | _ => exact Pc.noConfusion

/-- The statements of the loop leave the table alone, and those of the walk only take entries
out of it. -/
theorem Stands.perform (h : Stands s) (hperform : s.perform ret readable = some s') :
    Stands s' ∧ ∀ fd, Registered s'.round.fdPoll fd → Registered s.round.fdPoll fd := by
  obtain ⟨r, hserves⟩ := h.serves
  rcases perform_cases hperform with
    ⟨obs, loop, fds, -, heq, -, ⟨hsame, hpc⟩ | hstart⟩ | ⟨hpc, -, obs, hadvance⟩
  · refine ⟨⟨⟨r, hsame ▸ hserves⟩, fun hpc' => absurd ?_ hpc⟩, fun fd hfd => hsame ▸ hfd⟩
    rw [heq] at hpc'
    exact hpc'
  · obtain ⟨on, htable, -⟩ := onTable_of_startRound hserves hstart
    exact ⟨⟨⟨r, htable ▸ hserves⟩, fun _ => on⟩, fun fd hfd => htable ▸ hfd⟩
  · have hnot : s.round.pc ≠ .finished := by
      intro hfinished
      simp [Round.advance, hfinished] at hadvance
    obtain ⟨obs', round, hadvance', on, hserves', -⟩ := hserves.advances (h.walk hpc) hnot
    obtain ⟨rfl, rfl⟩ := Prod.mk.inj (Option.some.inj (hadvance'.symm.trans hadvance))
    refine ⟨⟨⟨_, hserves'⟩, fun _ => on⟩, fun fd hfd => ?_⟩
    have hkept := hserves'.registered_iff.mp hfd
    exact hserves.registered_iff.mpr fun hnone => hkept (registryStep_of_none hnone)

/-- A call changes the pool and lets the walk stand. -/
theorem Stands.poolCall (h : Stands s) {p : PoolCall} (hcontract : p.Contract s.round.fdPoll)
    (hcall : s.poolCall c p = some s') : Stands s' := by
  unfold SelectEngineT.poolCall at hcall
  split at hcall
  next hcan =>
    obtain ⟨⟨code, t⟩, hrun, rfl⟩ := Option.map_eq_some_iff.mp hcall
    obtain ⟨r, hserves⟩ := h.serves
    obtain ⟨-, hserves', hgrows⟩ := hserves.call hcontract hrun
    refine ⟨⟨_, hserves'⟩, fun hpc => (h.walk ?_).grow hgrows⟩
    dsimp only at hpc
    split at hpc
    · exact hpc
    · exact hpc
  next => exact absurd hcall.symm (Option.some_ne_none _)

theorem Stands.step (h : Stands s) (hstep : engineSystem.step s act s') : Stands s' := by
  obtain ⟨hcontract, hnext⟩ := hstep
  cases act with
  | perform ret readable => exact (h.perform hnext).1
  | poolCall c p => exact h.poolCall hcontract hnext
  | manageFdCallback =>
      obtain ⟨⟨obs, loop⟩, hread, rfl⟩ := loop_of_manageFdCallback hnext
      refine ⟨h.serves, fun hpc => h.walk ?_⟩
      rwa [← pc_of_step (by simp) ⟨hcontract, hnext⟩]
  | call c a =>
      obtain ⟨⟨obs, loop⟩, hloop, rfl⟩ := loop_of_call hnext
      exact ⟨h.serves, fun hpc => h.walk ((calls_of_call hloop).frame.1 ▸ hpc)⟩
  | stop | tick d =>
      obtain rfl := Option.some.inj hnext
      exact ⟨h.serves, h.walk⟩

theorem Sound.step (h : Sound s.loop) (hfits : PushesFit s act)
    (hstep : engineSystem.step s act s') : Sound s'.loop := by
  obtain ⟨hcontract, hnext⟩ := hstep
  cases act with
  | perform ret readable =>
      rcases perform_cases hnext with ⟨obs, loop, fds, hloop, heq, -⟩ | ⟨-, heq, -⟩
      · rw [heq]
        exact (h.perform hloop).congr rfl rfl rfl rfl
      · exact heq ▸ h
  | call c a =>
      obtain ⟨⟨obs, loop⟩, hloop, rfl⟩ := loop_of_call hnext
      exact h.call hcontract hfits (calls_of_call hloop)
  | poolCall c p =>
      change s.poolCall c p = _ at hnext
      unfold SelectEngineT.poolCall at hnext
      split at hnext
      next hcan =>
        obtain ⟨⟨code, t⟩, hrun, rfl⟩ := Option.map_eq_some_iff.mp hnext
        have hidle : s.loop.callState c ≠ .holding := by simp [hcan.1]
        dsimp only
        split
        · exact h
        · exact h.callStep h.heap le_rfl hidle rfl rfl rfl
      next => exact absurd hnext.symm (Option.some_ne_none _)
  | manageFdCallback =>
      obtain ⟨⟨obs, loop⟩, hcallback, rfl⟩ := loop_of_manageFdCallback hnext
      unfold SelectEngine.manageFdCallback at hcallback
      split at hcallback
      next =>
        obtain ⟨-, rfl⟩ := Prod.mk.inj (Option.some.inj hcallback)
        exact h.congr rfl rfl rfl rfl
      next =>
        obtain ⟨-, rfl⟩ := Prod.mk.inj (Option.some.inj hcallback)
        exact h.congr rfl rfl rfl rfl
      next => exact absurd hcallback.symm (Option.some_ne_none _)
  | stop | tick d =>
      obtain rfl := Option.some.inj hnext
      exact h.congr rfl rfl rfl rfl

theorem Steady.step (h : Steady s) (hfits : PushesFit s act) (hstep : engineSystem.step s act s') :
    Steady s' :=
  ⟨h.toStands.step hstep, h.loop.step hfits hstep⟩

theorem Run.stands (run : engineSystem.Trace history s) : Stands s := by
  apply run.invariant (I := fun _ s => Stands s)
  · rintro s ⟨q, t, manageFd, clock, mem, code, hnonneg, hlt, -, hpool, rfl⟩
    obtain ⟨r, -, hserves⟩ := serves_of_createPool ⟨hnonneg, hlt⟩ hpool
    exact ⟨⟨r, hserves⟩, fun hpc => Pc.noConfusion hpc⟩
  · rintro history s act s' - hstands - hstep
    exact hstands.step hstep

theorem Run.steady (run : engineSystem.Run PushesFit history s) : Steady s := by
  refine ⟨Run.stands run.trace, ?_⟩
  apply run.invariant (I := fun _ s => Sound s.loop)
  · rintro s ⟨q, t, manageFd, clock, mem, code, -, -, hcreate, -, rfl⟩
    have hsize : 0 < priQueueSize ∧ priQueueSize < 2 ^ 31 := by decide
    obtain rfl : newQueue eventQueuePriComp priQueueSize true = q := by
      rw [priQueueCreate_eq hsize.1] at hcreate
      exact Option.some.inj (Option.some.inj hcreate)
    have : Nonempty EngineEvent := ⟨newEvent 0 0 0⟩
    obtain ⟨heap, slot, hstores, -⟩ :=
      exists_stores_newQueue eventQueuePriComp hsize.1 hsize.2 true
    refine ⟨⟨heap, slot, hstores⟩, fun hno => absurd rfl hno, trivial, fun c hc => ?_⟩
    exact absurd hc (Option.some_ne_none c).symm
  · rintro history s act s' - hsound hfits hstep
    exact hsound.step hfits hstep

/-- The lock is never lost and never taken twice: in every run in which no push finds the
queue full, it is in the hands of a caller if and only if that caller has taken it and not
given it back. The loop has it in its critical section and nowhere else. -/
theorem lock_owner (run : engineSystem.Run PushesFit history s) :
    (∀ c, s.loop.runningFlag = some c ↔ Owns s.loop c) ∧
      ∀ c c', Owns s.loop c → Owns s.loop c' → c = c' := by
  have hawake := Run.awake run.trace
  have hsteady := Run.steady run
  have howner : ∀ c, Owns s.loop c → s.loop.runningFlag = some c := by
    rintro c (hholding | ⟨rfl, hlock⟩)
    · exact hawake.holding c hholding
    · exact hawake.locked hlock
  refine ⟨fun c => ⟨hsteady.loop.owner c, howner c⟩, fun c c' hc hc' => ?_⟩
  exact Option.some.inj ((howner c hc).symm.trans (howner c' hc'))

/-! ## Executions -/

instance (s : SelectEngineT) : (act : SelectEngineT.Action) → Decidable (PushesFit s act)
  | .call c a => inferInstanceAs (Decidable (WithinQueue s.loop (.call c a)))
  | .perform _ _ | .manageFdCallback | .poolCall _ _ | .stop | .tick _ =>
    inferInstanceAs (Decidable True)

/-- A thread has added a file descriptor and taken the lock while the loop is at its head. -/
theorem lock_owner_of_thread :
    ∃ history s, engineSystem.Run PushesFit history s ∧ s.loop.pc = .head ∧
      s.loop.runningFlag = some (.thread 0) ∧
      (∀ c, s.loop.runningFlag = some c ↔ Owns s.loop c) ∧
        ∀ c c', Owns s.loop c → Owns s.loop c' → c = c' := by
  obtain ⟨history, s, run, htest⟩ := exists_run PushesFit
    [.perform .timeout [], .poolCall (.thread 0) (.add 5 false ⟨true, some 1, true⟩),
      .call (.thread 0) .trylock]
    (fun r => r.2.loop.pc = .head ∧ r.2.loop.runningFlag = some (.thread 0)) (by decide +kernel)
  obtain ⟨hpc, hflag⟩ := of_decide_eq_true htest
  exact ⟨history, s, run, hpc, hflag, lock_owner run⟩

end BliveQueue.Engine
