/-
# The engine as its timers see it

Beside the loop the whole engine has its fd pool, the walks over it and the callbacks of a
dispatch. The timers cannot tell these from the changes of the fd list that the model of the
loop allows at any time: that list holds what the pool watched after the last call, and the
walks since then have only taken entries out. Erasing the statements of the walks and the
refused calls, every run of the engine in which it watches its pipe is a run of that model: the
same events are pushed, run and popped, in the same order and at the same readings of the clock.
-/

import BliveQueue.Engine.Lock

namespace BliveQueue.Engine

open BliveQueue.FdPool BliveQueue.Math BliveQueue.Utils BliveQueue.Utils.Engine
open BliveQueue.Utils.Engine.SelectEngineT BliveQueue.Utils.FdPool BliveQueue.Utils.PriQueue
open BliveQueue.Utils.Select
open BliveQueue.Utils.Select.SelectEngine (CallAction)
open BliveQueue.PriQueue (newQueue priQueueCreate_eq)
open BliveQueue.Select (Performs Calls performs_of_perform calls_of_call)

variable {s s' : SelectEngineT} {loop loop' : SelectEngine} {c : Caller} {a : CallAction}
variable {obs : SelectEngine.Observation} {ret : SelectRet} {readable pool fds : List Fd}
variable {act : SelectEngineT.Action}

/-! ## What the timers see -/

/-- The loop with this list as its pool, which has read this fd set. -/
def timerView (loop : SelectEngine) (pool fds : List Fd) : SelectEngine :=
  { loop with fdPoll := pool, readFds := fds }

@[simp] theorem timerView_pc : (timerView loop pool fds).pc = loop.pc := rfl
@[simp] theorem timerView_eventQueue :
    (timerView loop pool fds).eventQueue = loop.eventQueue := rfl
@[simp] theorem timerView_callState :
    (timerView loop pool fds).callState = loop.callState := rfl
@[simp] theorem timerView_managePipe :
    (timerView loop pool fds).managePipe = loop.managePipe := rfl

/-- What a step of the loop's model shows. -/
def shown (r : Option (SelectEngine.Observation × SelectEngine)) : SelectEngine.Observation :=
  (r.map Prod.fst).getD .silent

/-- What the pool watches after the call. -/
def fdsAfter (s : SelectEngineT) (p : PoolCall) : List Fd :=
  ((p.run s.round.fdPoll).bind fun r => fdSet r.2).getD []

/-- The step of the loop's model that a step of the engine is. A statement of a walk is none,
and a call that is refused is none. -/
def timerStep (s : SelectEngineT) :
    SelectEngineT.Action → Option (SelectEngine.Action × SelectEngine.Observation)
  | .perform ret _ =>
    if s.loop.pc = .dispatching ∧ s.round.pc ≠ .finished then none
    else some (.perform ret, shown (s.loop.perform ret))
  | .manageFdCallback => some (.manageFdCallback, .silent)
  | .call c a => some (.call c a, shown (s.loop.call c a))
  | .poolCall c p =>
    if p.fd < 0 then none else some (.call c (.changeFds (fdsAfter s p)), .silent)
  | .stop => some (.stop, .silent)
  | .tick d => some (.tick d, .silent)

/-- A step of the engine and the step that the timers see. -/
abbrev ObservedStep :=
  SelectEngineT.Action × Option (SelectEngine.Action × SelectEngine.Observation)

/-- The engine with the view of its timers. -/
def observedSystem : System SelectEngineT ObservedStep where
  init := engineSystem.init
  step s label s' := engineSystem.step s label.1 s' ∧ label.2 = timerStep s label.1

/-- The list has what the pool watches, and the fd set of the view has what the loop reads. -/
structure Covers (s : SelectEngineT) (pool fds : List Fd) : Prop where
  pool : ∀ fd, Registered s.round.fdPoll fd → fd ∈ pool
  fds : ∀ fd ∈ s.loop.readFds, fd ∈ fds

/-! ## The statements of the loop -/

/-- What `select` may answer it may answer in the view. -/
theorem mayAnswer_timerView {event : Option EngineEvent} {wait : Option Timeval} {since : ℕ}
    (hreads : ReadsPipe loop) (hfds : ∀ fd ∈ loop.readFds, fd ∈ fds)
    (hpc : loop.pc = .selecting event wait since) (hmay : loop.MayAnswer wait since ret) :
    (timerView loop pool fds).MayAnswer wait since ret := by
  rw [ReadsPipe, hpc] at hreads
  cases ret with
  | timeout => exact ⟨hmay.1, fun _ => hmay.2 hreads⟩
  | ready =>
      obtain ⟨fd, hread, hpipe⟩ := hmay
      exact ⟨fd, hfds fd hread, hpipe⟩
  | interrupted => trivial

/-- A statement of the loop does the same to the view. -/
theorem perform_timerView_of_ne (h : loop.perform ret = some (obs, loop'))
    (hreads : ReadsPipe loop) (hfds : ∀ fd ∈ loop.readFds, fd ∈ fds) (hlocked : loop.pc ≠ .locked) :
    (timerView loop pool fds).perform ret = some (obs, timerView loop' pool fds) := by
  unfold SelectEngine.perform at h ⊢
  simp only [timerView_pc, timerView_eventQueue]
  split at h
  next => cases h; rfl
  next =>
    split at h
    next hcontinue =>
      split at h
      next hfree =>
        cases h
        exact (if_pos hcontinue).trans (if_pos hfree)
      next => cases h
    next hcontinue =>
      cases h
      exact if_neg hcontinue
  next hpc => exact absurd hpc hlocked
  next =>
    split at h
    next => cases h
    next => cases h; rfl
    next => cases h; rfl
    next => cases h; rfl
  next => cases h; rfl
  next => cases h; rfl
  next event wait since hpc =>
    split at h
    next hmay =>
      cases h
      exact if_pos (mayAnswer_timerView hreads hfds hpc hmay)
    next => cases h
  next event sel hpc => cases h; rfl
  next event hpc =>
    obtain ⟨e, rfl, heq⟩ := Option.map_eq_some_iff.mp h
    cases heq
    rfl
  next event hpc =>
    split at h
    next hidle =>
      cases h
      exact if_pos hidle
    next => cases h
  next event hpc =>
    split at h
    next => cases h
    next =>
      split at h
      next hok =>
        cases h
        exact if_pos hok
      next hfailed =>
        cases h
        exact if_neg hfailed
  next hpc =>
    split at h
    next hidle =>
      cases h
      exact if_pos hidle
    next => cases h

/-- Under the lock the view builds its own fd set. -/
theorem perform_timerView (pool : List Fd) (h : loop.perform ret = some (obs, loop'))
    (hreads : ReadsPipe loop) (hfds : ∀ fd ∈ loop.readFds, fd ∈ fds) :
    (timerView loop pool fds).perform ret =
      some (obs, timerView loop' pool (if loop.pc = .locked then pool else fds)) := by
  by_cases hlocked : loop.pc = .locked
  · rw [if_pos hlocked]
    simp only [SelectEngine.perform, timerView_pc, hlocked] at h ⊢
    cases h
    rfl
  · rw [if_neg hlocked]
    exact perform_timerView_of_ne h hreads hfds hlocked

/-- The fd set of the view stays beside that of the loop. -/
theorem Covers.setsFds (h : Covers s pool fds) (hpool : IsPool s.round.fdPoll) {read : List Fd}
    (hsets : SetsFds s read) :
    ∀ fd ∈ read, fd ∈ if s.loop.pc = .locked then pool else fds := by
  intro fd hfd
  unfold SetsFds at hsets
  split at hsets
  next hpc =>
    rw [if_pos hpc]
    obtain ⟨chain, recycled, hpool⟩ := hpool
    obtain ⟨fds', hset, hmem⟩ := Pool.fdSet_eq hpool
    obtain rfl := Option.some.inj (hset.symm.trans hsets)
    exact h.pool fd ((hmem fd).mp hfd)
  next hpc =>
    rw [if_neg hpc]
    exact h.fds fd (hsets fd hfd)

/-! ## The calls -/

/-- A step of a call does the same to the view. -/
theorem call_timerView (pool fds : List Fd) (other : ∀ fds, a ≠ .changeFds fds)
    (calls : Calls loop c a obs loop') :
    (timerView loop pool fds).call c a = some (obs, timerView loop' pool fds) := by
  cases calls with
  | stamp idle can nonneg => exact if_pos ⟨idle, can, nonneg⟩
  | push stamped pushed =>
      simp only [SelectEngine.call, timerView_callState, timerView_eventQueue, stamped, pushed]
      rfl
  | changeFds idle can => exact absurd rfl (other _)
  | lock reloading free => exact (if_pos reloading).trans (if_pos free)
  | busy reloading taken => exact (if_pos reloading).trans (if_neg taken)
  | unlock holding =>
      simp only [SelectEngine.call, timerView_callState, holding]
      rfl
  | signal signalling =>
      simp only [SelectEngine.call, timerView_callState, signalling]
      rfl

/-- A change of the pool changes the list. -/
theorem changeFds_timerView (idle : loop.callState c = .idle) (can : loop.CanCall c)
    (pool' : List Fd) :
    (timerView loop pool fds).call c (.changeFds pool') =
      some (.silent, timerView (loop.setCall c .reloading) pool' fds) :=
  if_pos ⟨idle, can⟩

theorem manageFdCallback_timerView (h : loop.manageFdCallback = some (obs, loop')) :
    (timerView loop pool fds).manageFdCallback = some (.silent, timerView loop' pool fds) := by
  unfold SelectEngine.manageFdCallback at h ⊢
  simp only [timerView_pc, timerView_managePipe]
  split at h
  next => cases h; rfl
  next => cases h; rfl
  next => cases h

/-! ## Steps -/

/-- The timers do not see the step, or it is a step of the loop's model. -/
def Seen (s : SelectEngineT) (act : SelectEngineT.Action) (s' : SelectEngineT)
    (pool fds : List Fd) : Prop :=
  (timerStep s act = none ∧ s'.loop = s.loop ∧ Covers s' pool fds) ∨
    ∃ answer pool' fds', timerStep s act = some answer ∧ Covers s' pool' fds' ∧
      selectSystem.step (timerView s.loop pool fds) answer (timerView s'.loop pool' fds')

/-- A step of the loop, the pipe or a caller that leaves the fd sets alone. -/
theorem Covers.withLoop (h : Covers s pool fds) (hfds : loop.readFds = s.loop.readFds) :
    Covers { s with loop := loop } pool fds :=
  ⟨h.pool, fun fd hfd => h.fds fd (hfds ▸ hfd)⟩

/-- The statements of the loop and of the walk. -/
theorem seen_perform (hcovers : Covers s pool fds) (hpool : IsPool s.round.fdPoll)
    (hstands : Stands s) (hreads : ReadsPipe s.loop) (h : s.perform ret readable = some s') :
    Seen s (.perform ret readable) s' pool fds := by
  have hregistered := (hstands.perform h).2
  rcases perform_cases h with ⟨obs, loop, read, hloop, heq, hsets, -⟩ | ⟨hpc, heq, obs, hadvance⟩
  · have hview := perform_timerView pool hloop hreads hcovers.fds
    by_cases hwalk : s.loop.pc = .dispatching ∧ s.round.pc ≠ .finished
    · -- a walk that has not ended is not a statement of the loop
      simp only [SelectEngineT.perform, hwalk.1, if_neg hwalk.2] at h
      split at h
      next =>
        obtain ⟨r, -, rfl⟩ := Option.map_eq_some_iff.mp h
        exact Or.inl ⟨if_pos hwalk, rfl, fun fd hfd => hcovers.pool fd (hregistered fd hfd),
          hcovers.fds⟩
      next => cases h
    · refine Or.inr ⟨_, pool, if s.loop.pc = .locked then pool else fds, if_neg hwalk,
        ⟨fun fd hfd => hcovers.pool fd (hregistered fd hfd), ?_⟩, trivial, ?_⟩
      · rw [heq]
        exact hcovers.setsFds hpool hsets
      · rw [heq, hloop]
        exact hview
  · have hnot : s.round.pc ≠ .finished := by
      intro hfinished
      simp [Round.advance, hfinished] at hadvance
    refine Or.inl ⟨if_pos ⟨hpc, hnot⟩, heq, fun fd hfd => ?_, fun fd hfd => ?_⟩
    · exact hcovers.pool fd (hregistered fd hfd)
    · exact hcovers.fds fd (heq ▸ hfd)

/-- A change of the pool. -/
theorem seen_poolCall (hcovers : Covers s pool fds) (hpool : IsPool s.round.fdPoll) {p : PoolCall}
    (hcontract : p.Contract s.round.fdPoll) (h : s.poolCall c p = some s') :
    Seen s (.poolCall c p) s' pool fds := by
  unfold SelectEngineT.poolCall at h
  split at h
  next hcan =>
    obtain ⟨⟨code, t⟩, hrun, rfl⟩ := Option.map_eq_some_iff.mp h
    by_cases hneg : p.fd < 0
    · obtain rfl := eq_of_refused hneg hrun
      refine Or.inl ⟨if_pos hneg, if_pos hneg, hcovers.pool, fun fd hfd => hcovers.fds fd ?_⟩
      rwa [if_pos hneg] at hfd
    · obtain ⟨chain, recycled, hpool'⟩ := hpool.call hcontract hrun
      obtain ⟨fds', hset, hmem⟩ := Pool.fdSet_eq hpool'
      have hafter : fdsAfter s p = fds' := by
        rw [fdsAfter, hrun, Option.bind_some, hset, Option.getD_some]
      refine Or.inr ⟨_, fds', fds, if_neg hneg, ⟨fun fd => (hmem fd).mpr, fun fd hfd => ?_⟩,
        trivial, ?_⟩
      · rw [if_neg hneg] at hfd
        exact hcovers.fds fd hfd
      · rw [if_neg hneg, hafter]
        exact changeFds_timerView hcan.1 hcan.2.1 fds'
  next => cases h

/-- Each step of the engine is one of the loop's model, or the timers do not see it. -/
theorem seen_step (hcovers : Covers s pool fds) (hpool : IsPool s.round.fdPoll)
    (hstands : Stands s) (hreads : ReadsPipe s.loop) (h : engineSystem.step s act s') :
    Seen s act s' pool fds := by
  obtain ⟨hcontract, hnext⟩ := h
  cases act with
  | perform ret readable => exact seen_perform hcovers hpool hstands hreads hnext
  | poolCall c p => exact seen_poolCall hcovers hpool hcontract hnext
  | manageFdCallback =>
      obtain ⟨⟨obs, loop⟩, hcallback, rfl⟩ := loop_of_manageFdCallback hnext
      have hfds : loop.readFds = s.loop.readFds := by
        unfold SelectEngine.manageFdCallback at hcallback
        split at hcallback
        next => cases hcallback; rfl
        next => cases hcallback; rfl
        next => cases hcallback
      exact Or.inr ⟨_, pool, fds, rfl, hcovers.withLoop hfds, trivial,
        manageFdCallback_timerView hcallback⟩
  | call c a =>
      obtain ⟨⟨obs, loop⟩, hcall, rfl⟩ := loop_of_call hnext
      have other : ∀ fds, a ≠ .changeFds fds := by
        rintro fds rfl
        cases hnext
      have hcalls := calls_of_call hcall
      have hfds : loop.readFds = s.loop.readFds := by
        cases hcalls <;> rfl
      have hview := call_timerView pool fds other hcalls
      refine Or.inr ⟨_, pool, fds, rfl, hcovers.withLoop hfds, hcontract, ?_⟩
      rw [hcall]
      exact hview
  | stop | tick d =>
      cases hnext
      exact Or.inr ⟨_, pool, fds, rfl, hcovers.withLoop rfl, trivial, rfl⟩

/-! ## Runs -/

/-- The loop's model stands where the engine does. -/
structure Views (s : SelectEngineT) (t : SelectEngine) : Prop where
  awake : Awake s
  stands : Stands s
  reads : ReadsPipe s.loop
  view : ∃ pool fds, Covers s pool fds ∧ t = timerView s.loop pool fds

variable {t : SelectEngine} {answer : SelectEngine.Action × SelectEngine.Observation}

theorem Views.of_step (h : Views s t) (hwatches : WatchesPipe s)
    (hstep : engineSystem.step s act s') (hcovers : Covers s' pool fds) :
    Views s' (timerView s'.loop pool fds) := by
  have hmove := moves_of_step h.awake.pool hstep
  exact ⟨h.awake.move hmove, h.stands.step hstep,
    h.reads.move h.awake.pool hmove fun _ _ => hwatches, pool, fds, hcovers, rfl⟩

/-- The model stands still while the timers see nothing. -/
theorem Views.unseen (h : Views s t) (hwatches : WatchesPipe s)
    (hstep : engineSystem.step s act s') (hnone : timerStep s act = none) : Views s' t := by
  obtain ⟨pool, fds, hcovers, rfl⟩ := h.view
  rcases seen_step hcovers h.awake.pool h.stands h.reads hstep with
    ⟨-, hsame, hcovers'⟩ | ⟨answer, pool', fds', hsome, -⟩
  · rw [← hsame]
    exact h.of_step hwatches hstep hcovers'
  · exact absurd (hsome.symm.trans hnone) (Option.some_ne_none _)

/-- The model takes every step that the timers see. -/
theorem Views.seen (h : Views s t) (hwatches : WatchesPipe s)
    (hstep : engineSystem.step s act s') (hanswer : timerStep s act = some answer) :
    ∃ t', selectSystem.step t answer t' ∧ Views s' t' := by
  obtain ⟨pool, fds, hcovers, rfl⟩ := h.view
  rcases seen_step hcovers h.awake.pool h.stands h.reads hstep with
    ⟨hnone, -⟩ | ⟨answer', pool', fds', hsome, hcovers', hview⟩
  · exact absurd (hanswer.symm.trans hnone) (Option.some_ne_none _)
  · obtain rfl := Option.some.inj (hanswer.symm.trans hsome)
    exact ⟨_, hview, h.of_step hwatches hstep hcovers'⟩

variable {guard : SelectEngine → SelectEngine.Action × SelectEngine.Observation → Prop}
variable {history : List ObservedStep}

/-- The engine watches its pipe, and the guard admits what its timers see. -/
def Observes (guard : SelectEngine → SelectEngine.Action × SelectEngine.Observation → Prop)
    (s : SelectEngineT) (label : ObservedStep) : Prop :=
  WatchesPipe s ∧ ∀ answer ∈ label.2, guard s.loop answer

theorem views_of_init (hinit : engineSystem.init s) :
    ∃ t, selectSystem.init t ∧ Views s t := by
  have hawake : Awake s := Run.awake (.start hinit)
  have hstands : Stands s := Run.stands (.start hinit)
  obtain ⟨q, t, manageFd, clock, mem, code, hnonneg, hlt, hcreate, hpool, rfl⟩ := hinit
  obtain ⟨r, hstarts, hserves⟩ := serves_of_createPool ⟨hnonneg, hlt⟩ hpool
  refine ⟨_, ⟨q, manageFd, clock, hcreate, rfl⟩, hawake, hstands, trivial, [manageFd], [],
    ⟨fun fd hfd => ?_, fun fd hfd => hfd⟩, rfl⟩
  have hr := hserves.registered_iff.mp hfd
  rcases hstarts with rfl | rfl
  · exact absurd rfl hr
  · rw [List.mem_singleton]
    by_contra hne
    exact hr (Function.update_of_ne hne _ _)

/-- The timers cannot tell the engine from the model of its loop: erasing the statements of
the walks and the refused calls, every run of the engine in which it watches its pipe is a run
of the model, with the same pushes, callbacks and pops, under every guard that does not look
at the pool. -/
theorem engine_refines_timers
    (blind : ∀ loop pool fds answer, guard loop answer → guard (timerView loop pool fds) answer)
    (run : observedSystem.Run (Observes guard) history s) :
    ∃ pool fds,
      selectSystem.Run guard (history.filterMap Prod.snd) (timerView s.loop pool fds) := by
  obtain ⟨t, hrun, hviews⟩ : ∃ t, selectSystem.Run guard (history.filterMap Prod.snd) t ∧
      Views s t := by
    apply System.Run.stutter Views Prod.snd ?_ ?_ ?_ run
    · exact fun s hinit => views_of_init hinit
    · rintro s label s' t hviews ⟨hwatches, -⟩ ⟨hstep, hlabel⟩ hnone
      exact hviews.unseen hwatches hstep (hlabel.symm.trans hnone)
    · rintro s label s' t answer hviews ⟨hwatches, hguard⟩ ⟨hstep, hlabel⟩ hsome
      obtain ⟨t', hnext, hviews'⟩ := hviews.seen hwatches hstep (hlabel.symm.trans hsome)
      obtain ⟨pool, fds, -, rfl⟩ := hviews.view
      exact ⟨t', blind _ _ _ _ (hguard _ hsome), hnext, hviews'⟩
  obtain ⟨pool, fds, -, rfl⟩ := hviews.view
  exact ⟨pool, fds, hrun⟩

/-! ## Executions -/

instance [∀ loop answer, Decidable (guard loop answer)] (s : SelectEngineT)
    (label : ObservedStep) : Decidable (Observes guard s label) :=
  inferInstanceAs (Decidable (_ ∧ _))

/-- One step that keeps the contracts and the guard, with what the timers see of it. -/
def observedNext (guard : SelectEngine → SelectEngine.Action × SelectEngine.Observation → Prop)
    [∀ loop answer, Decidable (guard loop answer)] (s : SelectEngineT)
    (act : SelectEngineT.Action) : Option (ObservedStep × SelectEngineT) :=
  if Observes guard s (act, timerStep s act) then
    (stepNext System.anyStep s act).map fun r => ((r.1, timerStep s r.1), r.2)
  else none

theorem observedNext_sound [∀ loop answer, Decidable (guard loop answer)]
    (act : SelectEngineT.Action) (label : ObservedStep)
    (h : observedNext guard s act = some (label, s')) :
    Observes guard s label ∧ observedSystem.step s label s' := by
  unfold observedNext at h
  split at h
  next hobserves =>
    obtain ⟨⟨act', s''⟩, hnext, heq⟩ := Option.map_eq_some_iff.mp h
    obtain ⟨rfl, rfl⟩ := Prod.mk.inj heq
    obtain ⟨rfl, -, hstep⟩ := stepNext_sound act act' hnext
    exact ⟨hobserves, hstep, rfl⟩
  next => exact absurd h.symm (Option.some_ne_none _)

/-- A test passed by such an execution from a new engine with the pipe 3 is passed at the end
of a run. -/
theorem exists_observed
    (guard : SelectEngine → SelectEngine.Action × SelectEngine.Observation → Prop)
    [∀ loop answer, Decidable (guard loop answer)]
    (acts : List SelectEngineT.Action) (test : List ObservedStep × SelectEngineT → Bool)
    (h : ((createPool 3 ⟨true, some 0, true⟩).bind fun r => System.execute (observedNext guard)
      (createEngine (newQueue eventQueuePriComp priQueueSize true) r.2 3 0) acts).any test = true) :
    ∃ history s, observedSystem.Run (Observes guard) history s ∧ test (history, s) = true := by
  obtain ⟨⟨history, s⟩, hrun, htest⟩ := (Option.any_eq_true _ _).mp h
  obtain ⟨⟨code, t⟩, hcreate, hexec⟩ := Option.bind_eq_some_iff.mp hrun
  have hstart : observedSystem.Run (Observes guard) [] _ := .start (init_newEngine hcreate)
  exact ⟨history, s, hstart.execute (fun s act label s' => observedNext_sound act label) hexec,
    htest⟩

/-- The only timer has run and has been popped, and the walk of a dispatch stands in the
callback of the pipe, which has read the message of a thread. -/
theorem engine_refines_timers_of_dispatch :
    ∃ history s, observedSystem.Run (Observes Select.Timely) history s ∧
      Select.collect Select.ranEvent (history.filterMap Prod.snd) = [newEvent 0 0 10] ∧
      s.InFdCallback (some s.loop.manageFd) ∧
      ∃ pool fds, selectSystem.Run Select.Timely (history.filterMap Prod.snd)
        (timerView s.loop pool fds) := by
  obtain ⟨history, s, run, htest⟩ := exists_observed Select.Timely
    ([.perform .timeout [], .call (.thread 0) (.stamp 10), .call (.thread 0) (.push (some 0) true),
        .call (.thread 0) .trylock, .call (.thread 0) .finish] ++
      List.replicate 5 (.perform .timeout []) ++ [.tick 10] ++
      List.replicate 9 (.perform .timeout []) ++
      [.poolCall (.thread 0) (.add 5 false ⟨true, some 1, true⟩), .call (.thread 0) .trylock,
        .call (.thread 0) .finish, .perform .ready [3]] ++
      List.replicate 5 (.perform .ready []) ++ [.manageFdCallback])
    (fun r => Select.collect Select.ranEvent (r.1.filterMap Prod.snd) = [newEvent 0 0 10] ∧
      r.2.InFdCallback (some r.2.loop.manageFd)) (by decide +kernel)
  obtain ⟨hran, hcallback⟩ := of_decide_eq_true htest
  exact ⟨history, s, run, hran, hcallback,
    engine_refines_timers (fun loop pool fds answer h => h) run⟩

end BliveQueue.Engine
