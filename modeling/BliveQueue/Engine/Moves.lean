/-
# The steps of the engine with its fd pool

What each step does to the loop and to the pool. The pool stays well formed, and the
walk that builds the fd set finds exactly the file descriptors that the pool watches.
-/

import BliveQueue.FdPool.Rounds
import BliveQueue.Hash.Foreach
import BliveQueue.Select.Steps
import BliveQueue.Utils.Engine

namespace BliveQueue.Engine

open BliveQueue.FdPool BliveQueue.Hash BliveQueue.Utils BliveQueue.Utils.Engine
open BliveQueue.Utils.FdPool BliveQueue.Utils.Hash BliveQueue.Utils.Select
open BliveQueue.Utils.Select.SelectEngine (CallAction)
open BliveQueue.Utils.Engine.SelectEngineT
open BliveQueue.Select (Performs performs_of_perform calls_of_call)

variable {s s' : SelectEngineT} {t t' : FdPoll} {chain : ℕ → List EntryPtr}
variable {recycled : List EntryPtr} {act : Action} {ret : SelectRet} {readable : List Fd}
variable {c : Caller}

/-! ## The fd set -/

theorem pairOf_fdData {p : EntryPtr} {fd : Fd} {temporary : Bool}
    (hd : dataOf t.entry p = some (fdData fd temporary)) :
    pairOf t.entry p = (fdKey fd, some ⟨fd, temporary⟩) :=
  pairOf_of_data hd

theorem Pool.registered_iff (h : Pool t chain recycled) {fd : Fd} :
    Registered t fd ↔ ∃ p, Stored chain p ∧ fdOf t p = some fd := by
  constructor
  · exact h.stored_of_registered
  · rintro ⟨p, hp, hfd⟩
    rw [Registered, h.entryOf_eq_some hp hfd, Option.bind_some, ← hfd, fdOf, dataOf]
    cases t.entry p <;> rfl

/-- The walk sets exactly the file descriptors that the pool watches. -/
theorem Pool.fdSet_eq (h : Pool t chain recycled) :
    ∃ fds, fdSet t = some fds ∧ ∀ fd, fd ∈ fds ↔ Registered t fd := by
  have hwatched : ∀ p ∈ walk t chain, ∃ fd temporary,
      dataOf t.entry p = some (fdData fd temporary) := by
    intro p hp
    obtain ⟨fd, temporary, -, hd⟩ := h.holds p (h.chained.mem_walk.mp hp)
    exact ⟨fd, temporary, hd⟩
  have hcontinues : ∀ given : List (CString × Option EngineFd),
      ∀ x ∈ (walk t chain).map (pairOf t.entry),
        (((given ++ [x]).getLast?).bind Prod.snd).isSome = true := by
    intro given x hx
    obtain ⟨p, hp, rfl⟩ := List.mem_map.mp hx
    obtain ⟨fd, temporary, hd⟩ := hwatched p hp
    simp [pairOf_fdData hd]
  refine ⟨_, by rw [fdSet, h.chained.hashForeach_eq, feed_of_continues _ hcontinues]; rfl, ?_⟩
  intro fd
  rw [Pool.registered_iff h, List.mem_filterMap]
  constructor
  · rintro ⟨x, hx, hfd⟩
    obtain ⟨p, hp, rfl⟩ := List.mem_map.mp hx
    obtain ⟨fd', temporary, hd⟩ := hwatched p hp
    rw [pairOf_fdData hd] at hfd
    obtain rfl : fd' = fd := by simpa using hfd
    exact ⟨p, h.chained.mem_walk.mp hp, fdOf_of_data hd⟩
  · rintro ⟨p, hp, hfd⟩
    obtain ⟨-, temporary, hd⟩ := h.held hp hfd
    refine ⟨_, List.mem_map_of_mem (h.chained.mem_walk.mpr hp), ?_⟩
    rw [pairOf_fdData hd]
    rfl

/-! ## The pool during a dispatch -/

/-- What every reachable table is. -/
def IsPool (t : FdPoll) : Prop := ∃ chain recycled, Pool t chain recycled

theorem IsPool.popTemporary {r : Round} (h : IsPool r.fdPoll) {engineFd : EngineFd}
    (hpop : r.popTemporary engineFd = some t) : IsPool t := by
  obtain ⟨chain, recycled, hpool⟩ := h
  unfold Round.popTemporary at hpop
  split at hpop
  · obtain ⟨ret, t', chain', recycled', heq, hpops, hchained⟩ :=
      hpool.chained.hashPop (fdKey engineFd.fd)
    rw [heq] at hpop
    obtain rfl := Option.some.inj hpop
    exact ⟨chain', recycled', hpool.of_pops hpops hchained⟩
  · obtain rfl := Option.some.inj hpop
    exact ⟨chain, recycled, hpool⟩

/-- The walk of a dispatch changes the table only by taking temporary entries out. -/
theorem IsPool.advance {r r' : Round} {obs : FdPool.Observation} (h : IsPool r.fdPoll)
    (hadvance : r.advance = some (obs, r')) : IsPool r'.fdPoll := by
  unfold Round.advance at hadvance
  split at hadvance
  next =>
    split at hadvance
    next =>
      obtain ⟨entry, -, heq⟩ := Option.map_eq_some_iff.mp hadvance
      cases heq
      exact h
    next =>
      cases hadvance
      exact h
  next p =>
    obtain ⟨e, -, hvisit⟩ := Option.bind_eq_some_iff.mp hadvance
    split at hvisit
    next =>
      cases hvisit
      exact h
    next engineFd =>
      split at hvisit
      next =>
        obtain ⟨t, hpop, heq⟩ := Option.bind_eq_some_iff.mp hvisit
        cases heq
        exact h.popTemporary hpop
      next =>
        cases hvisit
        exact h
  next =>
    cases hadvance
    exact h
  next => cases hadvance

theorem IsPool.call {p : PoolCall} {code : BliveErrno} (h : IsPool t) (hcontract : p.Contract t)
    (hrun : p.run t = some (code, t')) : IsPool t' := by
  obtain ⟨chain, recycled, hpool⟩ := h
  obtain ⟨chain', recycled', hpool', -⟩ := hpool.call hcontract hrun
  exact ⟨chain', recycled', hpool'⟩

/-- A call with a negative file descriptor leaves the pool alone. -/
theorem eq_of_refused {p : PoolCall} {code : BliveErrno} (hneg : p.fd < 0)
    (hrun : p.run t = some (code, t')) : t' = t := by
  cases p with
  | add fd temporary mem =>
      have hneg' : fd < 0 := hneg
      rw [run_add, selectEngineFdAdd, if_pos hneg'] at hrun
      exact (Prod.mk.inj (Option.some.inj hrun)).2.symm
  | del fd =>
      have hneg' : fd < 0 := hneg
      rw [PoolCall.run, selectEngineFdDel, if_pos hneg'] at hrun
      exact (Prod.mk.inj (Option.some.inj hrun)).2.symm

/-! ## Steps -/

/-- The caller whose call a step belongs to. -/
def callerOf : SelectEngineT.Action → Option Caller
  | .call c _ | .poolCall c _ => some c
  | .perform _ _ | .manageFdCallback | .stop | .tick _ => none

/-- The effect of a step on the loop and the pool, one case for each path of the source. -/
inductive Moves (s : SelectEngineT) : Option Caller → SelectEngineT → Prop
  | watch {fds : List Fd} (hpc : s.loop.pc = .locked) (walked : fdSet s.round.fdPoll = some fds) :
      Moves s none { s with loop := { s.loop with readFds := fds, pc := .watching } }
  | wake {event : Option EngineEvent} {wait : Option Timeval} {since : ℕ} {ret : SelectRet}
      {fds : List Fd} (hpc : s.loop.pc = .selecting event wait since) :
      Moves s none { s with loop := { s.loop with readFds := fds, pc := .selected event ret } }
  | dispatch {event : Option EngineEvent} {round : Round}
      (hpc : s.loop.pc = .selected event .ready) (table : round.fdPoll = s.round.fdPoll) :
      Moves s none
        { s with
          loop := { s.loop with runningFlag := none, pc := .dispatching }
          round := round }
  | advance {round : Round} (hpc : s.loop.pc = .dispatching) (pool : IsPool round.fdPoll) :
      Moves s none { s with round := round }
  | perform {ret : SelectRet} {obs : SelectEngine.Observation} {loop : SelectEngine}
      (elsewhere : s.loop.pc ≠ .locked) (awake : ∀ e w t, s.loop.pc ≠ .selecting e w t)
      (performs : Performs s.loop ret obs loop) : Moves s none { s with loop := loop }
  | manage {rest : List ManageEvent} {needContinue : Bool} (hpc : s.loop.pc = .dispatching) :
      Moves s none
        { s with loop := { s.loop with managePipe := rest, needContinue := needContinue } }
  | call {c : Caller} {a : CallAction} {obs : SelectEngine.Observation} {loop : SelectEngine}
      (other : ∀ fds, a ≠ .changeFds fds) (calls : Select.Calls s.loop c a obs loop) :
      Moves s (some c) { s with loop := loop }
  | refuse {c : Caller} {manageCb : Bool} : Moves s (some c) { s with manageCb := manageCb }
  | pool {c : Caller} {t : FdPoll} {manageCb : Bool} (can : s.loop.CanCall c)
      (idle : s.loop.callState c = .idle) (table : IsPool t) :
      Moves s (some c)
        { loop := s.loop.setCall c .reloading
          round := { s.round with fdPoll := t }
          manageCb := manageCb }
  | stop :
      Moves s none { s with loop := { s.loop with managePipe := s.loop.managePipe ++ [.stop] } }
  | tick {d : ℕ} : Moves s none { s with loop := { s.loop with clock := s.loop.clock + d } }

theorem table_of_startRound {round : Round} (h : startRound t readable = some round) :
    round.fdPoll = t := by
  obtain ⟨entry, -, rfl⟩ := Option.map_eq_some_iff.mp h
  rfl

variable {event : Option EngineEvent} {wait : Option Timeval} {since : ℕ}

/-- `select` returns with an answer that it may give. -/
theorem perform_selecting (hpc : s.loop.pc = .selecting event wait since) :
    s.perform ret readable = some s' ↔
      s.loop.MayAnswer wait since ret ∧ (ret = .ready → s.MayFind readable) ∧
        s' = { s with loop := { s.loop with
          readFds := s.selectedFds ret readable, pc := .selected event ret } } := by
  simp only [SelectEngineT.perform, hpc, SelectEngine.perform]
  by_cases hfind : ret = .ready → s.MayFind readable
  · have hnot : ¬ (ret = .ready ∧ ¬ s.MayFind readable) := fun h => h.2 (hfind h.1)
    rw [if_neg hnot]
    by_cases hmay : s.loop.MayAnswer wait since ret
    · rw [if_pos hmay, Option.map_some, Option.some.injEq, eq_comm]
      exact ⟨fun heq => ⟨hmay, hfind, heq⟩, fun h => h.2.2⟩
    · rw [if_neg hmay]
      exact iff_of_false (Option.some_ne_none _).symm fun h => hmay h.1
  · rw [if_pos (Classical.not_imp.mp hfind)]
    exact iff_of_false (Option.some_ne_none _).symm fun h => hfind h.2.1

/-- What `select` finds readable may be so. -/
theorem mayBeReady_of_mayFind (h : s.MayFind readable) : s.loop.MayBeReady := by
  obtain ⟨⟨fd, hread, hready⟩, hpipe⟩ := h
  refine ⟨fd, hread, ?_⟩
  rintro rfl
  exact hpipe.mp hready

theorem perform_ready (hpc : s.loop.pc = .selecting event wait since)
    (hfind : s.MayFind readable) :
    s.perform .ready readable = some { s with loop := { s.loop with
      readFds := s.selectedFds .ready readable, pc := .selected event .ready } } :=
  (perform_selecting hpc).mpr ⟨mayBeReady_of_mayFind hfind, fun _ => hfind, rfl⟩

theorem perform_timeout (hpc : s.loop.pc = .selecting event wait since)
    (hmay : s.loop.MayTimeOut wait since) :
    s.perform .timeout readable = some { s with loop := { s.loop with
      readFds := s.selectedFds .timeout readable, pc := .selected event .timeout } } :=
  (perform_selecting hpc).mpr ⟨hmay, fun hready => SelectRet.noConfusion hready, rfl⟩

theorem moves_of_perform (hpool : IsPool s.round.fdPoll)
    (h : s.perform ret readable = some s') : Moves s none s' := by
  unfold SelectEngineT.perform at h
  split at h
  next hpc =>
    obtain ⟨fds, hwalked, rfl⟩ := Option.map_eq_some_iff.mp h
    exact .watch hpc hwalked
  next event wait since hpc =>
    have hperform : s.perform ret readable = some s' := by
      rw [SelectEngineT.perform, hpc]
      exact h
    obtain ⟨-, -, rfl⟩ := (perform_selecting hpc).mp hperform
    exact .wake hpc
  next event hpc =>
    obtain ⟨⟨obs, loop⟩, hperform, hstart⟩ := Option.bind_eq_some_iff.mp h
    obtain ⟨round, hround, heq⟩ := Option.bind_eq_some_iff.mp hstart
    simp only [SelectEngine.perform, hpc] at hperform
    cases hperform
    cases heq
    exact .dispatch hpc (table_of_startRound hround)
  next hpc =>
    split at h
    next =>
      obtain ⟨⟨obs, loop⟩, hperform, rfl⟩ := Option.map_eq_some_iff.mp h
      refine .perform ?_ ?_ (performs_of_perform hperform)
      · rw [hpc]
        exact nofun
      · intro e w t
        rw [hpc]
        exact nofun
    next =>
      split at h
      next =>
        obtain ⟨⟨obs, round⟩, hadvance, rfl⟩ := Option.map_eq_some_iff.mp h
        exact .advance hpc (hpool.advance hadvance)
      next => cases h
  next hlocked hselecting _ _ =>
    obtain ⟨⟨obs, loop⟩, hperform, rfl⟩ := Option.map_eq_some_iff.mp h
    exact .perform hlocked hselecting (performs_of_perform hperform)

/-- A step of a call is one of the loop's model. -/
theorem loop_of_call {a : CallAction} (h : s.call c a = some s') :
    ∃ r, s.loop.call c a = some r ∧ s' = s.withLoop r := by
  cases a with
  | changeFds fds => exact absurd h.symm (Option.some_ne_none _)
  | stamp timeous =>
      simp only [SelectEngineT.call] at h
      split at h
      · obtain ⟨r, hr, rfl⟩ := Option.map_eq_some_iff.mp h
        exact ⟨r, hr, rfl⟩
      · exact absurd h.symm (Option.some_ne_none _)
  | push mem remem | trylock | finish =>
      obtain ⟨r, hr, rfl⟩ := Option.map_eq_some_iff.mp h
      exact ⟨r, hr, rfl⟩

/-- The callback of the pipe reads as in the loop's model. -/
theorem loop_of_manageFdCallback (h : s.manageFdCallback = some s') :
    ∃ r, s.loop.manageFdCallback = some r ∧ s' = s.withLoop r := by
  unfold SelectEngineT.manageFdCallback at h
  split at h
  next =>
    obtain ⟨r, hr, rfl⟩ := Option.map_eq_some_iff.mp h
    exact ⟨r, hr, rfl⟩
  next => exact absurd h.symm (Option.some_ne_none _)

theorem moves_of_call {a : CallAction} (h : s.call c a = some s') : Moves s (some c) s' := by
  obtain ⟨⟨obs, loop⟩, hcall, rfl⟩ := loop_of_call h
  refine .call ?_ (calls_of_call hcall)
  rintro fds rfl
  cases h

theorem moves_of_poolCall {p : PoolCall} (hpool : IsPool s.round.fdPoll)
    (hcontract : p.Contract s.round.fdPoll) (h : s.poolCall c p = some s') :
    Moves s (some c) s' := by
  unfold SelectEngineT.poolCall at h
  split at h
  next hcan =>
    obtain ⟨⟨code, t⟩, hrun, rfl⟩ := Option.map_eq_some_iff.mp h
    by_cases hneg : p.fd < 0
    · have htable := eq_of_refused hneg hrun
      simp only [if_pos hneg, htable]
      exact .refuse
    · simp only [if_neg hneg]
      exact .pool hcan.2.1 hcan.1 (hpool.call hcontract hrun)
  next => cases h

theorem moves_of_step (hpool : IsPool s.round.fdPoll) (h : engineSystem.step s act s') :
    Moves s (callerOf act) s' := by
  obtain ⟨hcontract, hnext⟩ := h
  cases act with
  | perform ret readable => exact moves_of_perform hpool hnext
  | manageFdCallback =>
      obtain ⟨⟨obs, loop⟩, hcallback, rfl⟩ := loop_of_manageFdCallback hnext
      unfold SelectEngine.manageFdCallback at hcallback
      split at hcallback
      next hpc _ => cases hcallback; exact .manage hpc
      next hpc _ => cases hcallback; exact .manage hpc
      next => cases hcallback
  | call c a => exact moves_of_call hnext
  | poolCall c p => exact moves_of_poolCall hpool hcontract hnext
  | stop => cases hnext; exact .stop
  | tick d => cases hnext; exact .tick

/-- Only the statements of `select_engine_perform` move the loop. -/
theorem pc_of_step (hact : ∀ ret readable, act ≠ .perform ret readable)
    (h : engineSystem.step s act s') : s'.loop.pc = s.loop.pc := by
  obtain ⟨-, hnext⟩ := h
  cases act with
  | perform ret readable => exact absurd rfl (hact ret readable)
  | manageFdCallback =>
      obtain ⟨⟨obs, loop⟩, hcallback, rfl⟩ := loop_of_manageFdCallback hnext
      unfold SelectEngine.manageFdCallback at hcallback
      split at hcallback
      next => cases hcallback; rfl
      next => cases hcallback; rfl
      next => cases hcallback
  | call c a =>
      obtain ⟨⟨obs, loop⟩, hcall, rfl⟩ := loop_of_call hnext
      exact (calls_of_call hcall).frame.1
  | poolCall c p =>
      change s.poolCall c p = _ at hnext
      unfold SelectEngineT.poolCall at hnext
      split at hnext
      next =>
        obtain ⟨r, -, rfl⟩ := Option.map_eq_some_iff.mp hnext
        dsimp only
        split <;> rfl
      next => cases hnext
  | stop => cases hnext; rfl
  | tick d => cases hnext; rfl

/-- A step of one caller leaves the calls of the others alone. -/
theorem Moves.callState_of_ne {caller : Option Caller} (move : Moves s caller s')
    (hne : caller ≠ some c) : s'.loop.callState c = s.loop.callState c := by
  cases move with
  | perform _ _ performs => exact congrFun performs.frame.1 c
  | call _ calls => exact calls.callState_of_ne fun heq => hne (congrArg some heq.symm)
  | pool => exact Function.update_of_ne (fun heq => hne (congrArg some heq.symm)) _ _
  | watch | wake | dispatch | advance | manage | refuse | stop | tick => rfl

end BliveQueue.Engine
