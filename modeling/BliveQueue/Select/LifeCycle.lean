/-
# The life of an engine

`need_continue` is the stop request, the sign of a running loop and the permission to
start again. The loop sets it before it returns, so the destruction refuses an engine
whose loop has returned because of a stop. While the callbacks of the dispatch that has
read the stop message run, it is off, and the destruction frees the running engine.
-/

import BliveQueue.Select.Timers

namespace BliveQueue.Select

open BliveQueue.Math BliveQueue.Utils BliveQueue.Utils.PriQueue BliveQueue.Utils.Select
open BliveQueue.Utils.Select.SelectEngine BliveQueue.PriQueue

variable {s s' : SelectEngine} {act : Action} {obs : Observation} {ret : SelectRet} {c : Caller}
variable {history : List (LifeAction × LifeEvent)} {engine : Option SelectEngine}

/-- Whether a stop message has been read since `select_engine_perform` was last called, after
one more event. -/
def takenAfter (taken : Bool) : LifeEvent → Bool
  | .created | .started => false
  | .stopTaken => true
  | .stopped | .destroyed _ | .other => taken

def stopTaken (history : List (LifeAction × LifeEvent)) : Bool :=
  history.foldl (fun taken label => takenAfter taken label.2) false

/-- Whether `select_engine_perform` has returned because of a stop and has not been called
again, after one more event. -/
def returnedAfter (returned : Bool) : LifeEvent → Bool
  | .created | .started => false
  | .stopped => true
  | .stopTaken | .destroyed _ | .other => returned

def returnedByStop (history : List (LifeAction × LifeEvent)) : Bool :=
  history.foldl (fun returned label => returnedAfter returned label.2) false

@[simp] theorem stopTaken_concat (history : List (LifeAction × LifeEvent)) (act : LifeAction)
    (event : LifeEvent) :
    stopTaken (history ++ [(act, event)]) = takenAfter (stopTaken history) event := by
  simp [stopTaken]

@[simp] theorem returnedByStop_concat (history : List (LifeAction × LifeEvent)) (act : LifeAction)
    (event : LifeEvent) :
    returnedByStop (history ++ [(act, event)]) = returnedAfter (returnedByStop history) event := by
  simp [returnedByStop]

/-- The destruction succeeds when the loop has returned because of a stop, and refuses while
the loop or its callbacks run. -/
def DestroysWell (history : List (LifeAction × LifeEvent)) (s : SelectEngine) : Prop :=
  (returnedByStop history = true → selectEngineDestroy (some s) = (.ok, none)) ∧
    (s.pc ≠ .returned → ∃ code, code ≠ .ok ∧ selectEngineDestroy (some s) = (code, some s))

/-- What a history says about the flag: there was no stop, a stop has been read and the
loop comes to its head next, or the loop has returned because of it. -/
inductive Stage (history : List (LifeAction × LifeEvent)) (s : SelectEngine) : Prop
  | fresh (taken : stopTaken history = false) (returned : returnedByStop history = false)
      (on : s.needContinue = true)
  | stopping (taken : stopTaken history = true) (returned : returnedByStop history = false)
      (off : s.needContinue = false) (hpc : s.pc = .dispatching ∨ s.pc = .head)
  | stopped (taken : stopTaken history = true) (returned : returnedByStop history = true)
      (on : s.needContinue = true) (hpc : s.pc = .returned)

theorem selectEngineDestroy_on (h : s.needContinue = true) :
    selectEngineDestroy (some s) = (.invalid, some s) := if_pos h

theorem selectEngineDestroy_off (h : s.needContinue = false) :
    selectEngineDestroy (some s) = (.ok, none) := if_neg (by simp [h])

/-! ## Steps -/

/-- A loop whose flag is on keeps it on. -/
theorem Performs.needContinue (h : Performs s ret obs s') (on : s.needContinue = true) :
    s'.needContinue = true := by
  cases h <;> first | exact on | rfl

/-- A call leaves the flag alone. -/
theorem Calls.needContinue {a : CallAction} (h : Calls s c a obs s') :
    s'.needContinue = s.needContinue := by
  cases h <;> rfl

/-- An event of no meaning for the flag. -/
theorem Stage.keep (stage : Stage history s) (act : LifeAction) {event : LifeEvent}
    (htaken : takenAfter (stopTaken history) event = stopTaken history)
    (hreturned : returnedAfter (returnedByStop history) event = returnedByStop history)
    (hpc : s'.pc = s.pc) (hflag : s'.needContinue = s.needContinue) :
    Stage (history ++ [(act, event)]) s' := by
  rw [← stopTaken_concat history act] at htaken
  rw [← returnedByStop_concat history act] at hreturned
  cases stage with
  | fresh taken returned on =>
      exact .fresh (htaken.trans taken) (hreturned.trans returned) (hflag.trans on)
  | stopping taken returned off head =>
      exact .stopping (htaken.trans taken) (hreturned.trans returned) (hflag.trans off)
        (hpc ▸ head)
  | stopped taken returned on out =>
      exact .stopped (htaken.trans taken) (hreturned.trans returned) (hflag.trans on)
        (hpc.trans out)

theorem Stage.perform (stage : Stage history s) (h : s.perform ret = some (obs, s')) :
    Stage (history ++ [(.engine (.perform ret), lifeEvent s (.perform ret))]) s' := by
  cases stage with
  | fresh taken returned on =>
      have hon := (performs_of_perform h).needContinue on
      have hevent :
          lifeEvent s (.perform ret) = .started ∨ lifeEvent s (.perform ret) = .other := by
        cases hpc : s.pc <;> simp [lifeEvent, hpc, on]
      rcases hevent with hevent | hevent
      · exact .fresh (by simp [hevent, takenAfter]) (by simp [hevent, returnedAfter]) hon
      · exact .fresh (by simp [hevent, takenAfter, taken])
          (by simp [hevent, returnedAfter, returned]) hon
  | stopping taken returned off hpc =>
      rcases hpc with hpc | hpc
      · have hevent : lifeEvent s (.perform ret) = .other := by simp [lifeEvent, hpc]
        by_cases hidle : s.callState .engine = .idle
        · simp only [SelectEngine.perform, hpc, if_pos hidle, Option.some.injEq, Prod.mk.injEq] at h
          obtain ⟨-, rfl⟩ := h
          exact .stopping (by simp [hevent, takenAfter, taken])
            (by simp [hevent, returnedAfter, returned]) off (Or.inr rfl)
        · simp [SelectEngine.perform, hpc, hidle] at h
      · have hevent : lifeEvent s (.perform ret) = .stopped := by simp [lifeEvent, hpc, off]
        simp only [SelectEngine.perform, hpc, off, Bool.false_eq_true, if_false,
          Option.some.injEq, Prod.mk.injEq] at h
        obtain ⟨-, rfl⟩ := h
        exact .stopped (by simp [hevent, takenAfter, taken]) (by simp [hevent, returnedAfter])
          rfl rfl
  | stopped taken returned on hpc =>
      have hevent : lifeEvent s (.perform ret) = .started := by simp [lifeEvent, hpc]
      exact .fresh (by simp [hevent, takenAfter]) (by simp [hevent, returnedAfter])
        ((performs_of_perform h).needContinue on)

theorem Stage.manageFdCallback (stage : Stage history s)
    (h : s.manageFdCallback = some (obs, s')) :
    Stage (history ++ [(.engine .manageFdCallback, lifeEvent s .manageFdCallback)]) s' := by
  unfold SelectEngine.manageFdCallback at h
  split at h
  next rest hpc hpipe =>
    obtain ⟨-, rfl⟩ := Prod.mk.inj (Option.some.inj h)
    have hevent : lifeEvent s .manageFdCallback = .stopTaken := by simp [lifeEvent, hpipe]
    have hreturned : returnedByStop history = false := by
      cases stage with
      | fresh _ returned _ => exact returned
      | stopping _ returned _ _ => exact returned
      | stopped _ _ _ out => simp [hpc] at out
    exact .stopping (by simp [hevent, takenAfter]) (by simp [hevent, returnedAfter, hreturned]) rfl
      (Or.inl hpc)
  next rest hpc hpipe =>
    obtain ⟨-, rfl⟩ := Prod.mk.inj (Option.some.inj h)
    have hevent : lifeEvent s .manageFdCallback = .other := by simp [lifeEvent, hpipe]
    rw [hevent]
    exact stage.keep _ rfl rfl rfl rfl
  next => cases h

theorem Stage.next (stage : Stage history s) (h : s.next act = some (obs, s')) :
    Stage (history ++ [(.engine act, lifeEvent s act)]) s' := by
  cases act with
  | perform ret => exact stage.perform h
  | manageFdCallback => exact stage.manageFdCallback h
  | call c a =>
      have hcalls := calls_of_call h
      exact stage.keep _ rfl rfl hcalls.frame.1 hcalls.needContinue
  | stop =>
      obtain ⟨-, rfl⟩ := Prod.mk.inj (Option.some.inj h)
      exact stage.keep _ rfl rfl rfl rfl
  | tick d =>
      obtain ⟨-, rfl⟩ := Prod.mk.inj (Option.some.inj h)
      exact stage.keep _ rfl rfl rfl rfl

/-- Every reachable engine is at one of the stages. -/
theorem Run.stage (run : lifeSystem.Trace history engine) :
    ∀ s, engine = some s → Stage history s := by
  apply run.invariant (I := fun history engine => ∀ s, engine = some s → Stage history s)
  · rintro engine hinit s rfl
    cases hinit
  · rintro history engine ⟨act, event⟩ engine' - hstage - ⟨-, hstep⟩ s' rfl
    cases act with
    | create manageFd clock =>
        simp only [lifeNext] at hstep
        split at hstep
        next q hqueue =>
          obtain ⟨rfl, hengine⟩ := Prod.mk.inj (Option.some.inj hstep)
          obtain rfl := Option.some.inj hengine
          exact .fresh (by simp [takenAfter]) (by simp [returnedAfter]) rfl
        next => cases hstep
    | engine act =>
        obtain ⟨s, hengine, hmap⟩ := Option.bind_eq_some_iff.mp hstep
        obtain ⟨⟨obs, s''⟩, hnext, hpair⟩ := Option.map_eq_some_iff.mp hmap
        obtain ⟨rfl, hsome⟩ := Prod.mk.inj hpair
        obtain rfl := Option.some.inj hsome
        exact (hstage s hengine).next hnext
    | destroy =>
        obtain ⟨s, hengine, hpair⟩ := Option.map_eq_some_iff.mp hstep
        obtain ⟨rfl, hleft⟩ := Prod.mk.inj hpair
        cases hflag : s.needContinue with
        | true =>
            rw [selectEngineDestroy_on hflag] at hleft
            obtain rfl := Option.some.inj hleft
            exact (hstage s hengine).keep _ rfl rfl rfl rfl
        | false =>
            rw [selectEngineDestroy_off hflag] at hleft
            cases hleft

/-! ## Destruction -/

/-- In every reachable state the destruction behaves well if and only if no stop message has
been read since the loop was last started. -/
theorem destroysWell_iff (run : lifeSystem.Trace history (some s)) :
    DestroysWell history s ↔ stopTaken history = false := by
  cases Run.stage run s rfl with
  | fresh taken returned on =>
      refine iff_of_true ⟨fun hreturned => ?_, fun _ => ?_⟩ taken
      · rw [returned] at hreturned
        cases hreturned
      · exact ⟨.invalid, nofun, selectEngineDestroy_on on⟩
  | stopping taken returned off hpc =>
      refine iff_of_false (fun hwell => ?_) (by simp [taken])
      -- the loop still runs, but the flag is off
      have hrunning : s.pc ≠ .returned := by
        rcases hpc with hpc | hpc <;> simp [hpc]
      obtain ⟨code, -, hdestroy⟩ := hwell.2 hrunning
      rw [selectEngineDestroy_off off] at hdestroy
      cases (Prod.mk.inj hdestroy).2
  | stopped taken returned on hpc =>
      refine iff_of_false (fun hwell => ?_) (by simp [taken])
      -- the loop has set the flag again on its way out
      have hdestroy := hwell.1 returned
      rw [selectEngineDestroy_on on] at hdestroy
      cases (Prod.mk.inj hdestroy).2

/-! ## Executions -/

instance : (engine : Option SelectEngine) → (act : LifeAction) → Decidable (LifeContract engine act)
  | some s, .engine act => inferInstanceAs (Decidable (s.MallocContract act))
  | none, .engine _ | none, .create _ _ | some _, .create _ _ | none, .destroy | some _, .destroy =>
    inferInstanceAs (Decidable True)

/-- A test passed by an execution of the life of an engine is passed at the end of a run. -/
theorem exists_life (acts : List LifeAction)
    (test : List (LifeAction × LifeEvent) × Option SelectEngine → Bool)
    (h : (System.execute (System.callNext LifeContract lifeNext System.anyStep) none acts).any
      test = true) :
    ∃ history engine, lifeSystem.Trace history engine ∧ test (history, engine) = true :=
  have hinit : lifeSystem.init none := rfl
  System.Run.exists_of_execute System.callNext_sound hinit _ _ h

/-- The loop from its start to a dispatch that finds a stop message in the pipe. -/
def startToDispatch : List LifeAction :=
  .create 3 0 :: .engine .stop :: List.replicate 7 (.engine (.perform .ready))

/-- A running loop is not destroyed before it has read the stop message. -/
theorem destroysWell_of_unread_stop :
    ∃ history s, lifeSystem.Trace history (some s) ∧ s.pc = .dispatching ∧
      s.managePipe = [.stop] ∧ DestroysWell history s := by
  obtain ⟨history, engine, run, htest⟩ := exists_life startToDispatch
    (fun r => r.2.any (fun s => s.pc = .dispatching ∧ s.managePipe = [.stop]) ∧
      stopTaken r.1 = false) (by decide +kernel)
  obtain ⟨hengine, htaken⟩ := of_decide_eq_true htest
  obtain ⟨s, rfl, hs⟩ := (Option.any_eq_true _ _).mp hengine
  obtain ⟨hpc, hpipe⟩ := of_decide_eq_true hs
  exact ⟨history, s, run, hpc, hpipe, (destroysWell_iff run).mpr htaken⟩

/-- Stop, wait for the loop to return, destroy: the destruction refuses. -/
theorem exists_stopped_not_destroyed :
    ¬ ∀ history s, lifeSystem.Trace history (some s) → DestroysWell history s := by
  intro hevery
  obtain ⟨history, engine, run, htest⟩ := exists_life
    (startToDispatch ++ [.engine .manageFdCallback, .engine (.perform .ready),
      .engine (.perform .ready)])
    (fun r => r.2.any (fun s => s.pc = .returned) ∧ stopTaken r.1 = true) (by decide +kernel)
  obtain ⟨hengine, htaken⟩ := of_decide_eq_true htest
  obtain ⟨s, rfl, -⟩ := (Option.any_eq_true _ _).mp hengine
  rw [(destroysWell_iff run).mp (hevery history s run)] at htaken
  cases htaken

end BliveQueue.Select
