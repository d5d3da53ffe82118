/-
# Timer events

The loop peeks an event, waits, runs it and only then pops whatever is on top. What
is popped is the event that was run as long as nothing overtakes it: the event is
still on top when `select` times out, and from then on no other thread pushes an
event that sorts before it. What its own callback schedules cannot overtake it,
because the event is due. In such runs every event is run at most once, only the
event just run is removed, and nothing is lost.
-/

import BliveQueue.PriQueue.Refinement
import BliveQueue.Select.Deadlines
import BliveQueue.Select.Stamps

namespace BliveQueue.Select

open BliveQueue.Math BliveQueue.Utils BliveQueue.Utils.PriQueue BliveQueue.Utils.Select
open BliveQueue.Utils.Select.SelectEngine BliveQueue.PriQueue

variable {s s' : SelectEngine} {act : Action} {obs : Observation} {ret : SelectRet} {c : Caller}
variable {a : CallAction} {history : List (Action × Observation)}

/-- No push finds the event queue full. -/
def WithinQueue (s : SelectEngine) : Action → Prop
  | .call _ (.push _ _) => s.eventQueue.size < s.eventQueue.capacity
  | _ => True

/-- The peeked event is still on top when `select` times out, and until it is popped no
other thread pushes an event that sorts before it. -/
def NotOvertaken (s : SelectEngine) : Action → Prop
  | .perform .timeout =>
    match s.pc with
    | .selecting (some e) _ _ => priQueuePeek s.eventQueue = some (.ok, some e)
    | _ => True
  | .call (.thread t) (.push _ _) =>
    match Pc.due s.pc, s.callState (.thread t) with
    | some e, .stamped event => eventQueuePriComp e event = true
    | _, _ => True
  | _ => True

/-- The condition on the steps of a run. -/
def Timely (s : SelectEngine) (label : Action × Observation) : Prop :=
  WithinQueue s label.1 ∧ NotOvertaken s label.1

/-- The event whose callback has been run and which has not been popped. -/
def Pc.inFlight : Pc → Option EngineEvent
  | .running event => some event
  | .popping event => some event
  | _ => none

/-- The queue holds what was pushed and not popped, the events run are the events popped
and the one in flight, and a due event is on top. -/
structure Accounts (history : List (Action × Observation)) (s : SelectEngine) : Prop where
  stores : ∃ heap slot, Stores eventQueuePriComp s.eventQueue heap slot
  conserved : s.eventQueue.contents + (collect poppedEvent history : Multiset EngineEvent) =
    (collect pushedEvent history : Multiset EngineEvent)
  window : collect ranEvent history =
    collect poppedEvent history ++ (Pc.inFlight s.pc).toList
  top : ∀ e, Pc.due s.pc = some e → priQueuePeek s.eventQueue = some (.ok, some e)

/-- A step that leaves the queue and the event in flight alone. -/
theorem Accounts.quiet (h : Accounts history s) (hqueue : s'.eventQueue = s.eventQueue)
    (hpushed : pushedEvent obs = none) (hran : ranEvent obs = none)
    (hpopped : poppedEvent obs = none) (hflight : Pc.inFlight s'.pc = Pc.inFlight s.pc)
    (htop : ∀ e, Pc.due s'.pc = some e → priQueuePeek s.eventQueue = some (.ok, some e)) :
    Accounts (history ++ [(act, obs)]) s' where
  stores := by rw [hqueue]; exact h.stores
  conserved := by
    rw [hqueue, collect_concat, collect_concat, hpushed, hpopped]
    simpa using h.conserved
  window := by
    rw [collect_concat, collect_concat, hran, hpopped, hflight]
    simpa using h.window
  top := by rw [hqueue]; exact htop

theorem coe_concat (events : List EngineEvent) (e : EngineEvent) :
    ((events ++ [e] : List EngineEvent) : Multiset EngineEvent) = e ::ₘ events := by
  rw [Multiset.cons_coe, Multiset.coe_eq_coe]
  exact List.perm_append_singleton e events

/-- Popping a due event removes exactly this event. -/
theorem Accounts.pop_eq (h : Accounts history s) {e : EngineEvent}
    (hdue : Pc.due s.pc = some e) :
    ∃ q, priQueuePopTrywait s.eventQueue (some e) = some (.ok, some e, q) ∧
      e ::ₘ q.contents = s.eventQueue.contents ∧
      ∃ heap slot, Stores eventQueuePriComp q heap slot := by
  obtain ⟨heap, slot, hstores⟩ := h.stores
  obtain ⟨hpos, rfl⟩ := hstores.peek_eq_some_iff.mp (h.top e hdue)
  obtain ⟨n, hsize⟩ := Nat.exists_eq_succ_of_ne_zero hpos.ne'
  obtain ⟨q, mem, hpop, -, hstores'⟩ := hstores.pop hsize (some (slot 1).2)
  exact ⟨q, hpop, hstores.contents_popped hsize hstores', _, _, hstores'⟩

theorem Accounts.performs (h : Accounts history s) (hover : NotOvertaken s (.perform ret))
    (performs : Performs s ret obs s') : Accounts (history ++ [(.perform ret, obs)]) s' := by
  have htop := h.top
  cases performs with
  | @wake event wait since hpc may =>
      refine h.quiet rfl rfl rfl rfl (by rw [hpc]; rfl) fun e he => ?_
      cases ret with
      | timeout =>
          obtain rfl : event = some e := he
          simpa [NotOvertaken, hpc] using hover
      | ready => exact absurd he nofun
      | interrupted => exact absurd he nofun
  | @timeOut event hpc =>
      rw [hpc] at htop
      exact h.quiet rfl rfl rfl rfl (by rw [hpc]; rfl) htop
  | @run event hpc =>
      rw [hpc] at htop
      refine ⟨h.stores, ?_, ?_, htop⟩
      · simpa [collect_concat, pushedEvent, poppedEvent] using h.conserved
      · have hwindow := h.window
        rw [hpc] at hwindow
        simpa [collect_concat, ranEvent, poppedEvent, Pc.inFlight] using hwindow
  | @callbackReturns event hpc _ =>
      rw [hpc] at htop
      exact h.quiet rfl rfl rfl rfl (by rw [hpc]; rfl) htop
  | @pop event data q hpc popped =>
      obtain ⟨q', hpop, hcontents, hstores⟩ := h.pop_eq (by rw [hpc]; rfl)
      obtain ⟨rfl, rfl⟩ : data = some event ∧ q = q' := by simpa [hpop] using popped.symm
      refine ⟨hstores, ?_, ?_, nofun⟩
      · rw [collect_concat, collect_concat]
        simp only [pushedEvent, poppedEvent, Option.toList_none, Option.toList_some,
          List.append_nil, ← h.conserved, ← hcontents, coe_concat, Multiset.add_cons,
          Multiset.cons_add]
      · have hwindow := h.window
        rw [hpc] at hwindow
        simpa [collect_concat, ranEvent, poppedEvent, Pc.inFlight] using hwindow
  | @popFails event code data q hpc failed popped =>
      obtain ⟨q', hpop, -⟩ := h.pop_eq (by rw [hpc]; rfl)
      rw [hpop] at popped
      exact absurd (congrArg (Option.map fun r => r.1) popped) (by simpa using Ne.symm failed)
  | start hpc => exact h.quiet rfl rfl rfl rfl (by rw [hpc]; rfl) nofun
  | enter hpc _ => exact h.quiet rfl rfl rfl rfl (by rw [hpc]; rfl) nofun
  | leave hpc => exact h.quiet rfl rfl rfl rfl (by rw [hpc]; rfl) nofun
  | watch hpc => exact h.quiet rfl rfl rfl rfl (by rw [hpc]; rfl) nofun
  | peek hpc _ => exact h.quiet rfl rfl rfl rfl (by rw [hpc]; rfl) nofun
  | peekNone hpc _ => exact h.quiet rfl rfl rfl rfl (by rw [hpc]; rfl) nofun
  | peekError hpc => exact h.quiet rfl rfl rfl rfl (by rw [hpc]; rfl) nofun
  | arm hpc => exact h.quiet rfl rfl rfl rfl (by rw [hpc]; rfl) nofun
  | select hpc => exact h.quiet rfl rfl rfl rfl (by rw [hpc]; rfl) nofun
  | dispatch hpc => exact h.quiet rfl rfl rfl rfl (by rw [hpc]; rfl) nofun
  | interrupt hpc => exact h.quiet rfl rfl rfl rfl (by rw [hpc]; rfl) nofun
  | dispatched hpc _ => exact h.quiet rfl rfl rfl rfl (by rw [hpc]; rfl) nofun

/-- A push below capacity keeps the accounts, if nothing due sorts after the new event. -/
theorem Accounts.push (h : Accounts history s) {mem : Option Addr} {remem : Bool}
    {event : EngineEvent} {code : BliveErrno} {q : PriQueueT EngineEvent}
    (hmalloc : s.MallocContract (.call c (.push mem remem)))
    (hroom : s.eventQueue.size < s.eventQueue.capacity)
    (hover : ∀ e, Pc.due s.pc = some e → eventQueuePriComp e event = true)
    (hpush : priQueuePush s.eventQueue (some event) mem remem = some (code, q))
    (hqueue : s'.eventQueue = q) (hpc : s'.pc = s.pc) :
    Accounts (history ++ [(act, .pushed event code)]) s' := by
  obtain ⟨heap, slot, hstores⟩ := h.stores
  have hcall : PriQueue.call s.eventQueue (.push (some event) mem remem) =
      some ((code, none), q) := by
    rw [PriQueue.call, hpush]
    rfl
  have hcontract : PriQueueCall.MallocContract s.eventQueue (.push (some event) mem remem) := by
    cases mem <;> exact hmalloc
  have hout := hstores.outcome hcontract (Or.inl hroom) hcall
  rw [hstores.size_eq, hstores.capacity_eq] at hroom
  cases hout with
  | refused full _ => exact absurd hroom (by omega)
  | outOfMem below =>
      exact h.quiet hqueue rfl rfl rfl (by rw [hpc]) (by rw [hpc]; exact h.top)
  | pushed below _ hstores' =>
      refine ⟨hqueue ▸ ⟨_, _, hstores'⟩, ?_, ?_, fun e he => ?_⟩
      · rw [collect_concat, collect_concat, hqueue]
        simp only [pushedEvent, poppedEvent, Option.toList_none, Option.toList_some,
          List.append_nil, coe_concat, ← h.conserved, hstores.contents_pushed hstores',
          Multiset.cons_add]
      · have hwindow := h.window
        rw [← hpc] at hwindow
        simpa [collect_concat, ranEvent, poppedEvent] using hwindow
      · rw [hpc] at he
        rw [hqueue]
        exact hstores.peek_pushed eventQueuePriComp_totalPreorder (h.top e he) (hover e he) hstores'

theorem Accounts.calls (h : Accounts history s) (punctual : Punctual s)
    (hmalloc : s.MallocContract (.call c a)) (htimely : Timely s (.call c a, obs))
    (calls : Calls s c a obs s') : Accounts (history ++ [(.call c a, obs)]) s' := by
  cases calls with
  | @push mem remem event code q stamped pushed =>
      refine h.push hmalloc htimely.1 (fun e he => ?_) pushed rfl rfl
      cases c with
      | engine => exact punctual.own e event he stamped
      | thread t => simpa [Timely, NotOvertaken, he, stamped] using htimely.2
  | stamp => exact h.quiet rfl rfl rfl rfl rfl h.top
  | changeFds => exact h.quiet rfl rfl rfl rfl rfl h.top
  | lock => exact h.quiet rfl rfl rfl rfl rfl h.top
  | busy => exact h.quiet rfl rfl rfl rfl rfl h.top
  | unlock => exact h.quiet rfl rfl rfl rfl rfl h.top
  | signal => exact h.quiet rfl rfl rfl rfl rfl h.top

theorem Accounts.steps (h : Accounts history s) (punctual : Punctual s)
    (hmalloc : s.MallocContract act) (htimely : Timely s (act, obs)) (steps : Steps s act obs s') :
    Accounts (history ++ [(act, obs)]) s' := by
  cases steps with
  | perform performs => exact h.performs htimely.2 performs
  | call calls => exact h.calls punctual hmalloc htimely calls
  | manage hpc => exact h.quiet rfl rfl rfl rfl rfl h.top
  | stop => exact h.quiet rfl rfl rfl rfl rfl h.top
  | tick => exact h.quiet rfl rfl rfl rfl rfl h.top

/-! ## Runs -/

/-- What holds along every timely run. -/
theorem Run.accounts (run : selectSystem.Run Timely history s) :
    Stamps (collect pushedEvent history) s ∧ Punctual s ∧ Accounts history s := by
  refine run.invariant (I := fun history s => Stamps (collect pushedEvent history) s ∧
    Punctual s ∧ Accounts history s) ?_ ?_
  · rintro s ⟨q, manageFd, clock, hcreate, rfl⟩
    have hsize : 0 < priQueueSize ∧ priQueueSize < 2 ^ 31 := by decide
    obtain rfl : newQueue eventQueuePriComp priQueueSize true = q := by
      rw [priQueueCreate_eq hsize.1] at hcreate
      exact Option.some.inj (Option.some.inj hcreate)
    have : Nonempty EngineEvent := ⟨newEvent 0 0 0⟩
    obtain ⟨heap, slot, hstores, hempty⟩ :=
      exists_stores_newQueue eventQueuePriComp hsize.1 hsize.2 true
    have hcontents : (newQueue eventQueuePriComp priQueueSize true).contents = 0 := by
      rw [hstores.contents_eq, hempty]
      rfl
    refine ⟨⟨List.nodup_nil, nofun, fun c e hc => absurd hc nofun,
        fun c c' e hc => absurd hc nofun⟩,
      ⟨nofun, fun _ => rfl, nofun⟩, ⟨⟨heap, slot, hstores⟩, ?_, rfl, nofun⟩⟩
    show (newQueue eventQueuePriComp priQueueSize true).contents + 0 = 0
    rw [hcontents]
    rfl
  · rintro history s ⟨act, obs⟩ s' - ⟨hstamps, hpunctual, haccounts⟩ htimely ⟨hmalloc, hnext⟩
    have hsteps := steps_of_next hnext
    refine ⟨?_, hpunctual.steps hsteps, haccounts.steps hpunctual hmalloc htimely hsteps⟩
    rw [collect_concat]
    exact hstamps.steps hsteps

theorem Pc.due_of_inFlight {pc : Pc} {e : EngineEvent} (h : Pc.inFlight pc = some e) :
    Pc.due pc = some e := by
  cases pc <;> first | exact h | exact absurd h nofun

/-- Only pushed events are run, each at most as often as it was pushed. -/
theorem Accounts.ran_le (h : Accounts history s) :
    (collect ranEvent history : Multiset EngineEvent) ≤ collect pushedEvent history := by
  rw [h.window, ← h.conserved]
  cases hflight : Pc.inFlight s.pc with
  | none =>
      rw [Option.toList_none, List.append_nil]
      exact Multiset.le_add_left _ _
  | some e =>
      obtain ⟨q, -, hcontents, -⟩ := h.pop_eq (Pc.due_of_inFlight hflight)
      rw [Option.toList_some, coe_concat, ← hcontents, Multiset.cons_add]
      exact Multiset.cons_le_cons e (Multiset.le_add_left _ _)

/-- The step that removes an event pops the one in flight. -/
theorem Accounts.of_popped (h : Accounts history s) {code : BliveErrno} {e : EngineEvent}
    (steps : Steps s act (.popped code (some e)) s') :
    collect ranEvent history = collect poppedEvent history ++ [e] := by
  have hwindow := h.window
  cases steps with
  | perform performs =>
      cases performs with
      | @pop event data q hpc popped =>
          obtain ⟨q', hpop, -⟩ := h.pop_eq (e := event) (by rw [hpc]; rfl)
          obtain ⟨rfl, -⟩ : event = e ∧ q' = q := by simpa [hpop] using popped
          rw [hpc] at hwindow
          exact hwindow
  | call calls => cases calls

/-- Timer events are neither lost nor run twice: in a run in which no event is overtaken,
every callback is run at most once and only for pushed events; an event is removed only
if it is the one just run, all those run before having been removed; and a pushed event
is still queued or has been run. -/
theorem timers_neither_lost_nor_run_twice (run : selectSystem.Run Timely history s) :
    (collect ranEvent history).Nodup ∧
      (∀ e ∈ collect ranEvent history, e ∈ collect pushedEvent history) ∧
      (∀ before act code e after, history = before ++ (act, .popped code (some e)) :: after →
        collect ranEvent before = collect poppedEvent before ++ [e]) ∧
      ∀ e ∈ collect pushedEvent history,
        e ∈ s.eventQueue.contents ∨ e ∈ collect ranEvent history := by
  obtain ⟨hstamps, -, haccounts⟩ := Run.accounts run
  refine ⟨?_, fun e he => ?_, ?_, fun e he => ?_⟩
  · exact Multiset.coe_nodup.mp
      (Multiset.nodup_of_le haccounts.ran_le (Multiset.coe_nodup.mpr hstamps.nodup))
  · exact Multiset.mem_coe.mp (Multiset.mem_of_le haccounts.ran_le (Multiset.mem_coe.mpr he))
  · rintro before act code e after rfl
    obtain ⟨s₀, t, hbefore, -, -, hnext⟩ := run.exists_step
    exact (Run.accounts hbefore).2.2.of_popped (steps_of_next hnext)
  · rw [← Multiset.mem_coe, ← haccounts.conserved] at he
    rw [haccounts.window]
    rcases Multiset.mem_add.mp he with hqueued | hpopped
    · exact Or.inl hqueued
    · exact Or.inr (List.mem_append_left _ (Multiset.mem_coe.mp hpopped))

/-! ## Executions -/

instance (s : SelectEngine) : (act : Action) → Decidable (WithinQueue s act)
  | .call _ (.push _ _) => inferInstanceAs (Decidable (_ < _))
  | .call _ (.stamp _) | .call _ (.changeFds _) | .call _ .trylock | .call _ .finish
  | .perform _ | .manageFdCallback | .stop | .tick _ => inferInstanceAs (Decidable True)

/-- `NotOvertaken` when `select` times out, by the statement that comes next. -/
def decideOnTop (s : SelectEngine) :
    (pc : Pc) → Decidable (NotOvertaken { s with pc := pc } (.perform .timeout))
  | .selecting (some e) _ _ =>
    inferInstanceAs (Decidable (priQueuePeek s.eventQueue = some (.ok, some e)))
  | .selecting none _ _ | .returned | .head | .locked | .watching | .peeked _ | .armed _ _
  | .selected _ _ | .timedOut _ | .running _ | .popping _ | .dispatching =>
    inferInstanceAs (Decidable True)

/-- `NotOvertaken` when a thread pushes, by the due event and the event pushed. -/
def decideBehind : (due : Option EngineEvent) → (callState : CallState) →
    Decidable (match due, callState with
      | some e, .stamped event => eventQueuePriComp e event = true
      | _, _ => True)
  | some e, .stamped event => inferInstanceAs (Decidable (eventQueuePriComp e event = true))
  | some _, .idle | some _, .reloading | some _, .holding | some _, .signalling | none, _ =>
    inferInstanceAs (Decidable True)

instance (s : SelectEngine) : (act : Action) → Decidable (NotOvertaken s act)
  | .perform .timeout => decideOnTop s s.pc
  | .call (.thread t) (.push _ _) => decideBehind (Pc.due s.pc) (s.callState (.thread t))
  | .call (.thread _) (.stamp _) | .call (.thread _) (.changeFds _) | .call (.thread _) .trylock
  | .call (.thread _) .finish | .call .engine _ | .perform .ready | .perform .interrupted
  | .manageFdCallback | .stop | .tick _ => inferInstanceAs (Decidable True)

instance (s : SelectEngine) (label : Action × Observation) : Decidable (Timely s label) :=
  inferInstanceAs (Decidable (_ ∧ _))

instance (s : SelectEngine) : (act : Action) → Decidable (s.MallocContract act)
  | .call _ (.push (some a) _) => inferInstanceAs (Decidable (s.eventQueue.cell a = none))
  | .call _ (.push none _) | .call _ (.stamp _) | .call _ (.changeFds _) | .call _ .trylock
  | .call _ .finish | .perform _ | .manageFdCallback | .stop | .tick _ =>
    inferInstanceAs (Decidable True)

/-- A new engine at clock 0. -/
def newEngine : SelectEngine :=
  selectEngineCreate (newQueue eventQueuePriComp priQueueSize true) 3 0

/-- A test passed by an execution of the model is passed at the end of a run. -/
theorem exists_run (guard : SelectEngine → Action × Observation → Prop)
    [∀ s label, Decidable (guard s label)] (acts : List Action)
    (test : List (Action × Observation) × SelectEngine → Bool)
    (h : (System.execute (System.callNext SelectEngine.MallocContract SelectEngine.next guard)
      newEngine acts).any test = true) :
    ∃ history s, selectSystem.Run guard history s ∧ test (history, s) = true :=
  have hinit : selectSystem.init newEngine :=
    ⟨_, 3, 0, priQueueCreate_eq (by decide) true, rfl⟩
  System.Run.exists_of_execute System.callNext_sound hinit _ _ h

/-- A call of `select_engine_schedule_add` from its push on. -/
def pushAndReload (c : Caller) (cell : Addr) : List Action :=
  [.call c (.push (some cell) true), .call c .trylock, .call c .finish]

/-- The loop from its head to the call of `select`. -/
def headToSelect : List Action := List.replicate 5 (.perform .timeout)

/-- The callback of the only event schedules another one, which stays queued. -/
theorem timers_neither_lost_nor_run_twice_with_rescheduling :
    ∃ history s, selectSystem.Run Timely history s ∧
      collect ranEvent history = [newEvent 0 0 10] ∧
      s.eventQueue.contents = {newEvent 1 10 5} ∧
      (collect ranEvent history).Nodup ∧
      (∀ e ∈ collect ranEvent history, e ∈ collect pushedEvent history) ∧
      (∀ before act code e after, history = before ++ (act, .popped code (some e)) :: after →
        collect ranEvent before = collect poppedEvent before ++ [e]) ∧
      ∀ e ∈ collect pushedEvent history,
        e ∈ s.eventQueue.contents ∨ e ∈ collect ranEvent history := by
  obtain ⟨history, s, run, htest⟩ := exists_run Timely
    (.perform .timeout :: .call (.thread 0) (.stamp 10) :: pushAndReload (.thread 0) 0 ++
      headToSelect ++
      [.tick 10, .perform .timeout, .perform .timeout, .perform .timeout,
        .call .engine (.stamp 5)] ++
      pushAndReload .engine 1 ++ [.perform .timeout, .perform .timeout])
    (fun r => collect ranEvent r.1 = [newEvent 0 0 10] ∧
      r.2.eventQueue.contents = {newEvent 1 10 5})
    (by decide +kernel)
  obtain ⟨hran, hcontents⟩ := of_decide_eq_true htest
  exact ⟨history, s, run, hran, hcontents, timers_neither_lost_nor_run_twice run⟩

/-- Thread 1 reads the clock at 0 and pushes its event, due at 1, after `select` has timed
out for the event due at 10: that event is run twice, and thread 1's is removed
without having been run. -/
theorem exists_run_twice :
    ∃ history s, selectSystem.Run (fun s label => WithinQueue s label.1) history s ∧
      collect pushedEvent history = [newEvent 0 0 10, newEvent 1 0 1] ∧
      collect ranEvent history = [newEvent 0 0 10, newEvent 0 0 10] ∧
      collect poppedEvent history = [newEvent 1 0 1, newEvent 0 0 10] := by
  obtain ⟨history, s, run, htest⟩ := exists_run (fun s label => WithinQueue s label.1)
    (.perform .timeout :: .call (.thread 0) (.stamp 10) :: .call (.thread 1) (.stamp 1) ::
      pushAndReload (.thread 0) 0 ++ headToSelect ++ [.tick 10, .perform .timeout] ++
      pushAndReload (.thread 1) 1 ++ List.replicate 4 (.perform .timeout) ++
      headToSelect ++ [.perform .ready, .perform .ready, .manageFdCallback, .perform .ready] ++
      headToSelect ++ List.replicate 5 (.perform .timeout))
    (fun r => collect pushedEvent r.1 = [newEvent 0 0 10, newEvent 1 0 1] ∧
      collect ranEvent r.1 = [newEvent 0 0 10, newEvent 0 0 10] ∧
      collect poppedEvent r.1 = [newEvent 1 0 1, newEvent 0 0 10])
    (by decide +kernel)
  exact ⟨history, s, run, of_decide_eq_true htest⟩

end BliveQueue.Select
