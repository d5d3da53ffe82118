/-
# Timers are not early

The wait for an event is the difference of two times, with a borrow and a clamp to
zero. An event time is not carried, so its seconds may have passed although the event
is not due; the clamp then cuts the wait short. As long as the loop never computes a
wait for such an event, `select` waits until the event is due, and no callback runs
before its timeout has passed since the clock reading of its call.
-/

import BliveQueue.Select.Timers

namespace BliveQueue.Select

open BliveQueue.Math BliveQueue.Utils BliveQueue.Utils.PriQueue BliveQueue.Utils.Select
open BliveQueue.Utils.Select.SelectEngine BliveQueue.PriQueue

variable {s s' : SelectEngine} {act : Action} {obs : Observation} {ret : SelectRet} {c : Caller}
variable {a : CallAction} {history : List (Action × Observation)} {e : EngineEvent}
variable {time : Timeval} {clock since reading : ℕ} {timeous : ℤ}

/-! ## Event times and waits in microseconds -/

theorem eventTime_micros (h : 0 ≤ timeous) :
    (eventTime (gettimeofday clock) timeous).micros = clock + timeous := by
  have hclock := Int.mul_ediv_add_emod (clock : ℤ) usecPerSec
  have htimeous := Int.mul_ediv_add_emod timeous usecPerSec
  rw [eventTime_eq h]
  simp only [Timeval.micros, usecPerSec] at *
  omega

/-- The clamp does not cut the wait short: if the seconds of the event time have passed,
the event is due. -/
def Uncut (time : Timeval) (clock : ℕ) : Prop :=
  time.sec < (gettimeofday clock).sec → time.micros ≤ clock

instance (time : Timeval) (clock : ℕ) : Decidable (Uncut time clock) :=
  inferInstanceAs (Decidable (_ → _))

/-- An event whose whole wait has elapsed is due. -/
theorem micros_le_of_waited (hreading : reading ≤ since)
    (huncut : Uncut time reading)
    (hwaited : since + (waitTime time (gettimeofday reading)).micros ≤ clock) :
    time.micros ≤ clock := by
  rw [waitTime] at hwaited
  by_cases hpast : (Timeval.mk (time.sec - (gettimeofday reading).sec)
      (time.usec - (gettimeofday reading).usec)).borrow.sec < 0
  · rw [Timeval.floor, if_pos hpast] at hwaited
    have helapsed : since ≤ clock := by simpa [Timeval.micros] using hwaited
    have hdue : time.micros ≤ reading := by
      by_cases hsec : time.sec < (gettimeofday reading).sec
      · exact huncut hsec
      · -- the borrow made the seconds negative, so only microseconds were missing
        unfold Timeval.borrow at hpast
        split at hpast <;> simp only [Timeval.micros, gettimeofday, usecPerSec] at * <;> omega
    omega
  · rw [Timeval.floor_eq_self (not_lt.mp hpast), Timeval.borrow_micros] at hwaited
    simp only [Timeval.micros, gettimeofday, usecPerSec] at *
    omega

/-! ## The ledger of a history -/

/-- What a step adds to the ledger: the timeout of a new event, or time. -/
def book (ledger : List (ℤ × ℕ)) (act : Action) : List (ℤ × ℕ) :=
  match act with
  | .call _ (.stamp timeous) => ledger ++ [(timeous, 0)]
  | .tick d => ledger.map fun entry => (entry.1, entry.2 + d)
  | _ => ledger

/-- For each event, in the order of identities: its timeout and the time that has passed
since the clock reading of its call. -/
def ledger (history : List (Action × Observation)) : List (ℤ × ℕ) :=
  history.foldl (fun entries label => book entries label.1) []

theorem ledger_concat (history : List (Action × Observation)) (act : Action) (obs : Observation) :
    ledger (history ++ [(act, obs)]) = book (ledger history) act := by
  rw [ledger, List.foldl_append]
  rfl

/-- The callback of every event runs only after its timeout has passed. -/
def NeverEarly (history : List (Action × Observation)) : Prop :=
  ∀ (before : List (Action × Observation)) act e after, history = before ++ (act, .ran e) :: after →
    ∃ (timeous : ℤ) (passed : ℕ),
      (ledger before)[e.id]? = some (timeous, passed) ∧ timeous ≤ passed

/-- The event was built by the call that the ledger says, from the clock reading then. -/
def Booked (entries : List (ℤ × ℕ)) (clock : ℕ) (e : EngineEvent) : Prop :=
  ∃ timeous passed reading, entries[e.id]? = some (timeous, passed) ∧ 0 ≤ timeous ∧
    reading + passed = clock ∧ e = newEvent e.id reading timeous

/-- A step that neither builds an event nor lets time pass. -/
def Timeless : Action → Prop
  | .call _ (.stamp _) => False
  | .tick _ => False
  | _ => True

theorem book_of_timeless {entries : List (ℤ × ℕ)} (h : Timeless act) :
    book entries act = entries := by
  cases act with
  | call c a => cases a <;> first | rfl | exact h.elim
  | tick d => exact h.elim
  | _ => rfl

theorem Booked.concat {entries : List (ℤ × ℕ)} (h : Booked entries clock e) (entry : ℤ × ℕ) :
    Booked (entries ++ [entry]) clock e := by
  obtain ⟨timeous, passed, reading, hentry, hnonneg, hclock, heq⟩ := h
  refine ⟨timeous, passed, reading, ?_, hnonneg, hclock, heq⟩
  rw [List.getElem?_append_left (List.getElem?_eq_some_iff.mp hentry).1]
  exact hentry

theorem Booked.tick {entries : List (ℤ × ℕ)} (h : Booked entries clock e) (d : ℕ) :
    Booked (entries.map fun entry => (entry.1, entry.2 + d)) (clock + d) e := by
  obtain ⟨timeous, passed, reading, hentry, hnonneg, hclock, heq⟩ := h
  refine ⟨timeous, passed + d, reading, ?_, hnonneg, by omega, heq⟩
  rw [List.getElem?_map, hentry]
  rfl

/-! ## What the queue and the loop hold -/

/-- A push adds at most the new event to the cells of the queue. -/
theorem cell_of_heapPush {cell cell' : Addr → Option EngineEvent} {heap heap' : InnHeap EngineEvent}
    {mem : Option Addr} {code : BliveErrno}
    (h : heapPush cell heap e mem = some (code, heap', cell')) {addr : Addr} {e' : EngineEvent}
    (hcell : cell' addr = some e') : e' = e ∨ cell addr = some e' := by
  unfold heapPush at h
  split at h
  · cases h
    exact Or.inr hcell
  · cases mem with
    | none =>
        cases h
        exact Or.inr hcell
    | some new =>
        simp only [Option.bind_eq_bind, Option.bind_eq_some_iff, Option.some.injEq,
          Prod.mk.injEq] at h
        obtain ⟨_, -, _, -, -, -, rfl⟩ := h
        rcases eq_or_ne addr new with rfl | hne
        · rw [Function.update_self] at hcell
          exact Or.inl (Option.some.inj hcell).symm
        · rw [Function.update_of_ne hne] at hcell
          exact Or.inr hcell

theorem cell_of_push {q q' : PriQueueT EngineEvent} {mem : Option Addr} {remem : Bool}
    {code : BliveErrno} (h : priQueuePush q (some e) mem remem = some (code, q'))
    {addr : Addr} {e' : EngineEvent} (hcell : q'.cell addr = some e') :
    e' = e ∨ q.cell addr = some e' := by
  simp only [priQueuePush, Option.bind_eq_bind, Option.bind_eq_some_iff, Prod.exists] at h
  obtain ⟨heap, -, code₁, heap₁, cell₁, hfirst, hrest⟩ := h
  split at hrest
  · have hagain : ∃ heap₂ r, heapPush cell₁ heap₂ e mem = some r ∧ q'.cell = r.2.2 := by
      split at hrest
      · obtain ⟨heap₂, -, hretry⟩ := Option.bind_eq_some_iff.mp hrest
        obtain ⟨r, hsecond, hdone⟩ := Option.bind_eq_some_iff.mp hretry
        cases hdone
        exact ⟨heap₂, r, hsecond, rfl⟩
      · rw [Option.bind_some] at hrest
        obtain ⟨r, hsecond, hdone⟩ := Option.bind_eq_some_iff.mp hrest
        cases hdone
        exact ⟨heap₁, r, hsecond, rfl⟩
    obtain ⟨heap₂, ⟨code₂, heap₃, cell₂⟩, hsecond, hcells⟩ := hagain
    rw [hcells] at hcell
    rcases cell_of_heapPush hsecond hcell with hnew | hold
    · exact Or.inl hnew
    · exact cell_of_heapPush hfirst hold
  · cases hrest
    exact cell_of_heapPush hfirst hcell

/-- A pop adds nothing to the cells. -/
theorem cell_of_pop {q q' : PriQueueT EngineEvent} {pdata data : Option EngineEvent}
    {code : BliveErrno} (h : priQueuePopTrywait q pdata = some (code, data, q')) {addr : Addr}
    {e' : EngineEvent} (hcell : q'.cell addr = some e') : q.cell addr = some e' := by
  simp only [priQueuePopTrywait, Option.bind_eq_bind, Option.bind_eq_some_iff] at h
  obtain ⟨heap, -, hpop⟩ := h
  split at hpop
  · cases hpop
    exact hcell
  next hsize =>
    simp only [heapPop, heapRemove, Option.bind_eq_some_iff, Prod.exists] at hpop
    obtain ⟨data', heap', cell', hremoved, hdone⟩ := hpop
    rw [if_neg (by omega)] at hremoved
    cases hdone
    simp only [Option.bind_eq_bind, Option.bind_eq_some_iff, Option.some.injEq,
      Prod.mk.injEq] at hremoved
    obtain ⟨_, -, _, -, _, -, _, -, _, -, _, -, removed, -, _, -, -, -, rfl⟩ := hremoved
    change Function.update q.cell removed none addr = some e' at hcell
    rcases eq_or_ne addr removed with rfl | hne
    · rw [Function.update_self] at hcell
      cases hcell
    · rwa [Function.update_of_ne hne] at hcell

/-- A peek answers an event of the cells. -/
theorem cell_of_peek {q : PriQueueT EngineEvent} {code : BliveErrno}
    (h : priQueuePeek q = some (code, some e)) : ∃ addr, q.cell addr = some e := by
  simp only [priQueuePeek, Option.bind_eq_bind, Option.bind_eq_some_iff] at h
  obtain ⟨heap, -, hpeek⟩ := h
  split at hpeek
  · obtain ⟨elem, -, addr, -, data, hdata, hdone⟩ := by
      simpa only [Option.bind_eq_some_iff] using hpeek
    cases hdone
    exact ⟨addr, hdata⟩
  · cases hpeek

/-- The event that the next statement of the loop is about. -/
def Pc.event : Pc → Option EngineEvent
  | .peeked event => some event
  | .armed event _ | .selecting event _ _ | .selected event _ | .timedOut event => event
  | .running event | .popping event => some event
  | .returned | .head | .locked | .watching | .dispatching => none

/-- The whole wait of an event is under way, and once `select` has timed out the event is
due. -/
def Awaited (clock : ℕ) : Pc → Prop
  | .armed (some e) (some tm) =>
    ∃ reading ≤ clock, Uncut e.time reading ∧ tm = waitTime e.time (gettimeofday reading)
  | .selecting (some e) (some tm) since =>
    ∃ reading ≤ since, Uncut e.time reading ∧ tm = waitTime e.time (gettimeofday reading)
  | .selected (some e) .timeout | .timedOut (some e) => e.time.micros ≤ clock
  | _ => True

theorem Awaited.mono {pc : Pc} {clock clock' : ℕ} (h : Awaited clock pc) (hle : clock ≤ clock') :
    Awaited clock' pc := by
  unfold Awaited at *
  split at h
  · obtain ⟨reading, hreading, hwait⟩ := h
    exact ⟨reading, hreading.trans hle, hwait⟩
  · exact h
  · exact h.trans (Int.ofNat_le.mpr hle)
  · exact h.trans (Int.ofNat_le.mpr hle)
  · trivial

/-- The ledger records every event in play, and the loop waits for the whole time. -/
structure Recorded (history : List (Action × Observation)) (s : SelectEngine) : Prop where
  events : s.events = (ledger history).length
  queued : ∀ addr e, s.eventQueue.cell addr = some e → Booked (ledger history) s.clock e
  stamped : ∀ c e, s.callState c = .stamped e → Booked (ledger history) s.clock e
  inLoop : ∀ e, Pc.event s.pc = some e → Booked (ledger history) s.clock e
  awaited : Awaited s.clock s.pc

/-- The loop does not compute a wait that the clamp cuts short. -/
def WaitsWhole (s : SelectEngine) (label : Action × Observation) : Prop :=
  match label.1, s.pc with
  | .perform _, .peeked event => Uncut event.time s.clock
  | _, _ => True

/-- A step that neither builds an event nor lets time pass, and keeps what is in play. -/
theorem Recorded.quiet (h : Recorded history s) (htimeless : Timeless act)
    (hevents : s'.events = s.events) (hclock : s'.clock = s.clock)
    (hqueued : ∀ addr e, s'.eventQueue.cell addr = some e → Booked (ledger history) s.clock e)
    (hstamped : ∀ c e, s'.callState c = .stamped e → s.callState c = .stamped e)
    (hloop : ∀ e, Pc.event s'.pc = some e → Booked (ledger history) s.clock e)
    (hawaited : Awaited s.clock s'.pc) : Recorded (history ++ [(act, obs)]) s' := by
  have hledger : ledger (history ++ [(act, obs)]) = ledger history := by
    rw [ledger_concat, book_of_timeless htimeless]
  refine ⟨?_, ?_, ?_, ?_, ?_⟩
  · rw [hledger, hevents]
    exact h.events
  · rw [hledger, hclock]
    exact hqueued
  · rw [hledger, hclock]
    exact fun c e hc => h.stamped c e (hstamped c e hc)
  · rw [hledger, hclock]
    exact hloop
  · rw [hclock]
    exact hawaited

theorem Recorded.performs (h : Recorded history s) (hwhole : WaitsWhole s (.perform ret, obs))
    (performs : Performs s ret obs s') : Recorded (history ++ [(.perform ret, obs)]) s' := by
  have hloop := h.inLoop
  have hawaited := h.awaited
  have hcalls : ∀ c e, s.callState c = .stamped e → s.callState c = .stamped e := fun _ _ => id
  cases performs with
  | @peek event hpc top =>
      obtain ⟨addr, hcell⟩ := cell_of_peek top
      refine h.quiet trivial rfl rfl h.queued hcalls ?_ trivial
      intro e he
      obtain rfl := Option.some.inj he
      exact h.queued addr _ hcell
  | @arm event hpc =>
      rw [hpc] at hloop
      refine h.quiet trivial rfl rfl h.queued hcalls hloop ⟨s.clock, le_rfl, ?_, rfl⟩
      simpa [WaitsWhole, hpc] using hwhole
  | @select event wait hpc =>
      rw [hpc] at hloop hawaited
      refine h.quiet trivial rfl rfl h.queued hcalls hloop ?_
      cases event <;> cases wait <;> exact hawaited
  | @wake event wait since hpc may =>
      rw [hpc] at hloop hawaited
      refine h.quiet trivial rfl rfl h.queued hcalls hloop ?_
      cases event with
      | none => trivial
      | some e =>
          cases ret with
          | timeout =>
              obtain ⟨⟨tm, rfl, hwaited⟩, -⟩ := may
              obtain ⟨reading, hreading, huncut, rfl⟩ := hawaited
              exact micros_le_of_waited hreading huncut hwaited
          | ready => trivial
          | interrupted => trivial
  | @timeOut event hpc =>
      rw [hpc] at hloop hawaited
      refine h.quiet trivial rfl rfl h.queued hcalls hloop ?_
      cases event <;> exact hawaited
  | @run event hpc =>
      rw [hpc] at hloop
      exact h.quiet trivial rfl rfl h.queued hcalls hloop trivial
  | @callbackReturns event hpc _ =>
      rw [hpc] at hloop
      exact h.quiet trivial rfl rfl h.queued hcalls hloop trivial
  | @peekNone event hpc empty =>
      refine h.quiet trivial rfl rfl h.queued hcalls ?_ (by cases event <;> trivial)
      rintro e rfl
      obtain ⟨addr, hcell⟩ := cell_of_peek empty
      exact h.queued addr e hcell
  | @pop event data q hpc popped =>
      exact h.quiet trivial rfl rfl (fun addr e he => h.queued addr e (cell_of_pop popped he))
        hcalls nofun trivial
  | @popFails event code data q hpc failed popped =>
      exact h.quiet trivial rfl rfl (fun addr e he => h.queued addr e (cell_of_pop popped he))
        hcalls nofun trivial
  | start hpc => exact h.quiet trivial rfl rfl h.queued hcalls nofun trivial
  | enter hpc _ => exact h.quiet trivial rfl rfl h.queued hcalls nofun trivial
  | leave hpc => exact h.quiet trivial rfl rfl h.queued hcalls nofun trivial
  | watch hpc => exact h.quiet trivial rfl rfl h.queued hcalls nofun trivial
  | peekError hpc => exact h.quiet trivial rfl rfl h.queued hcalls nofun trivial
  | dispatch hpc => exact h.quiet trivial rfl rfl h.queued hcalls nofun trivial
  | interrupt hpc => exact h.quiet trivial rfl rfl h.queued hcalls nofun trivial
  | dispatched hpc _ => exact h.quiet trivial rfl rfl h.queued hcalls nofun trivial

/-- A call that goes on with nothing new in hand. -/
theorem stamped_of_setCall {st : CallState} (hst : ∀ e, st ≠ .stamped e) (c' : Caller)
    (e : EngineEvent) (h : Function.update s.callState c st c' = .stamped e) :
    s.callState c' = .stamped e :=
  (stamped_of_update hst h).2

theorem Recorded.calls (h : Recorded history s) (calls : Calls s c a obs s') :
    Recorded (history ++ [(.call c a, obs)]) s' := by
  cases calls with
  | @stamp timeous _ _ hnonneg =>
      have hledger : ledger (history ++ [(.call c (.stamp timeous), .silent)]) =
          ledger history ++ [(timeous, 0)] := ledger_concat _ _ _
      refine ⟨?_, ?_, fun c' e hc' => ?_, ?_, h.awaited⟩
      · rw [hledger, List.length_append, ← h.events]
        rfl
      · rw [hledger]
        exact fun addr e he => (h.queued addr e he).concat _
      · rw [hledger]
        rcases eq_or_ne c' c with rfl | hne
        · obtain rfl : newEvent s.events s.clock timeous = e := by simpa [setCall] using hc'
          refine ⟨timeous, 0, s.clock, ?_, hnonneg, rfl, rfl⟩
          show (ledger history ++ [(timeous, 0)])[s.events]? = _
          rw [h.events, List.getElem?_concat_length]
        · have hold : s.callState c' = .stamped e := by simpa [setCall, hne] using hc'
          exact (h.stamped c' e hold).concat _
      · rw [hledger]
        exact fun e he => (h.inLoop e he).concat _
  | @push mem remem event code q stamped pushed =>
      refine h.quiet trivial rfl rfl (fun addr e he => ?_) (stamped_of_setCall (by simp)) h.inLoop
        h.awaited
      rcases cell_of_push pushed he with rfl | hold
      · exact h.stamped c _ stamped
      · exact h.queued addr e hold
  | changeFds _ _ =>
      exact h.quiet trivial rfl rfl h.queued (stamped_of_setCall (by simp)) h.inLoop h.awaited
  | lock _ _ =>
      exact h.quiet trivial rfl rfl h.queued (stamped_of_setCall (by simp)) h.inLoop h.awaited
  | busy _ _ =>
      exact h.quiet trivial rfl rfl h.queued (stamped_of_setCall (by simp)) h.inLoop h.awaited
  | unlock _ =>
      exact h.quiet trivial rfl rfl h.queued (stamped_of_setCall (by simp)) h.inLoop h.awaited
  | signal _ =>
      exact h.quiet trivial rfl rfl h.queued (stamped_of_setCall (by simp)) h.inLoop h.awaited

theorem Recorded.steps (h : Recorded history s) (hwhole : WaitsWhole s (act, obs))
    (steps : Steps s act obs s') : Recorded (history ++ [(act, obs)]) s' := by
  have hcalls : ∀ c e, s.callState c = .stamped e → s.callState c = .stamped e := fun _ _ => id
  cases steps with
  | perform performs => exact h.performs hwhole performs
  | call calls => exact h.calls calls
  | manage _ => exact h.quiet trivial rfl rfl h.queued hcalls h.inLoop h.awaited
  | stop => exact h.quiet trivial rfl rfl h.queued hcalls h.inLoop h.awaited
  | @tick d =>
      have hledger : ledger (history ++ [(.tick d, .silent)]) =
          (ledger history).map fun entry => (entry.1, entry.2 + d) := ledger_concat _ _ _
      refine ⟨?_, ?_, ?_, ?_, h.awaited.mono (Nat.le_add_right _ _)⟩
      · rw [hledger, List.length_map]
        exact h.events
      · rw [hledger]
        exact fun addr e he => (h.queued addr e he).tick d
      · rw [hledger]
        exact fun c e hc => (h.stamped c e hc).tick d
      · rw [hledger]
        exact fun e he => (h.inLoop e he).tick d

/-! ## Runs -/

theorem Run.recorded (run : selectSystem.Run WaitsWhole history s) : Recorded history s := by
  apply run.invariant (I := Recorded)
  · rintro s ⟨q, manageFd, clock, hcreate, rfl⟩
    have hpos : 0 < priQueueSize := by decide
    rw [priQueueCreate_eq hpos] at hcreate
    obtain rfl := Option.some.inj (Option.some.inj hcreate)
    exact ⟨rfl, nofun, nofun, nofun, trivial⟩
  · rintro history s ⟨act, obs⟩ s' - hrecorded hwhole ⟨-, hnext⟩
    exact hrecorded.steps hwhole (steps_of_next hnext)

/-- Timers never fire early: in a run in which no wait is cut short, the callback of an
event runs only after its timeout has passed since the clock reading of its call. -/
theorem timers_never_early (run : selectSystem.Run WaitsWhole history s) :
    NeverEarly history := by
  rintro before act e after rfl
  obtain ⟨s₀, t, hbefore, -, -, hnext⟩ := run.exists_step
  have hrecorded := Run.recorded hbefore
  have hloop := hrecorded.inLoop
  have hawaited := hrecorded.awaited
  cases steps_of_next hnext with
  | perform performs =>
      cases performs with
      | run hpc =>
          rw [hpc] at hloop hawaited
          obtain ⟨timeous, passed, reading, hentry, hnonneg, hclock, heq⟩ := hloop e rfl
          have htime : e.time = eventTime (gettimeofday reading) timeous :=
            congrArg EngineEvent.time heq
          have hdue : e.time.micros ≤ s₀.clock := hawaited
          rw [htime, eventTime_micros hnonneg] at hdue
          exact ⟨timeous, passed, hentry, by omega⟩
  | call calls => cases calls

/-! ## Executions -/

/-- `WaitsWhole`, by the statement that comes next. -/
def decideWhole (s : SelectEngine) (ret : SelectRet) (obs : Observation) :
    (pc : Pc) → Decidable (WaitsWhole { s with pc := pc } (.perform ret, obs))
  | .peeked event => inferInstanceAs (Decidable (Uncut event.time s.clock))
  | .returned | .head | .locked | .watching | .armed _ _ | .selecting _ _ _ | .selected _ _
  | .timedOut _ | .running _ | .popping _ | .dispatching => inferInstanceAs (Decidable True)

instance (s : SelectEngine) : (label : Action × Observation) → Decidable (WaitsWhole s label)
  | (.perform ret, obs) => decideWhole s ret obs s.pc
  | (.manageFdCallback, _) | (.call _ _, _) | (.stop, _) | (.tick _, _) =>
    inferInstanceAs (Decidable True)

/-- One event is scheduled 600 ms after the start, for 600 ms later, and runs at 1.2 s. -/
theorem timers_never_early_with_carry :
    ∃ history s, selectSystem.Run WaitsWhole history s ∧
      collect ranEvent history = [newEvent 0 600000 600000] ∧
      ledger history = [(600000, 600000)] ∧ NeverEarly history := by
  obtain ⟨history, s, run, htest⟩ := exists_run WaitsWhole
    (.perform .timeout :: .tick 600000 :: .call (.thread 0) (.stamp 600000) ::
      pushAndReload (.thread 0) 0 ++ headToSelect ++
      [.tick 600000, .perform .timeout, .perform .timeout, .perform .timeout])
    (fun r => collect ranEvent r.1 = [newEvent 0 600000 600000] ∧
      ledger r.1 = [(600000, 600000)])
    (by decide +kernel)
  obtain ⟨hran, hledger⟩ := of_decide_eq_true htest
  exact ⟨history, s, run, hran, hledger, timers_never_early run⟩

/-- The same event, which is due at 1.2 s, is peeked at 1 s: its seconds have passed, the
wait is zero, and it runs 200 ms early. -/
theorem exists_run_early :
    ¬ ∀ history s, selectSystem.Trace history s → NeverEarly history := by
  intro hevery
  obtain ⟨history, s, run, htest⟩ := exists_run System.anyStep
    (.perform .timeout :: .tick 600000 :: .call (.thread 0) (.stamp 600000) ::
      pushAndReload (.thread 0) 0 ++ .tick 400000 :: headToSelect ++
      [.perform .timeout, .perform .timeout, .perform .timeout])
    (fun r => r.1.getLast?.map Prod.snd = some (.ran (newEvent 0 600000 600000)) ∧
      ledger r.1.dropLast = [(600000, 400000)])
    (by decide +kernel)
  obtain ⟨hlast, hledger⟩ := of_decide_eq_true htest
  obtain ⟨⟨act, obs⟩, hget, rfl⟩ := Option.map_eq_some_iff.mp hlast
  obtain ⟨before, rfl⟩ := List.getLast?_eq_some_iff.mp hget
  rw [List.dropLast_concat] at hledger
  obtain ⟨timeous, passed, hentry, hle⟩ := hevery _ s run before act _ [] rfl
  rw [hledger] at hentry
  obtain ⟨rfl, rfl⟩ : (600000 : ℤ) = timeous ∧ 400000 = passed := by simpa [newEvent] using hentry
  exact absurd hle (by decide)

end BliveQueue.Select
