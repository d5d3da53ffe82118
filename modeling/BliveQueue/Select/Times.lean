/-
# Times and deadlines

The comparator of the event queue is the lexicographic order on seconds and
microseconds, which agrees with the order of clock readings but not with the real
deadlines, because event times are not carried. What the timer loop needs is weaker
and holds: an event whose wait has elapsed is not after any later clock reading, and
an event scheduled then is not before it.
-/

import BliveQueue.Math.BinaryHeap
import BliveQueue.Utils.Select

namespace BliveQueue.Select

open BliveQueue.Math BliveQueue.Utils.Select

variable {time tm : Timeval} {clock clock' since reading : ℕ} {timeous timeous' : ℤ}

/-- The order of the comparator. -/
def Timeval.NotAfter (time tm : Timeval) : Prop :=
  time.sec < tm.sec ∨ time.sec = tm.sec ∧ time.usec ≤ tm.usec

theorem eventQueuePriComp_iff {e e' : EngineEvent} :
    eventQueuePriComp e e' = true ↔ Timeval.NotAfter e.time e'.time := by
  simp only [eventQueuePriComp, Timeval.NotAfter, Bool.or_eq_true, Bool.and_eq_true,
    decide_eq_true_eq]
  omega

theorem eventQueuePriComp_totalPreorder :
    BinaryHeap.TotalPreorder fun e e' => eventQueuePriComp e e' = true where
  refl e := eventQueuePriComp_iff.mpr (Or.inr ⟨rfl, le_rfl⟩)
  total e e' := by
    simp only [eventQueuePriComp_iff, Timeval.NotAfter]
    omega
  trans e e' e'' h h' := by
    simp only [eventQueuePriComp_iff, Timeval.NotAfter] at *
    omega

theorem Timeval.NotAfter.trans {tm' : Timeval} (h : NotAfter time tm) (h' : NotAfter tm tm') :
    NotAfter time tm' := by
  simp only [NotAfter] at *
  omega

theorem gettimeofday_notAfter (h : clock ≤ clock') :
    Timeval.NotAfter (gettimeofday clock) (gettimeofday clock') := by
  simp only [Timeval.NotAfter, gettimeofday, usecPerSec]
  omega

theorem Timeval.borrow_eq_self (h : 0 ≤ tm.usec) : tm.borrow = tm := if_neg (not_lt.mpr h)

theorem Timeval.floor_eq_self (h : 0 ≤ tm.sec) : tm.floor = tm := if_neg (not_lt.mpr h)

theorem Timeval.borrow_micros (tm : Timeval) : tm.borrow.micros = tm.micros := by
  unfold Timeval.borrow
  split
  · show (tm.sec - 1) * usecPerSec + (tm.usec + usecPerSec) = tm.sec * usecPerSec + tm.usec
    simp only [usecPerSec]
    omega
  · rfl

/-- A timeout that is not negative is added to the seconds and to the microseconds; there is
nothing to borrow or to clamp. -/
theorem eventTime_eq (h : 0 ≤ timeous) :
    eventTime (gettimeofday clock) timeous =
      ⟨clock / usecPerSec + timeous / usecPerSec, clock % usecPerSec + timeous % usecPerSec⟩ := by
  have hrest : 0 ≤ timeous % usecPerSec := Int.emod_nonneg _ (by decide)
  have hsec : 0 ≤ timeous / usecPerSec := Int.ediv_nonneg h (by decide)
  have hreading : 0 ≤ (clock : ℤ) % usecPerSec := Int.emod_nonneg _ (by decide)
  have hpast : 0 ≤ (clock : ℤ) / usecPerSec := Int.ediv_nonneg (by omega) (by decide)
  rw [eventTime, Int.tdiv_eq_ediv_of_nonneg h, Int.tmod_eq_emod_of_nonneg h,
    Timeval.borrow_eq_self (add_nonneg hreading hrest),
    Timeval.floor_eq_self (add_nonneg hpast hsec)]
  rfl

/-- An event is not before the clock reading it was built from. -/
theorem notAfter_eventTime (h : 0 ≤ timeous) :
    Timeval.NotAfter (gettimeofday clock) (eventTime (gettimeofday clock) timeous) := by
  have hrest : 0 ≤ timeous % usecPerSec := Int.emod_nonneg _ (by decide)
  have hsec : 0 ≤ timeous / usecPerSec := Int.ediv_nonneg h (by decide)
  rw [eventTime_eq h]
  simp only [Timeval.NotAfter, gettimeofday]
  omega

/-- An event whose wait has elapsed is not after the clock. When the borrowed number of
seconds is negative there is no wait, and the event is not after the reading. -/
theorem notAfter_of_waited (husec : 0 ≤ time.usec) (hreading : reading ≤ since)
    (hwaited : since + (waitTime time (gettimeofday reading)).micros ≤ clock) :
    Timeval.NotAfter time (gettimeofday clock) := by
  generalize hnow : gettimeofday reading = now at hwaited
  rw [waitTime] at hwaited
  by_cases hpast : (Timeval.mk (time.sec - now.sec) (time.usec - now.usec)).borrow.sec < 0
  · rw [Timeval.floor, if_pos hpast] at hwaited
    have helapsed : since ≤ clock := by simpa [Timeval.micros] using hwaited
    have hdue : Timeval.NotAfter time now := by
      unfold Timeval.borrow at hpast
      split at hpast <;> simp only [Timeval.NotAfter] at * <;> omega
    rw [← hnow] at hdue
    exact hdue.trans (gettimeofday_notAfter (hreading.trans helapsed))
  · rw [Timeval.floor_eq_self (not_lt.mp hpast), Timeval.borrow_micros] at hwaited
    subst hnow
    simp only [Timeval.micros, Timeval.NotAfter, gettimeofday, usecPerSec] at *
    omega

/-! ## Real deadlines -/

/-- Two events whose seconds differ by one, but whose microseconds, which are not carried,
differ by so much the other way that the order of the deadlines is the other one. -/
def CarryMatters (clock : ℕ) (timeous : ℤ) (clock' : ℕ) (timeous' : ℤ) : Prop :=
  let sec := clock / usecPerSec + timeous / usecPerSec
  let sec' := clock' / usecPerSec + timeous' / usecPerSec
  let usec := clock % usecPerSec + timeous % usecPerSec
  let usec' := clock' % usecPerSec + timeous' % usecPerSec
  sec + 1 = sec' ∧ usec' + usecPerSec < usec ∨ sec' + 1 = sec ∧ usec + usecPerSec ≤ usec'

instance : Decidable (CarryMatters clock timeous clock' timeous') :=
  inferInstanceAs (Decidable (_ ∨ _))

theorem newEvent_time (id : ℕ) (h : 0 ≤ timeous) :
    (newEvent id clock timeous).time =
      ⟨clock / usecPerSec + timeous / usecPerSec, clock % usecPerSec + timeous % usecPerSec⟩ :=
  eventTime_eq h

/-- The comparator orders two events by their deadlines if and only if no carry that was left
out matters. -/
theorem eventQueuePriComp_iff_deadline_iff {id id' : ℕ} (h : 0 ≤ timeous) (h' : 0 ≤ timeous') :
    (eventQueuePriComp (newEvent id clock timeous) (newEvent id' clock' timeous') = true ↔
        clock + timeous ≤ clock' + timeous') ↔
      ¬ CarryMatters clock timeous clock' timeous' := by
  rw [eventQueuePriComp_iff, newEvent_time id h, newEvent_time id' h']
  -- the sums of two microsecond parts stay below two seconds, so seconds that differ by two or
  -- more decide the order of the deadlines as well
  have hclock := Int.mul_ediv_add_emod (clock : ℤ) usecPerSec
  have hclock' := Int.mul_ediv_add_emod (clock' : ℤ) usecPerSec
  have htimeous := Int.mul_ediv_add_emod timeous usecPerSec
  have htimeous' := Int.mul_ediv_add_emod timeous' usecPerSec
  simp only [Timeval.NotAfter, CarryMatters, usecPerSec] at *
  omega

/-- Two events of the same call at clock readings a second apart. -/
theorem eventQueuePriComp_iff_deadline_of_one_timeout :
    (0 : ℤ) ≤ 600000 ∧ ¬ CarryMatters 600000 600000 1600000 600000 ∧
      (eventQueuePriComp (newEvent 0 600000 600000) (newEvent 1 1600000 600000) = true ↔
        ((600000 : ℕ) : ℤ) + 600000 ≤ ((1600000 : ℕ) : ℤ) + 600000) :=
  ⟨by decide, by decide,
    (eventQueuePriComp_iff_deadline_iff (by decide) (by decide)).mpr (by decide)⟩

/-- An event that is due after 1.2 seconds is put before one that is due after 1 second. -/
theorem exists_later_event_first :
    ¬ ∀ (id id' clock clock' : ℕ) (timeous timeous' : ℤ), 0 ≤ timeous → 0 ≤ timeous' →
      (eventQueuePriComp (newEvent id clock timeous) (newEvent id' clock' timeous') = true ↔
        clock + timeous ≤ clock' + timeous') := by
  intro hevery
  have hlater := hevery 0 1 600000 1000000 600000 0 (by decide) le_rfl
  revert hlater
  decide

end BliveQueue.Select
