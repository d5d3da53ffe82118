/-
# First come, first served

Visitors announce their arrival or their departure, any of them any number of
times. Somebody is present when the last announcement was an arrival; repeating
the arrival of somebody present, or the departure of somebody absent, is void.
The arrival that counts is therefore the most recent one that found its visitor
absent. A line that appends such arrivals at the end, drops departures and
ignores the rest lists exactly the present visitors in the order in which they
came.
-/

import Mathlib.Data.List.Nodup
import Mathlib.Order.Nat

namespace BliveQueue.Math

universe u

variable {ι : Type u} [DecidableEq ι]

/-- An announcement of a visitor. -/
inductive Announcement (ι : Type u)
  | arrival (i : ι)
  | departure (i : ι)
  deriving DecidableEq

namespace Announcement

/-- Who announces. -/
def visitor : Announcement ι → ι
  | .arrival i => i
  | .departure i => i

/-- The last announcement of the visitor was an arrival. -/
def Present (events : List (Announcement ι)) (i : ι) : Prop :=
  events.reverse.find? (fun e => e.visitor = i) = some (.arrival i)

instance (events : List (Announcement ι)) (i : ι) : Decidable (Present events i) :=
  inferInstanceAs (Decidable (_ = _))

/-- The announcement number `n` takes the visitor from absent to present. -/
def Enters (events : List (Announcement ι)) (i : ι) (n : ℕ) : Prop :=
  events[n]? = some (.arrival i) ∧ ¬ Present (events.take n) i

/-- The most recent announcement that took the visitor from absent to present. -/
def CameAt (events : List (Announcement ι)) (i : ι) (n : ℕ) : Prop :=
  Enters events i n ∧ ∀ m, Enters events i m → m ≤ n

/-- The line lists the present visitors, each once, in the order they came. -/
structure FirstCome (events : List (Announcement ι)) (line : List ι) : Prop where
  distinct : line.Nodup
  mem_iff : ∀ i, i ∈ line ↔ Present events i
  came : ∀ i ∈ line, ∃ n, CameAt events i n
  ordered : line.Pairwise fun i j => ∃ m n, CameAt events i m ∧ CameAt events j n ∧ m < n

/-- One announcement at a line. -/
def receive (line : List ι) : Announcement ι → List ι
  | .arrival i => if i ∈ line then line else line ++ [i]
  | .departure i => line.filter (· ≠ i)

variable {events : List (Announcement ι)} {e : Announcement ι} {i : ι} {m n : ℕ}

theorem present_concat :
    Present (events ++ [e]) i ↔
      if e.visitor = i then e = .arrival i else Present events i := by
  by_cases he : e.visitor = i <;> simp [Present, he]

theorem not_present_nil : ¬ Present ([] : List (Announcement ι)) i := by simp [Present]

theorem Enters.lt (h : Enters events i n) : n < events.length :=
  (List.getElem?_eq_some_iff.mp h.1).1

theorem enters_concat :
    Enters (events ++ [e]) i n ↔
      Enters events i n ∨ n = events.length ∧ e = .arrival i ∧ ¬ Present events i := by
  rcases lt_trichotomy n events.length with hlt | rfl | hgt
  · have hne : n ≠ events.length := hlt.ne
    rw [Enters, Enters, List.getElem?_append_left hlt, List.take_append_of_le_length hlt.le]
    simp [hne]
  · simp [Enters]
  · have hnone : (events ++ [e])[n]? = none := by
      rw [List.getElem?_eq_none_iff, List.length_append, List.length_singleton]
      exact hgt
    have hnot : ¬ Enters events i n := fun h => absurd h.lt (not_lt.mpr hgt.le)
    have hne : n ≠ events.length := hgt.ne'
    rw [or_iff_left fun h => hne h.1, Enters, hnone]
    exact ⟨fun h => absurd h.1 nofun, fun h => absurd h hnot⟩

/-- An announcement that admits nobody moves nobody. -/
theorem cameAt_concat_iff (h : e ≠ .arrival i ∨ Present events i) :
    CameAt (events ++ [e]) i n ↔ CameAt events i n := by
  have henters : ∀ m, Enters (events ++ [e]) i m ↔ Enters events i m := by
    intro m
    rw [enters_concat, or_iff_left]
    rintro ⟨-, he, habsent⟩
    exact h.elim (fun hne => hne he) habsent
  simp only [CameAt, henters]

/-- A newcomer came with the last announcement. -/
theorem cameAt_concat_arrival (h : ¬ Present events i) :
    CameAt (events ++ [.arrival i]) i events.length := by
  refine ⟨enters_concat.mpr (Or.inr ⟨rfl, rfl, h⟩), fun m hm => ?_⟩
  rcases enters_concat.mp hm with hm | ⟨rfl, -⟩
  · exact hm.lt.le
  · exact le_rfl

theorem FirstCome.nil : FirstCome ([] : List (Announcement ι)) [] :=
  ⟨List.nodup_nil, fun _ => by simp [not_present_nil], by simp, List.Pairwise.nil⟩

/-- The line stays first come, first served with every announcement. -/
theorem FirstCome.concat {line : List ι} (h : FirstCome events line) (e : Announcement ι) :
    FirstCome (events ++ [e]) (receive line e) := by
  have hmono : ∀ {i j : ι}, e ≠ .arrival i ∨ Present events i →
      e ≠ .arrival j ∨ Present events j →
      (∃ m n, CameAt events i m ∧ CameAt events j n ∧ m < n) →
      ∃ m n, CameAt (events ++ [e]) i m ∧ CameAt (events ++ [e]) j n ∧ m < n := by
    rintro i j hi hj ⟨m, n, hm, hn, hlt⟩
    exact ⟨m, n, (cameAt_concat_iff hi).mpr hm, (cameAt_concat_iff hj).mpr hn, hlt⟩
  have hstay : ∀ i ∈ line, e ≠ .arrival i ∨ Present events i :=
    fun i hi => Or.inr ((h.mem_iff i).mp hi)
  cases e with
  | departure i =>
      have hleft : ∀ j, Announcement.departure i ≠ .arrival j := fun _ => nofun
      refine ⟨h.distinct.filter _, fun j => ?_, fun j hj => ?_, ?_⟩
      · rw [receive, List.mem_filter, present_concat, h.mem_iff]
        by_cases hij : i = j
        · simp [visitor, hij]
        · simp [visitor, hij, Ne.symm hij]
      · obtain ⟨n, hn⟩ := h.came j (List.mem_filter.mp hj).1
        exact ⟨n, (cameAt_concat_iff (Or.inl (hleft j))).mpr hn⟩
      · refine (List.Pairwise.filter _ h.ordered).imp fun hij => ?_
        exact hmono (Or.inl (hleft _)) (Or.inl (hleft _)) hij
  | arrival i =>
      by_cases hi : i ∈ line
      · rw [receive, if_pos hi]
        refine ⟨h.distinct, fun j => ?_, fun j hj => ?_, ?_⟩
        · rw [present_concat, h.mem_iff]
          by_cases hij : i = j
          · subst hij
            simp [visitor, (h.mem_iff i).mp hi]
          · simp [visitor, hij]
        · obtain ⟨n, hn⟩ := h.came j hj
          exact ⟨n, (cameAt_concat_iff (hstay j hj)).mpr hn⟩
        · exact h.ordered.imp_of_mem fun hj hk hjk => hmono (hstay _ hj) (hstay _ hk) hjk
      · have habsent : ¬ Present events i := fun hp => hi ((h.mem_iff i).mpr hp)
        rw [receive, if_neg hi]
        refine ⟨?_, fun j => ?_, fun j hj => ?_, ?_⟩
        · refine List.nodup_append.mpr ⟨h.distinct, List.nodup_singleton i, fun j hj k hk => ?_⟩
          obtain rfl : k = i := by simpa using hk
          exact fun heq => hi (heq ▸ hj)
        · rw [present_concat, List.mem_append, h.mem_iff, List.mem_singleton]
          by_cases hij : i = j
          · subst hij
            simp [visitor]
          · simp [visitor, hij, Ne.symm hij]
        · rcases List.mem_append.mp hj with hj | hj
          · obtain ⟨n, hn⟩ := h.came j hj
            exact ⟨n, (cameAt_concat_iff (hstay j hj)).mpr hn⟩
          · obtain rfl : j = i := by simpa using hj
            exact ⟨_, cameAt_concat_arrival habsent⟩
        · refine List.pairwise_append.mpr
            ⟨h.ordered.imp_of_mem fun hj hk hjk => hmono (hstay _ hj) (hstay _ hk) hjk,
              List.pairwise_singleton _ _, fun j hj k hk => ?_⟩
          obtain rfl : k = i := by simpa using hk
          obtain ⟨n, hn⟩ := h.came j hj
          exact ⟨n, _, (cameAt_concat_iff (hstay j hj)).mpr hn, cameAt_concat_arrival habsent,
            hn.1.lt⟩

end Announcement

end BliveQueue.Math
