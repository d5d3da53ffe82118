/-
# Sifting as a function on slots

The two sifting loops of the heap, without memory: an array of slots goes in and an
array comes out. The upward loop is the source's own: it compares the parent with
the content of the slot the hole is in, which from the second round on is a copy
of the former parent. So a new element rises one level, and a second one only when
the order above it was broken before.

Both loops only move the hole, so no element is lost whatever the comparison
answers.
-/

import BliveQueue.Math.BinaryHeap

namespace BliveQueue.PriQueue

open BliveQueue.Math BliveQueue.Math.BinaryHeap

universe u

variable {β : Type u} (above : β → β → Bool)

/-- The upward loop: the hole starts at slot `i`, which still holds the element. -/
def riseLoop : ℕ → (ℕ → β) → ℕ → (ℕ → β) × ℕ
  | 0, slot, i => (slot, i)
  | fuel + 1, slot, i =>
    if 1 < i then
      if above (slot (i / 2)) (slot i) then (slot, i)
      else riseLoop fuel (Function.update slot i (slot (i / 2))) (i / 2)
    else (slot, i)

/-- Sift the element in slot `i` up. -/
def rise (slot : ℕ → β) (i : ℕ) : ℕ → β :=
  Function.update (riseLoop above i slot i).1 (riseLoop above i slot i).2 (slot i)

/-- The child of `pos` that wins the comparison in a heap of size `n`. -/
def winner (n : ℕ) (slot : ℕ → β) (pos : ℕ) : ℕ :=
  if pos * 2 ≠ n ∧ above (slot (pos * 2 + 1)) (slot (pos * 2)) = true then pos * 2 + 1
  else pos * 2

/-- The downward loop: the hole at `pos` sinks until `x` fits. -/
def sinkLoop (n : ℕ) (x : β) : ℕ → (ℕ → β) → ℕ → (ℕ → β) × ℕ
  | 0, slot, pos => (slot, pos)
  | fuel + 1, slot, pos =>
    if pos ≤ n / 2 then
      if above x (slot (winner above n slot pos)) then (slot, pos)
      else
        sinkLoop n x fuel (Function.update slot pos (slot (winner above n slot pos)))
          (winner above n slot pos)
    else (slot, pos)

/-- Remove the root of a heap of size `n + 1`: the last element sinks from the root
and is then sifted up. -/
def removeRoot (n : ℕ) (slot : ℕ → β) : ℕ → β :=
  rise above
    (Function.update (sinkLoop above n (slot (n + 1)) n slot 1).1
      (sinkLoop above n (slot (n + 1)) n slot 1).2 (slot (n + 1)))
    (sinkLoop above n (slot (n + 1)) n slot 1).2

variable {above} {slot : ℕ → β} {n i pos fuel : ℕ} {x : β}

/-! ## Where the hole goes -/

theorem riseLoop_bounds (above : β → β → Bool) (fuel : ℕ) (slot : ℕ → β) (h1 : 1 ≤ i)
    (hn : i ≤ n) :
    1 ≤ (riseLoop above fuel slot i).2 ∧ (riseLoop above fuel slot i).2 ≤ n := by
  induction fuel generalizing slot i with
  | zero => exact ⟨h1, hn⟩
  | succ fuel ih =>
      rw [riseLoop]
      split
      · split
        · exact ⟨h1, hn⟩
        · exact ih _ (by omega) (by omega)
      · exact ⟨h1, hn⟩

theorem winner_cases (above : β → β → Bool) (n : ℕ) (slot : ℕ → β) (pos : ℕ) :
    winner above n slot pos = pos * 2 ∨ winner above n slot pos = pos * 2 + 1 ∧ pos * 2 ≠ n := by
  rw [winner]
  split
  next h => exact Or.inr ⟨rfl, h.1⟩
  next => exact Or.inl rfl

theorem winner_bounds (above : β → β → Bool) (slot : ℕ → β) (h1 : 1 ≤ pos) (hpos : pos ≤ n / 2) :
    2 ≤ winner above n slot pos ∧ winner above n slot pos ≤ n ∧
      winner above n slot pos / 2 = pos ∧ pos < winner above n slot pos := by
  rcases winner_cases above n slot pos with h | ⟨h, hne⟩ <;> rw [h] <;> omega

theorem sinkLoop_bounds (above : β → β → Bool) (x : β) (fuel : ℕ) (slot : ℕ → β) (h1 : 1 ≤ pos)
    (hn : pos ≤ n) :
    1 ≤ (sinkLoop above n x fuel slot pos).2 ∧ (sinkLoop above n x fuel slot pos).2 ≤ n := by
  induction fuel generalizing slot pos with
  | zero => exact ⟨h1, hn⟩
  | succ fuel ih =>
      rw [sinkLoop]
      split
      next hpos =>
        split
        · exact ⟨h1, hn⟩
        · obtain ⟨h2, hw, -⟩ := winner_bounds above slot h1 hpos
          exact ih _ (by omega) hw
      next => exact ⟨h1, hn⟩

/-! ## No element is lost -/

theorem elements_riseLoop (h1 : 1 ≤ i) (hn : i ≤ n) :
    elements n (Function.update (riseLoop above fuel slot i).1 (riseLoop above fuel slot i).2 x) =
      elements n (Function.update slot i x) := by
  induction fuel generalizing slot i with
  | zero => rfl
  | succ fuel ih =>
      rw [riseLoop]
      split
      · split
        · rfl
        · rw [ih (by omega) (by omega),
            elements_move_hole ⟨h1, hn⟩ ⟨by omega, by omega⟩ (by omega)]
      · rfl

/-- Sifting up keeps the elements. -/
theorem elements_rise (h1 : 1 ≤ i) (hn : i ≤ n) :
    elements n (rise above slot i) = elements n slot := by
  rw [rise, elements_riseLoop h1 hn, Function.update_eq_self]

/-- A new element behind the last one is sifted up and nothing else changes. -/
theorem elements_pushed (above : β → β → Bool) (n : ℕ) (slot : ℕ → β) (x : β) :
    elements (n + 1) (rise above (Function.update slot (n + 1) x) (n + 1)) =
      x ::ₘ elements n slot := by
  have hold : elements n (Function.update slot (n + 1) x) = elements n slot :=
    elements_congr fun i _ hi => Function.update_of_ne (show i ≠ n + 1 by omega) _ _
  rw [elements_rise (by omega) le_rfl, elements_succ, Function.update_self, hold]

theorem elements_sinkLoop (h1 : 1 ≤ pos) (hn : pos ≤ n) :
    elements n (Function.update (sinkLoop above n x fuel slot pos).1
        (sinkLoop above n x fuel slot pos).2 x) =
      elements n (Function.update slot pos x) := by
  induction fuel generalizing slot pos with
  | zero => rfl
  | succ fuel ih =>
      rw [sinkLoop]
      split
      next hpos =>
        split
        · rfl
        · obtain ⟨h2, hw, hpar, hlt⟩ := winner_bounds above slot h1 hpos
          rw [ih (by omega) hw, elements_move_hole ⟨h1, hn⟩ ⟨by omega, hw⟩ hlt.ne]
      next => rfl

/-- Removing the root removes the root and nothing else. -/
theorem cons_elements_removeRoot (above : β → β → Bool) (n : ℕ) (slot : ℕ → β) :
    slot 1 ::ₘ elements n (removeRoot above n slot) = elements (n + 1) slot := by
  rcases Nat.eq_zero_or_pos n with rfl | hpos
  · rw [elements_zero, elements_succ, elements_zero]
  · obtain ⟨h1, hn⟩ := sinkLoop_bounds above (slot (n + 1)) n slot le_rfl hpos
    rw [removeRoot, elements_rise h1 hn, elements_sinkLoop le_rfl hpos,
      cons_elements_update ⟨le_rfl, hpos⟩, elements_succ]

/-! ## The upward loop and the order -/

/-- An element that belongs below its parent stays. -/
theorem rise_eq_self (h : i ≤ 1 ∨ above (slot (i / 2)) (slot i) = true) :
    rise above slot i = slot := by
  have hstop : riseLoop above i slot i = (slot, i) := by
    cases i with
    | zero => rfl
    | succ i =>
        rw [riseLoop]
        by_cases hroot : 1 < i + 1
        · rw [if_pos hroot, if_pos (h.resolve_left (by omega))]
        · rw [if_neg hroot]
  rw [rise, hstop, Function.update_eq_self]

/-- On an ordered heap a new element rises at most one level. -/
theorem rise_eq_of_ordered (ord : Ordered (fun x y => above x y = true) n slot) (hn : 1 ≤ n)
    (hup : above (slot ((n + 1) / 2)) (slot (n + 1)) = false) :
    rise above slot (n + 1) =
      Function.update (Function.update slot (n + 1) (slot ((n + 1) / 2))) ((n + 1) / 2)
        (slot (n + 1)) := by
  have hloop : riseLoop above (n + 1) slot (n + 1) =
      (Function.update slot (n + 1) (slot ((n + 1) / 2)), (n + 1) / 2) := by
    rw [riseLoop, if_pos (by omega), hup]
    cases n with
    | zero => omega
    | succ n =>
        -- the second comparison is between two elements of the old heap
        rw [if_neg Bool.false_ne_true, riseLoop]
        by_cases hroot : 1 < (n + 1 + 1) / 2
        · rw [if_pos hroot, Function.update_of_ne (by omega), Function.update_of_ne (by omega),
            if_pos (ord _ (by omega) (by omega))]
        · rw [if_neg hroot]
  rw [rise, hloop]

/-- A push keeps the heap order exactly when the new element belongs at most one
level above the slot it starts in. -/
theorem ordered_rise_iff (le : TotalPreorder fun x y => above x y = true)
    (ord : Ordered (fun x y => above x y = true) n slot) :
    Ordered (fun x y => above x y = true) (n + 1) (rise above slot (n + 1)) ↔
      (n + 1) / 2 ≤ 1 ∨ above (slot ((n + 1) / 2)) (slot (n + 1)) = true ∨
        above (slot ((n + 1) / 4)) (slot (n + 1)) = true := by
  rcases Nat.eq_zero_or_pos n with rfl | hpos
  · exact iff_of_true (fun i h2 hi => absurd hi (by omega)) (Or.inl (by omega))
  cases hup : above (slot ((n + 1) / 2)) (slot (n + 1)) with
  | true =>
      rw [rise_eq_self (Or.inr hup)]
      refine iff_of_true (fun i h2 hi => ?_) (Or.inr (Or.inl rfl))
      rcases eq_or_ne i (n + 1) with rfl | hne
      · exact hup
      · exact ord i h2 (by omega)
  | false =>
      rw [rise_eq_of_ordered ord hpos hup]
      have hquarter : (n + 1) / 4 = (n + 1) / 2 / 2 := by omega
      have hbelow : above (slot (n + 1)) (slot ((n + 1) / 2)) = true :=
        le.of_not (by simp [hup])
      constructor
      · intro hord
        by_cases hroot : (n + 1) / 2 ≤ 1
        · exact Or.inl hroot
        · have hedge := hord ((n + 1) / 2) (by omega) (by omega)
          rw [Function.update_self, Function.update_of_ne (by omega),
            Function.update_of_ne (by omega), ← hquarter] at hedge
          exact Or.inr (Or.inr hedge)
      · intro hfit
        have hhole : HoleOrdered (fun x y => above x y = true) (n + 1)
            (Function.update slot (n + 1) (slot ((n + 1) / 2))) ((n + 1) / 2) := by
          constructor
          · intro i h2 hi _ hpar
            have hne : i ≠ n + 1 := fun heq => hpar (by rw [heq])
            rw [Function.update_of_ne (by omega), Function.update_of_ne hne]
            exact ord i h2 (by omega)
          · intro i h2 hi hpar hroot
            rw [Function.update_of_ne (by omega)]
            have hgrand := ord ((n + 1) / 2) hroot (by omega)
            rcases eq_or_ne i (n + 1) with rfl | hne
            · rw [Function.update_self]
              exact hgrand
            · rw [Function.update_of_ne hne]
              have hedge := ord i h2 (by omega)
              rw [hpar] at hedge
              exact le.trans _ _ _ hgrand hedge
        refine hhole.fill (fun hroot => ?_) fun i h2 hi hpar => ?_
        · rw [Function.update_of_ne (by omega), ← hquarter]
          exact (hfit.resolve_left (by omega)).resolve_left nofun
        · rcases eq_or_ne i (n + 1) with rfl | hne
          · rw [Function.update_self]
            exact hbelow
          · rw [Function.update_of_ne hne]
            have hedge := ord i h2 (by omega)
            rw [hpar] at hedge
            exact le.trans _ _ _ hbelow hedge

/-- A root that stands above the element under way is not replaced, whatever the
order of the heap. -/
theorem riseLoop_root (fuel : ℕ) (le : TotalPreorder fun x y => above x y = true) (hi : 1 < i)
    (hroot : above (slot 1) (slot i) = true) :
    (riseLoop above fuel slot i).1 1 = slot 1 ∧ 1 < (riseLoop above fuel slot i).2 := by
  induction fuel generalizing slot i with
  | zero => exact ⟨rfl, hi⟩
  | succ fuel ih =>
      rw [riseLoop, if_pos hi]
      by_cases hstop : above (slot (i / 2)) (slot i) = true
      · rw [if_pos hstop]
        exact ⟨rfl, hi⟩
      · rw [if_neg hstop]
        have hparent : 1 < i / 2 := by
          by_contra hle
          rw [show i / 2 = 1 by omega] at hstop
          exact hstop hroot
        have hroot' : above (slot 1) (slot (i / 2)) = true :=
          le.trans _ _ _ hroot (le.of_not hstop)
        have hsame : Function.update slot i (slot (i / 2)) 1 = slot 1 :=
          Function.update_of_ne (by omega) _ _
        have hkept : Function.update slot i (slot (i / 2)) (i / 2) = slot (i / 2) :=
          Function.update_of_ne (by omega) _ _
        have hroot'' : above (Function.update slot i (slot (i / 2)) 1)
            (Function.update slot i (slot (i / 2)) (i / 2)) = true := by
          rw [hsame, hkept]
          exact hroot'
        obtain ⟨hone, hpos⟩ := ih hparent hroot''
        exact ⟨hone.trans hsame, hpos⟩

theorem rise_root (le : TotalPreorder fun x y => above x y = true) (hi : 1 < i)
    (hroot : above (slot 1) (slot i) = true) : rise above slot i 1 = slot 1 := by
  obtain ⟨hone, hpos⟩ := riseLoop_root i le hi hroot
  rw [rise, Function.update_of_ne hpos.ne, hone]

/-! ## The downward loop and the order -/

/-- The winner stands above both children. -/
theorem winner_above (le : TotalPreorder fun x y => above x y = true) (slot : ℕ → β)
    (h2 : 2 ≤ i) (hn : i ≤ n) (hi : i / 2 = pos) :
    above (slot (winner above n slot pos)) (slot i) = true := by
  have hchild : i = pos * 2 ∨ i = pos * 2 + 1 := by omega
  rw [winner]
  by_cases hright : pos * 2 ≠ n ∧ above (slot (pos * 2 + 1)) (slot (pos * 2)) = true
  · rw [if_pos hright]
    rcases hchild with rfl | rfl
    · exact hright.2
    · exact le.refl _
  · rw [if_neg hright]
    rcases hchild with rfl | rfl
    · exact le.refl _
    · exact le.of_not fun h => hright ⟨by omega, h⟩

/-- The downward loop ends where the element fits. -/
theorem sinkLoop_ordered (fuel : ℕ) (le : TotalPreorder fun x y => above x y = true)
    (hole : HoleOrdered (fun x y => above x y = true) n slot pos) (h1 : 1 ≤ pos)
    (hfuel : n < pos + fuel) (hparent : 2 ≤ pos → above (slot (pos / 2)) x = true) :
    Ordered (fun x y => above x y = true) n
        (Function.update (sinkLoop above n x fuel slot pos).1
          (sinkLoop above n x fuel slot pos).2 x) ∧
      (2 ≤ (sinkLoop above n x fuel slot pos).2 →
        above ((sinkLoop above n x fuel slot pos).1 ((sinkLoop above n x fuel slot pos).2 / 2)) x =
          true) := by
  induction fuel generalizing slot pos with
  | zero => exact ⟨hole.fill hparent fun i _ hi hpar => absurd hpar (by omega), hparent⟩
  | succ fuel ih =>
      rw [sinkLoop]
      by_cases hpos : pos ≤ n / 2
      · rw [if_pos hpos]
        obtain ⟨h2, hw, hpar, hlt⟩ := winner_bounds above slot h1 hpos
        have hwin := fun i (hi2 : 2 ≤ i) (hin : i ≤ n) (hi : i / 2 = pos) =>
          winner_above le slot hi2 hin hi
        by_cases hstop : above x (slot (winner above n slot pos)) = true
        · rw [if_pos hstop]
          exact ⟨hole.fill hparent fun i hi2 hin hi =>
            le.trans _ _ _ hstop (hwin i hi2 hin hi), hparent⟩
        · rw [if_neg hstop]
          apply ih (hole.down h2 hw hpar hwin) (by omega) (by omega)
          intro _
          rw [hpar, Function.update_self]
          exact le.of_not hstop
      · rw [if_neg hpos]
        exact ⟨hole.fill hparent fun i _ hi hpar => absurd hpar (by omega), hparent⟩

/-- Removing the root keeps the heap order. -/
theorem ordered_removeRoot (le : TotalPreorder fun x y => above x y = true)
    (ord : Ordered (fun x y => above x y = true) (n + 1) slot) :
    Ordered (fun x y => above x y = true) n (removeRoot above n slot) := by
  obtain ⟨hord, hparent⟩ := sinkLoop_ordered (x := slot (n + 1)) n le
    ((ord.mono (Nat.le_succ n)).hole le 1) le_rfl (by omega) (by omega)
  rw [removeRoot, rise_eq_self]
  · exact hord
  · by_cases hpos : (sinkLoop above n (slot (n + 1)) n slot 1).2 ≤ 1
    · exact Or.inl hpos
    · rw [Function.update_self, Function.update_of_ne (by omega)]
      exact Or.inr (hparent (by omega))

end BliveQueue.PriQueue
