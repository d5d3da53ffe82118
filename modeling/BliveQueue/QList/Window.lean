/-
# The window and the full scan

The remembered unit cuts the range that an insertion searches. In a ring of
non-increasing weights the cut leaves out only units that could not have been the
place, so the insertion answers and does what it would without the remembered unit,
and the new unit goes to its stable place. The one exception is a ring whose counter
has wrapped to zero: the insertion takes it for empty and puts the unit in front.
-/

import BliveQueue.QList.Capacity
import BliveQueue.QList.Order
import BliveQueue.QList.Traversal

namespace BliveQueue.QList

open BliveQueue.Math BliveQueue.Utils BliveQueue.Utils.QList

variable {q : BliveQlist} {s : Sequence} {cells cells' : List Cell} {new : Cell}

/-- The queue with the remembered unit forgotten. -/
def forget (q : BliveQlist) : BliveQlist := { q with tmpUnit := none }

/-- The new unit stands behind every unit of at least its weight and in front of every
lighter one, and the others stand as before. -/
def StandsStably (cells : List Cell) (new : Cell) (cells' : List Cell) : Prop :=
  ∃ front back, cells = front ++ back ∧ cells' = front ++ new :: back ∧
    (∀ c ∈ front, new.weight ≤ c.weight) ∧ ∀ c ∈ back, c.weight < new.weight

/-- The insertion answers the same with and without the remembered unit and leaves the
same ring, in which the new unit, if it was let in, stands stably. -/
def AppendsStably (q : BliveQlist) (cells : List Cell) (new : Cell) : Prop :=
  ∃ code q' r' cells', qlistAppend q new.addr = some (code, q') ∧
    qlistAppend (forget q) new.addr = some (code, r') ∧
    Linked q' cells' ∧ Linked r' cells' ∧ (code = .ok → StandsStably cells new cells')

theorem standsStably_stableInsert (hord : NonIncreasing Cell.weight cells) (new : Cell) :
    StandsStably cells new (stableInsert Cell.weight new cells) := by
  refine ⟨_, _,
    (List.takeWhile_append_dropWhile (p := fun c => decide (new.weight ≤ c.weight))).symm,
    rfl, fun c hc => by simpa using List.mem_takeWhile_imp hc, fun c hc => ?_⟩
  exact hord.lt_of_mem_dropWhile hc

/-- Units of one memory that are linked in two lists are linked in one. -/
theorem Linked.unique (h : Linked q cells) (h' : Linked q cells') : cells = cells' := by
  have haddr : cells.map Cell.addr = cells'.map Cell.addr :=
    Option.some.inj (h.cycle_eq.symm.trans h'.cycle_eq)
  have hcell : ∀ {l : List Cell}, Linked q l →
      l = (l.map Cell.addr).map fun a => ⟨a, q.unit a⟩ := by
    intro l hl
    rw [List.map_map]
    refine (List.map_id l).symm.trans (List.map_congr_left fun c hc => ?_)
    rw [Function.comp_apply, hl.stored c hc]
    rfl
  rw [hcell h, hcell h', haddr]

theorem Represents.forget (h : Represents q s) : Represents (forget q) ⟨s.cells, none⟩ :=
  ⟨⟨h.ring, h.live, h.stored⟩, h.count, rfl, nofun⟩

/-- In an ordered ring the remembered unit does not change the place. -/
theorem Sequence.place_forget (hord : NonIncreasing Cell.weight s.cells)
    (hcount : s.count ≠ 0) : Sequence.place ⟨s.cells, none⟩ new = s.place new := by
  have hnone : s.place new = none ↔ Blocked Cell.weight new.weight s.cells :=
    place_eq_none_iff_blocked hord fun h => absurd h hcount
  have hnone' : Sequence.place ⟨s.cells, none⟩ new = none ↔
      Blocked Cell.weight new.weight s.cells :=
    place_eq_none_iff_blocked (s := ⟨s.cells, none⟩) hord fun h => absurd h hcount
  cases hplace : s.place new with
  | none => exact hnone'.mpr (hnone.mp hplace)
  | some l =>
      cases hplace' : Sequence.place ⟨s.cells, none⟩ new with
      | none => exact absurd (hnone.mpr (hnone'.mp hplace')) (by simp [hplace])
      | some l' =>
          rw [place_eq_stableInsert hord (fun h => absurd h hcount) hplace,
            place_eq_stableInsert (s := ⟨s.cells, none⟩) hord (fun h => absurd h hcount) hplace']

section Append

variable (h : Represents q s) (hord : NonIncreasing Cell.weight s.cells)
  (hfresh : new.addr ∉ s.cells.map Cell.addr) (hlive : new.addr ∈ q.live)
  (hstored : q.unit new.addr = new.unit)

include h hfresh hlive hstored in
/-- The insertion with and without the remembered unit, when the place is the same. -/
theorem Represents.appendsStably_of_place
    (hsame : Sequence.place ⟨s.cells, none⟩ new = s.place new)
    (hstable : ∀ l, s.place new = some l → StandsStably s.cells new l) :
    AppendsStably q s.cells new := by
  have hrun := h.qlistAppend_eq new hfresh hlive hstored
  have hrun' := h.forget.qlistAppend_eq new hfresh hlive hstored
  rw [hsame] at hrun'
  cases hplace : s.place new with
  | none =>
      rw [hplace] at hrun hrun'
      exact ⟨.unknown, q, QList.forget q, s.cells, hrun, hrun', h.toLinked, h.forget.toLinked,
        nofun⟩
  | some l =>
      rw [hplace] at hrun hrun'
      obtain ⟨node, hrun, hlinked⟩ := hrun
      obtain ⟨node', hrun', hlinked'⟩ := hrun'
      exact ⟨.ok, _, _, l, hrun, hrun', hlinked, hlinked', fun _ => hstable l hplace⟩

include h hord hfresh hlive hstored in
/-- In every ordered ring, with any remembered unit, an insertion agrees with the full scan
and is stable if and only if the counter is not zero or the new unit belongs to the front. -/
theorem qlistAppend_stable_iff :
    AppendsStably q s.cells new ↔
      (q.elemNum = 0 → ∀ front ∈ s.cells.head?, front.weight < new.weight) := by
  constructor
  · rintro ⟨code, q', r', cells', hrun, -, hlinked, -, hstable⟩ hzero front hhead
    have hcount := h.elemNum_eq_zero_iff.mp hzero
    have hplaced := h.qlistAppend_eq new hfresh hlive hstored
    rw [Sequence.place, if_pos hcount] at hplaced
    obtain ⟨node, hrun', hlinked'⟩ := hplaced
    obtain ⟨rfl, rfl⟩ := Prod.mk.inj (Option.some.inj (hrun.symm.trans hrun'))
    obtain ⟨before, behind, hcells, hcells', -, hlight⟩ := hstable rfl
    rw [hlinked.unique hlinked'] at hcells'
    cases before with
    | nil =>
        apply hlight
        rw [← List.nil_append behind, ← hcells]
        exact List.mem_of_mem_head? hhead
    | cons c before =>
        -- the unit in front of the new one would be the new one
        have hnew : new = c := (List.cons.inj hcells').1
        rw [hcells, hnew] at hfresh
        exact absurd (List.mem_map_of_mem List.mem_cons_self) hfresh
  · intro hfront
    by_cases hzero : q.elemNum = 0
    · have hcount := h.elemNum_eq_zero_iff.mp hzero
      have hplace : ∀ tmp, Sequence.place ⟨s.cells, tmp⟩ new = some (new :: s.cells) :=
        fun tmp => if_pos hcount
      apply h.appendsStably_of_place hfresh hlive hstored ((hplace none).trans (hplace s.tmp).symm)
      intro l hl
      obtain rfl := Option.some.inj ((hplace s.tmp).symm.trans hl)
      refine ⟨[], s.cells, rfl, rfl, by simp, fun c hc => ?_⟩
      cases hcells : s.cells with
      | nil =>
          rw [hcells] at hc
          exact absurd hc List.not_mem_nil
      | cons front rest =>
          rw [hcells] at hc hord hfront
          exact (weight_le_front hord c hc).trans_lt (hfront hzero front rfl)
    · have hcount : s.count ≠ 0 := fun h0 => hzero (h.elemNum_eq_zero_iff.mpr h0)
      apply h.appendsStably_of_place hfresh hlive hstored (Sequence.place_forget hord hcount)
      intro l hl
      rw [Sequence.place_eq_stableInsert hord (fun h0 => absurd h0 hcount) hl]
      exact standsStably_stableInsert hord new

end Append

/-! ## Executions -/

/-- A prepared unit is ready to be appended. -/
theorem Represents.prepared (h : Represents q s) {x : Addr} (hfresh : x ∉ q.live) (a : UInt32)
    (d : QlistUnitData) :
    x ∉ s.cells.map Cell.addr ∧ x ∈ (QList.newUnit q x a d).live ∧
      (QList.newUnit q x a d).unit x = ⟨a, d⟩ := by
  refine ⟨fun hmem => ?_, Finset.mem_insert_self x q.live, Function.update_self x _ _⟩
  obtain ⟨c, hc, rfl⟩ := List.mem_map.mp hmem
  exact hfresh (h.live c hc)

/-- A unit of weight 3 for the queue of weights 5, 3, 1 whose last unit is remembered. -/
theorem qlistAppend_stable_of_tie :
    ∃ q s new, Represents q s ∧ s.tmp ≠ none ∧ s.cells.map Cell.weight = [5, 3, 1] ∧
      new.weight = 3 ∧ AppendsStably q s.cells new := by
  obtain ⟨history, q, run, htest⟩ := exists_run KeepsOrder
    [.appendUpdate 1 (ofWeight 5) (some 0), .appendUpdate 2 (ofWeight 1) (some 1),
      .appendUpdate 3 (ofWeight 3) (some 2), .anchorageExistence 2]
    (fun r => 3 ∉ r.2.live ∧ r.2.tmpUnit = some 1 ∧ r.2.elemNum = 3 ∧
      QList.ring r.2 = some [(1, ofWeight 5), (3, ofWeight 3), (2, ofWeight 1)])
    (by decide +kernel)
  obtain ⟨hfresh, htmp, hnum, hring⟩ := of_decide_eq_true htest
  obtain ⟨s, h, hs⟩ := exists_ordered (fun _ _ h => h) run
  obtain ⟨hout, hlive, hstored⟩ := h.prepared hfresh 4 (ofWeight 3)
  have hline : s.line = [(1, ofWeight 5), (3, ofWeight 3), (2, ofWeight 1)] :=
    Option.some.inj (h.ring_eq_line.symm.trans hring)
  have hweights : s.cells.map Cell.weight = s.line.map Pair.weight := by
    rw [Sequence.line, List.map_map]
    rfl
  have hcounted : q.elemNum ≠ 0 := hnum ▸ by decide
  refine ⟨_, s, ⟨3, ⟨4, ofWeight 3⟩⟩, h.newUnit hfresh 4 (ofWeight 3), ?_, ?_, rfl, ?_⟩
  · rw [← h.tmp, htmp]
    exact Option.some_ne_none 1
  · rw [hweights, hline]
    rfl
  · exact (qlistAppend_stable_iff (h.newUnit hfresh 4 (ofWeight 3)) hs.order hout hlive
      hstored).mpr fun hzero => absurd hzero hcounted

/-- In a ring of 2^32 units of weight 0 a new unit of weight 0 is put in front. -/
theorem exists_append_in_front :
    ¬ ∀ q s new, Represents q s → NonIncreasing Cell.weight s.cells →
      new.addr ∉ s.cells.map Cell.addr → new.addr ∈ q.live → q.unit new.addr = new.unit →
        AppendsStably q s.cells new := by
  intro hevery
  obtain ⟨history, q, s, -, h, hnum, hlength, hweight⟩ := exists_weightless_wrapped
  obtain ⟨y, hfresh⟩ := Infinite.exists_notMem_finset q.live
  have hrep := h.newUnit hfresh 0 QlistUnitData.zero
  obtain ⟨hout, hlive, hstored⟩ := h.prepared hfresh 0 QlistUnitData.zero
  have hord : NonIncreasing Cell.weight s.cells := by
    refine List.pairwise_of_forall_mem_list fun c hc d hd => ?_
    rw [hweight c hc, hweight d hd]
  have hlight := (qlistAppend_stable_iff hrep hord hout hlive hstored).mp
    (hevery _ s ⟨y, ⟨0, QlistUnitData.zero⟩⟩ hrep hord hout hlive hstored) hnum
  obtain ⟨front, rest, hcells⟩ : ∃ front rest, s.cells = front :: rest := by
    cases hcells : s.cells with
    | nil =>
        rw [hcells] at hlength
        exact absurd hlength (by decide)
    | cons front rest => exact ⟨front, rest, rfl⟩
  have hless := hlight front (by rw [hcells]; rfl)
  exact absurd hless (Nat.not_lt_zero _)

end BliveQueue.QList
