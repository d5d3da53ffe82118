/-
# The queue as a sequence of units

This is the abstract model of the queue: a list of units, front first, and the
unit that the last lookup remembered. It says which unit a lookup finds, at
which place an insertion puts a new unit, and what the three calls answer, all
without pointers. Units keep their address, because the remembered unit is a
pointer and two units may in principle carry the same anchorage.

The counter `elem_num` is the length of the sequence modulo `2 ^ 32`; it bounds
the lookup and tells an insertion whether the queue is empty.
-/

import Mathlib.Algebra.Group.Nat.Defs
import Mathlib.Data.List.Nodup
import BliveQueue.Math.StableInsert
import BliveQueue.Utils.QList

namespace BliveQueue.QList

open BliveQueue.Math BliveQueue.Utils BliveQueue.Utils.QList

/-- A unit together with its address. -/
structure Cell where
  addr : Addr
  unit : QlistUnit
  deriving DecidableEq

namespace Cell

/-- The weight as a number, the key of the queue order. -/
def weight (c : Cell) : ℕ := c.unit.data.weight.toNat

/-- What a traversal shows of the unit. -/
def pair (c : Cell) : UInt32 × QlistUnitData := (c.unit.anchorage, c.unit.data)

/-- The node embedded in the unit. -/
def node (c : Cell) : ListPtr := .listNode c.addr

end Cell

/-- The abstract queue. -/
structure Sequence where
  cells : List Cell
  tmp : Option Addr

namespace Sequence

/-- The value of `elem_num`. -/
def count (s : Sequence) : ℕ := s.cells.length % 2 ^ 32

/-- The remembered unit. -/
def cached (s : Sequence) : Option Cell :=
  s.tmp.bind fun t => s.cells.find? fun c => c.addr = t

/-- The unit the counted backward walk meets first. -/
def walk (s : Sequence) (anchorage : UInt32) : Option Cell :=
  (s.cells.reverse.take s.count).find? fun c => c.unit.anchorage = anchorage

/-- The unit a lookup answers with: the remembered one, else the walk's. -/
def lookup (s : Sequence) (anchorage : UInt32) : Option Cell :=
  if s.count = 0 then none
  else
    match s.cached with
    | none => s.walk anchorage
    | some c => if c.unit.anchorage = anchorage then some c else s.walk anchorage

/-- Cut a sequence at the unit of a given address. -/
def splitAt (t : Addr) : List Cell → Option (List Cell × Cell × List Cell)
  | [] => none
  | c :: cells =>
    if c.addr = t then some ([], c, cells)
    else (splitAt t cells).map fun cut => (c :: cut.1, cut.2)

/-- A sequence cut into the units in front of the range `[begin_unit, end_unit)`,
the unit that ends the range, the scanned range itself, and the units behind. -/
structure Window where
  before : List Cell
  endUnit : Cell
  scanned : List Cell
  behind : List Cell

/-- The window of an insertion behind `front`: the remembered unit may cut it at
either end. -/
def window (front : Cell) (rest : List Cell) (tmp : Option Addr) (new : Cell) : Window :=
  match tmp.bind fun t => splitAt t (front :: rest) with
  | none => ⟨[], front, rest, []⟩
  | some (before, t, behind) =>
    if new.weight < t.weight then ⟨before, t, behind, []⟩
    else if t.weight < new.weight then ⟨[], front, before.tail ++ [t], behind⟩
    else ⟨[], front, rest, []⟩

/-- The scan of a window from the back, and the last chance directly behind the
unit that ends it. -/
def scan (w : Window) (new : Cell) : Option (List Cell) :=
  match insertAfterLast (fun c => decide (new.weight ≤ c.weight)) new w.scanned with
  | some scanned => some (w.before ++ w.endUnit :: (scanned ++ w.behind))
  | none =>
    if new.weight < w.endUnit.weight then
      some (w.before ++ w.endUnit :: new :: (w.scanned ++ w.behind))
    else none

/-- The place of a new unit, or `none` when the insertion gives up. -/
def place (s : Sequence) (new : Cell) : Option (List Cell) :=
  if s.count = 0 then some (new :: s.cells)
  else
    match s.cells with
    | [] => some [new]
    | front :: rest =>
      if front.weight < new.weight then some (new :: front :: rest)
      else if new.weight ≤ (rest.getLastD front).weight then
        some (front :: rest ++ [new])
      else scan (window front rest s.tmp new) new

/-- Overwrite the data of the unit at an address. -/
def refresh (a : Addr) (data : QlistUnitData) (cells : List Cell) : List Cell :=
  cells.map fun c => if c.addr = a then { c with unit.data := data } else c

/-- One call on the abstract queue. -/
def call (s : Sequence) : QlistCall → QlistRet × Sequence
  | .appendUpdate anchorage data mem =>
    match s.lookup anchorage with
    | some c => (.errno .ok, ⟨refresh c.addr data s.cells, some c.addr⟩)
    | none =>
      match mem with
      | none => (.errno .outOfMem, s)
      | some a =>
        match s.place ⟨a, ⟨anchorage, data⟩⟩ with
        | some cells => (.errno .ok, ⟨cells, s.tmp⟩)
        | none => (.errno .unknown, s)
  | .subtract anchorage =>
    match s.lookup anchorage with
    | none => (.errno .resource, s)
    | some c => (.errno .ok, ⟨s.cells.filter (·.addr ≠ c.addr), none⟩)
  | .anchorageExistence anchorage =>
    match s.lookup anchorage with
    | none => (.bool false, s)
    | some c => (.bool true, ⟨s.cells, some c.addr⟩)

/-! ## Cuts and places -/

theorem splitAt_eq_some {t : Addr} {cells before behind : List Cell} {c : Cell}
    (h : splitAt t cells = some (before, c, behind)) :
    cells = before ++ c :: behind ∧ c.addr = t := by
  induction cells generalizing before with
  | nil => simp [splitAt] at h
  | cons d cells ih =>
      by_cases hd : d.addr = t
      · simp only [splitAt, hd, ↓reduceIte, Option.some.injEq, Prod.mk.injEq] at h
        obtain ⟨rfl, rfl, rfl⟩ := h
        exact ⟨rfl, hd⟩
      · simp only [splitAt, hd, ↓reduceIte, Option.map_eq_some_iff, Prod.mk.injEq,
          Prod.exists] at h
        obtain ⟨before', c', behind', hrec, rfl, rfl, rfl⟩ := h
        obtain ⟨rfl, haddr⟩ := ih hrec
        exact ⟨rfl, haddr⟩

theorem splitAt_eq_none_iff {t : Addr} {cells : List Cell} :
    splitAt t cells = none ↔ ∀ c ∈ cells, c.addr ≠ t := by
  induction cells with
  | nil => simp [splitAt]
  | cons d cells ih =>
      by_cases hd : d.addr = t
      · simp [splitAt, hd]
      · simp [splitAt, hd, ih]

/-- A scan that succeeds splices the new unit in somewhere behind a unit that is
at least as heavy, or directly behind the heavier end of the window. -/
theorem exists_of_scan_eq_some {w : Window} {new : Cell} {cells' : List Cell}
    (h : scan w new = some cells') :
    ∃ front back, w.scanned = front ++ back ∧
      cells' = w.before ++ w.endUnit :: (front ++ new :: (back ++ w.behind)) ∧
      (∀ c ∈ back, c.weight < new.weight) ∧
      new.weight ≤ (front.getLastD w.endUnit).weight := by
  cases hscan : insertAfterLast (fun c => decide (new.weight ≤ c.weight)) new w.scanned with
  | some scanned =>
      simp only [scan, hscan, Option.some.injEq] at h
      obtain ⟨front, x, back, hsplit, hx, hback, rfl⟩ := exists_of_insertAfterLast_eq_some hscan
      refine ⟨front ++ [x], back, by simp [hsplit], by simp [← h], ?_, by simpa using hx⟩
      intro c hc
      simpa using hback c hc
  | none =>
      simp only [scan, hscan, Option.ite_none_right_eq_some, Option.some.injEq] at h
      refine ⟨[], w.scanned, rfl, by simp [← h.2], ?_, by simpa using h.1.le⟩
      intro c hc
      simpa using insertAfterLast_eq_none_iff.mp hscan c hc

/-- A scan gives up exactly when the whole range is lighter and the unit that
ends it is not heavier than the new unit. -/
theorem scan_eq_none_iff {w : Window} {new : Cell} :
    scan w new = none ↔
      (∀ c ∈ w.scanned, c.weight < new.weight) ∧ w.endUnit.weight ≤ new.weight := by
  cases hscan : insertAfterLast (fun c => decide (new.weight ≤ c.weight)) new w.scanned with
  | some scanned =>
      have hsome : ¬ ∀ c ∈ w.scanned, c.weight < new.weight := fun hall => by
        have : insertAfterLast (fun c => decide (new.weight ≤ c.weight)) new w.scanned = none :=
          insertAfterLast_eq_none_iff.mpr fun c hc => by simpa using hall c hc
        simp [hscan] at this
      simp [scan, hscan, hsome]
  | none =>
      have hall : ∀ c ∈ w.scanned, c.weight < new.weight := fun c hc => by
        simpa using insertAfterLast_eq_none_iff.mp hscan c hc
      simp only [scan, hscan, ite_eq_right_iff, reduceCtorEq, imp_false, not_lt]
      exact ⟨fun h => ⟨hall, h⟩, And.right⟩

/-- The three shapes a window can take. -/
theorem window_cases (front : Cell) (rest : List Cell) (tmp : Option Addr) {new : Cell}
    (hfront : new.weight ≤ front.weight) :
    window front rest tmp new = ⟨[], front, rest, []⟩ ∨
      ∃ before t behind, tmp = some t.addr ∧ front :: rest = before ++ t :: behind ∧
        (new.weight < t.weight ∧ window front rest tmp new = ⟨before, t, behind, []⟩ ∨
          ∃ before', before = front :: before' ∧ t.weight < new.weight ∧
            window front rest tmp new = ⟨[], front, before' ++ [t], behind⟩) := by
  cases hcut : tmp.bind fun t => splitAt t (front :: rest) with
  | none => exact Or.inl (by simp [window, hcut])
  | some cut =>
      obtain ⟨before, t, behind⟩ := cut
      obtain ⟨addr, rfl, hsplit⟩ := Option.bind_eq_some_iff.mp hcut
      obtain ⟨hcells, rfl⟩ := splitAt_eq_some hsplit
      by_cases hheavy : new.weight < t.weight
      · exact Or.inr ⟨before, t, behind, rfl, hcells,
          Or.inl ⟨hheavy, by simp only [window, hcut, if_pos hheavy]⟩⟩
      · by_cases hlight : t.weight < new.weight
        · cases before with
          | nil =>
              -- the remembered unit would be the front, which is heavy enough
              rw [List.nil_append, List.cons.injEq] at hcells
              rw [← hcells.1] at hlight
              exact absurd hlight (not_lt.mpr hfront)
          | cons b before =>
              obtain rfl : front = b := (List.cons.inj hcells).1
              exact Or.inr ⟨_, t, behind, rfl, hcells, Or.inr ⟨before, rfl, hlight,
                by simp only [window, hcut, if_neg hheavy, if_pos hlight, List.tail_cons]⟩⟩
        · exact Or.inl (by simp only [window, hcut, if_neg hheavy, if_neg hlight])

/-- A window is a cut of the whole sequence. -/
theorem window_append {front : Cell} (rest : List Cell) (tmp : Option Addr) {new : Cell}
    (hfront : new.weight ≤ front.weight) :
    front :: rest = (window front rest tmp new).before ++
      (window front rest tmp new).endUnit ::
        ((window front rest tmp new).scanned ++ (window front rest tmp new).behind) := by
  rcases window_cases front rest tmp hfront with
    hw | ⟨before, t, behind, -, hcells, ⟨-, hw⟩ | ⟨before', rfl, -, hw⟩⟩
  · simp [hw]
  · simp [hw, hcells]
  · simp [hw, hcells]

/-- Where a new unit is put: one case for each branch of `place`. -/
inductive Placed (s : Sequence) (new : Cell) : List Cell → Prop
  | uncounted (zero : s.count = 0) : Placed s new (new :: s.cells)
  | alone (empty : s.cells = []) : Placed s new [new]
  | ahead {front : Cell} {rest : List Cell} (cells : s.cells = front :: rest)
      (light : front.weight < new.weight) : Placed s new (new :: front :: rest)
  | rear {front : Cell} {rest : List Cell} (cells : s.cells = front :: rest)
      (heavy : new.weight ≤ (rest.getLastD front).weight) : Placed s new (front :: rest ++ [new])
  | inWindow {front : Cell} {rest l r : List Cell} {w : Window} (cells : s.cells = front :: rest)
      (fits : new.weight ≤ front.weight) (range : window front rest s.tmp new = w)
      (scanned : w.scanned = l ++ r) (light : ∀ c ∈ r, c.weight < new.weight)
      (heavy : new.weight ≤ (l.getLastD w.endUnit).weight) :
      Placed s new (w.before ++ w.endUnit :: (l ++ new :: (r ++ w.behind)))

theorem placed_of_place {s : Sequence} {new : Cell} {cells' : List Cell}
    (h : s.place new = some cells') : Placed s new cells' := by
  unfold place at h
  by_cases hcount : s.count = 0
  · rw [if_pos hcount] at h
    obtain rfl := Option.some.inj h
    exact .uncounted hcount
  rw [if_neg hcount] at h
  cases hcells : s.cells with
  | nil =>
      simp only [hcells, Option.some.injEq] at h
      subst h
      exact .alone hcells
  | cons front rest =>
      simp only [hcells] at h
      by_cases hahead : front.weight < new.weight
      · rw [if_pos hahead] at h
        obtain rfl := Option.some.inj h
        exact .ahead hcells hahead
      rw [if_neg hahead] at h
      by_cases hrear : new.weight ≤ (rest.getLastD front).weight
      · rw [if_pos hrear] at h
        obtain rfl := Option.some.inj h
        exact .rear hcells hrear
      rw [if_neg hrear] at h
      obtain ⟨l, r, hscanned, rfl, hlight, hheavy⟩ := exists_of_scan_eq_some h
      exact .inWindow hcells (not_lt.mp hahead) rfl hscanned hlight hheavy

/-- The cut that a window and a place in its range make. -/
theorem cells_eq_of_window {s : Sequence} {new front : Cell} {rest l r : List Cell} {w : Window}
    (hcells : s.cells = front :: rest) (hfits : new.weight ≤ front.weight)
    (hrange : window front rest s.tmp new = w) (hscanned : w.scanned = l ++ r) :
    s.cells = (w.before ++ w.endUnit :: l) ++ (r ++ w.behind) := by
  rw [hcells, window_append rest s.tmp hfits, hrange, hscanned]
  simp

/-- A placed unit is spliced into the sequence; nothing else moves. -/
theorem exists_of_place_eq_some {s : Sequence} {new : Cell} {cells' : List Cell}
    (h : s.place new = some cells') :
    ∃ front back, s.cells = front ++ back ∧ cells' = front ++ new :: back := by
  cases placed_of_place h with
  | uncounted => exact ⟨[], s.cells, rfl, rfl⟩
  | alone empty => exact ⟨[], [], empty, rfl⟩
  | @ahead front rest cells => exact ⟨[], front :: rest, cells, rfl⟩
  | @rear front rest cells => exact ⟨front :: rest, [], by simp [cells], rfl⟩
  | @inWindow front rest l r w cells fits range scanned =>
      exact ⟨w.before ++ w.endUnit :: l, r ++ w.behind,
        cells_eq_of_window cells fits range scanned, by simp⟩

/-- A new unit finds no place exactly when it goes neither to the front nor to the
tail and the scan of its window gives up. -/
theorem place_eq_none_iff {s : Sequence} {new : Cell} :
    s.place new = none ↔
      s.count ≠ 0 ∧ ∃ front rest, s.cells = front :: rest ∧ new.weight ≤ front.weight ∧
        (rest.getLastD front).weight < new.weight ∧
        (∀ c ∈ (window front rest s.tmp new).scanned, c.weight < new.weight) ∧
        (window front rest s.tmp new).endUnit.weight ≤ new.weight := by
  unfold place
  by_cases hcount : s.count = 0
  · simp [hcount]
  · rw [if_neg hcount]
    cases hcells : s.cells with
    | nil => simp
    | cons front rest =>
        simp only
        by_cases hahead : front.weight < new.weight
        · rw [if_pos hahead]
          refine ⟨nofun, ?_⟩
          rintro ⟨-, front', rest', heq, hle, -⟩
          obtain ⟨rfl, rfl⟩ := List.cons.inj heq
          exact absurd hle (not_le.mpr hahead)
        · rw [if_neg hahead]
          by_cases hrear : new.weight ≤ (rest.getLastD front).weight
          · rw [if_pos hrear]
            refine ⟨nofun, ?_⟩
            rintro ⟨-, front', rest', heq, -, hlt, -⟩
            obtain ⟨rfl, rfl⟩ := List.cons.inj heq
            exact absurd hlt (not_lt.mpr hrear)
          · rw [if_neg hrear, scan_eq_none_iff]
            constructor
            · rintro ⟨hall, hend⟩
              exact ⟨hcount, front, rest, rfl, not_lt.mp hahead, not_le.mp hrear, hall, hend⟩
            · rintro ⟨-, front', rest', heq, -, -, hall, hend⟩
              obtain ⟨rfl, rfl⟩ := List.cons.inj heq
              exact ⟨hall, hend⟩

end Sequence

end BliveQueue.QList
