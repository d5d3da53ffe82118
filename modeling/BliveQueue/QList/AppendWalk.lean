/-
# The walk of an insertion

The backward walk of `qlist_append` is followed here with every unit it comes to. Its
range is a piece of the ring with `end_unit` in front of `begin_unit`, whatever the
weights are and wherever the remembered unit stands, so the walk meets `end_unit`
before it could meet `list_head`. It makes fewer steps than the ring has units. The
counter says how many these are until it wraps.
-/

import BliveQueue.QList.Capacity
import BliveQueue.QList.Order
import BliveQueue.QList.Traversal

namespace BliveQueue.QList

open BliveQueue.Math BliveQueue.Utils BliveQueue.Utils.QList
open BliveQueue.Utils.QList.BliveQlist

variable {q : BliveQlist} {s : Sequence} {before scanned behind rest : List Cell}
variable {e front new : Cell} {a x endUnit : Addr} {fuel : ℕ} {visits : List Addr}

/-! ## The walk with its visits -/

/-- The units that `search_unit` points to in the backward scan of `qlist_append`. -/
def scanVisits (q : BliveQlist) (appendUnit endUnit : Addr) : ℕ → Addr → Option (List Addr)
  | fuel, searchUnit =>
    if searchUnit = endUnit then some [searchUnit]
    else
      match fuel with
      | 0 => none
      | fuel + 1 => do
        let s ← q.readUnit searchUnit
        let u ← q.readUnit appendUnit
        if s.data.weight ≥ u.data.weight then some [searchUnit]
        else do
          let node ← q.readNode (.listNode searchUnit)
          let prevUnit ← listEntry node.prev
          (scanVisits q appendUnit endUnit fuel prevUnit).map (searchUnit :: ·)

/-- The range of a walk and the units it comes to. -/
structure AppendWalk where
  beginUnit : Addr
  endUnit : Addr
  visits : List Addr
  deriving DecidableEq

/-- How often the walk goes to the previous unit. -/
def AppendWalk.steps (w : AppendWalk) : ℕ := w.visits.length - 1

/-- The walk of `qlist_append`, if it comes to one; no result at all if the function
reads what is not an allocated unit or does not end. -/
def appendWalk (q : BliveQlist) (appendUnit : Addr) : Option (Option AppendWalk) :=
  if q.elemNum = 0 then some none
  else do
    let head ← q.readNode .listHead
    let tailUnit ← listEntry head.prev
    let frontUnit ← listEntry head.next
    let u ← q.readUnit appendUnit
    let front ← q.readUnit frontUnit
    if front.data.weight < u.data.weight then some none
    else do
      let tail ← q.readUnit tailUnit
      if tail.data.weight ≥ u.data.weight then some none
      else do
        let (beginUnit, endUnit) ← appendWindow q appendUnit frontUnit tailUnit
        let visits ← scanVisits q appendUnit endUnit q.live.card beginUnit
        some (some ⟨beginUnit, endUnit, visits⟩)

/-- The walk belongs to this insertion, it begins at `begin_unit` and ends at `end_unit` or
at the unit behind which the new one is put, and it only comes to units of the ring. -/
structure StaysInside (q : BliveQlist) (a : Addr) (w : AppendWalk) : Prop where
  append : qlistAppend q a = appendInWindow q a w.beginUnit w.endUnit
  begins : w.visits.head? = some w.beginUnit
  ends : ∃ last, w.visits.getLast? = some last ∧
    appendScan q a w.endUnit q.live.card w.beginUnit =
      some (if last = w.endUnit then none else some last)
  inside : ∃ units, cycle q = some units ∧ ∀ x ∈ w.visits, x ∈ units

/-- The walk begins where it is told to. -/
theorem head?_of_scanVisits (h : scanVisits q a endUnit fuel x = some visits) :
    visits.head? = some x := by
  unfold scanVisits at h
  split at h
  · obtain rfl := Option.some.inj h
    rfl
  · cases fuel with
    | zero => cases h
    | succ fuel =>
        simp only [Option.bind_eq_bind, Option.bind_eq_some_iff] at h
        obtain ⟨s, -, u, -, h⟩ := h
        split at h
        · obtain rfl := Option.some.inj h
          rfl
        · simp only [Option.bind_eq_some_iff, Option.map_eq_some_iff] at h
          obtain ⟨node, -, prevUnit, -, visits', -, rfl⟩ := h
          rfl

/-- The scan answers the last unit of the walk, or nothing if that is `end_unit`. -/
theorem appendScan_of_scanVisits (h : scanVisits q a endUnit fuel x = some visits) :
    ∃ last, visits.getLast? = some last ∧
      appendScan q a endUnit fuel x = some (if last = endUnit then none else some last) := by
  induction fuel generalizing x visits with
  | zero =>
      rw [scanVisits] at h
      split at h
      next hend =>
        obtain rfl := Option.some.inj h
        exact ⟨x, rfl, by rw [appendScan, if_pos hend, if_pos hend]⟩
      next => cases h
  | succ fuel ih =>
      rw [scanVisits] at h
      rw [appendScan]
      split at h
      next hend =>
        obtain rfl := Option.some.inj h
        exact ⟨x, rfl, by rw [if_pos hend, if_pos hend]⟩
      next hend =>
        simp only [Option.bind_eq_bind, Option.bind_eq_some_iff] at h
        obtain ⟨s, hs, u, hu, h⟩ := h
        simp only [hs, hu, Option.bind_eq_bind, Option.bind_some, if_neg hend]
        split at h
        next hheavy =>
          obtain rfl := Option.some.inj h
          exact ⟨x, rfl, by rw [if_pos hheavy, if_neg hend]⟩
        next hlight =>
          simp only [Option.bind_eq_some_iff, Option.map_eq_some_iff] at h
          obtain ⟨node, hnode, prevUnit, hprev, visits', hvisits, rfl⟩ := h
          obtain ⟨last, hlast, hscan⟩ := ih hvisits
          refine ⟨last, by rw [List.getLast?_cons, hlast]; rfl, ?_⟩
          simp only [if_neg hlight, hnode, hprev, Option.bind_some]
          exact hscan

/-! ## Inside the ring -/

/-- From the end of a piece of the ring the walk comes to the units of the piece, one after
the other, and no further than to the unit in front of it. -/
theorem Linked.scanVisits_eq (h : Linked q (before ++ e :: (scanned ++ behind)))
    (hnew : q.readUnit new.addr = some new.unit) (hfuel : scanned.length ≤ fuel) :
    ∃ visits, scanVisits q new.addr e.addr fuel (scanned.getLastD e).addr = some visits ∧
      visits <+: (scanned.reverse ++ [e]).map Cell.addr := by
  induction scanned using List.reverseRecOn generalizing fuel behind with
  | nil =>
      refine ⟨[e.addr], ?_, List.prefix_rfl⟩
      cases fuel <;> simp [scanVisits]
  | append_singleton scanned c ih =>
      have h' : Linked q (before ++ e :: (scanned ++ c :: behind)) := by simpa using h
      have hce : c.addr ≠ e.addr := h'.addr_ne
      obtain ⟨fuel, rfl⟩ : ∃ n, fuel = n + 1 := ⟨fuel - 1, by simp at hfuel; omega⟩
      have hread := h'.readUnit_eq (c := c) (by simp)
      have halloc : q.Allocated (.listNode c.addr) := h'.live c (by simp)
      have hring : LinkedRing q.next q.prev .listHead
          ((before ++ e :: scanned).map Cell.node ++ c.node :: behind.map Cell.node) := by
        simpa using h'.ring
      have hprev : (q.node (.listNode c.addr)).prev = .listNode (scanned.getLastD e).addr :=
        hring.prev_node.trans (getLastD_node before scanned e)
      have hlist : ((scanned ++ [c]).reverse ++ [e]).map Cell.addr =
          c.addr :: (scanned.reverse ++ [e]).map Cell.addr := by simp
      rw [List.getLastD_concat, scanVisits, if_neg hce, hlist]
      simp only [hread, hnew, Option.bind_eq_bind, Option.bind_some]
      by_cases hheavy : c.unit.data.weight ≥ new.unit.data.weight
      · rw [if_pos hheavy]
        exact ⟨[c.addr], rfl, List.prefix_append [c.addr] _⟩
      · obtain ⟨visits, hvisits, hprefix⟩ := ih h' (by simpa using hfuel)
        refine ⟨c.addr :: visits, ?_, List.cons_prefix_cons.mpr ⟨rfl, hprefix⟩⟩
        simp only [if_neg hheavy, readNode, if_pos halloc, hprev, listEntry, Option.bind_some,
          hvisits, Option.map_some]

/-- A walk that begins at a unit that is too light goes on. -/
theorem Linked.two_le_visits {init : List Cell} {last : Cell}
    (h : Linked q (before ++ e :: (init ++ last :: behind)))
    (hnew : q.readUnit new.addr = some new.unit) (hfuel : init.length + 1 ≤ fuel)
    (hlight : last.weight < new.weight)
    (hvisits : scanVisits q new.addr e.addr fuel last.addr = some visits) : 2 ≤ visits.length := by
  have hheavy : ¬ last.unit.data.weight ≥ new.unit.data.weight :=
    fun hge => absurd (UInt32.le_iff_toNat_le.mp hge) (not_le.mpr hlight)
  obtain ⟨fuel, rfl⟩ : ∃ n, fuel = n + 1 := ⟨fuel - 1, by omega⟩
  rw [scanVisits, if_neg h.addr_ne] at hvisits
  simp only [h.readUnit_eq (c := last) (by simp), hnew, Option.bind_eq_bind, Option.bind_some,
    if_neg hheavy, Option.bind_eq_some_iff, Option.map_eq_some_iff] at hvisits
  obtain ⟨node, -, prevUnit, -, visits', hrest, rfl⟩ := hvisits
  have hpos := List.length_pos_of_mem (List.mem_of_mem_head? (head?_of_scanVisits hrest))
  rw [List.length_cons]
  omega

/-- The range of a walk holds units, and the last of them is lighter than the new one. -/
theorem Sequence.exists_last_of_window (tmp : Option Addr) (hfront : new.weight ≤ front.weight)
    (htail : (rest.getLastD front).weight < new.weight) :
    ∃ init last, (window front rest tmp new).scanned = init ++ [last] ∧
      last.weight < new.weight := by
  rcases window_cases front rest tmp hfront with
    hw | ⟨before, t, behind, -, hcells, ⟨hheavy, hw⟩ | ⟨before', -, hlight, hw⟩⟩
  · rw [hw]
    rcases List.eq_nil_or_concat rest with rfl | ⟨init, last, rfl⟩
    · exact absurd htail (not_lt.mpr hfront)
    · rw [List.concat_eq_append, List.getLastD_concat] at htail
      exact ⟨init, last, List.concat_eq_append, htail⟩
  · rw [hw]
    have hlast : rest.getLastD front = behind.getLastD t := by
      have hsame := congrArg List.getLast? hcells
      simp only [List.getLast?_append, List.getLast?_cons] at hsame
      simpa [List.getLastD_eq_getLast?] using hsame
    rw [hlast] at htail
    rcases List.eq_nil_or_concat behind with rfl | ⟨init, last, rfl⟩
    · exact absurd htail (not_lt.mpr hheavy.le)
    · rw [List.concat_eq_append, List.getLastD_concat] at htail
      exact ⟨init, last, List.concat_eq_append, htail⟩
  · rw [hw]
    exact ⟨before', t, rfl, hlight⟩

/-- An insertion between the weights of front and tail scans its window. -/
theorem Represents.append_between (h : Represents q s)
    (hnew : q.readUnit new.addr = some new.unit) (hcells : s.cells = front :: rest)
    (hcount : s.count ≠ 0) (hfront : new.weight ≤ front.weight)
    (htail : (rest.getLastD front).weight < new.weight) {beginUnit : Addr}
    (hwindow : appendWindow q new.addr front.addr (rest.getLastD front).addr =
      some (beginUnit, endUnit)) :
    qlistAppend q new.addr = appendInWindow q new.addr beginUnit endUnit ∧
      appendWalk q new.addr = (scanVisits q new.addr endUnit q.live.card beginUnit).map
        fun visits => some ⟨beginUnit, endUnit, visits⟩ := by
  have hnum : q.elemNum ≠ 0 := fun h0 => hcount (h.elemNum_eq_zero_iff.mp h0)
  obtain ⟨hhead, hprev, hnext, hreadFront, hreadTail⟩ := h.read_ends hcells
  have hahead : ¬ front.unit.data.weight < new.unit.data.weight :=
    fun hlt => absurd (UInt32.lt_iff_toNat_lt.mp hlt) (not_lt.mpr hfront)
  have hrear : ¬ (rest.getLastD front).unit.data.weight ≥ new.unit.data.weight :=
    fun hge => absurd (UInt32.le_iff_toNat_le.mp hge) (not_le.mpr htail)
  constructor
  · rw [qlistAppend, if_neg hnum]
    simp only [hhead, hprev, hnext, listEntry, hnew, hreadFront, hreadTail, Option.bind_eq_bind,
      Option.bind_some, if_neg hahead, if_neg hrear, hwindow]
  · rw [appendWalk, if_neg hnum]
    simp only [hhead, hprev, hnext, listEntry, hnew, hreadFront, hreadTail, Option.bind_eq_bind,
      Option.bind_some, if_neg hahead, if_neg hrear, hwindow]
    cases scanVisits q new.addr endUnit q.live.card beginUnit <;> rfl

/-- What is scanned and the unit in front of it belong to the ring. -/
theorem mem_addrs_of_prefix
    (hvisits : visits <+: (scanned.reverse ++ [e]).map Cell.addr) (hx : x ∈ visits) :
    x ∈ (before ++ e :: (scanned ++ behind)).map Cell.addr := by
  have hmem := hvisits.subset hx
  simp only [List.map_append, List.map_reverse, List.mem_append, List.mem_reverse] at hmem
  simp only [List.map_append, List.map_cons, List.mem_append, List.mem_cons]
  rcases hmem with hmem | hmem
  · exact Or.inr (Or.inr (Or.inl hmem))
  · exact Or.inr (Or.inl (List.mem_singleton.mp hmem))

variable (new) in
/-- An insertion between the weights of front and tail walks, inside the ring and in fewer
steps than the ring has units, but in one at least. -/
theorem Represents.exists_walk (h : Represents q s) (hnew : q.readUnit new.addr = some new.unit)
    (hcells : s.cells = front :: rest) (hcount : s.count ≠ 0)
    (hfront : new.weight ≤ front.weight) (htail : (rest.getLastD front).weight < new.weight) :
    ∃ w, appendWalk q new.addr = some (some w) ∧ StaysInside q new.addr w ∧ 1 ≤ w.steps ∧
      w.steps ≤ rest.length := by
  -- the window cuts the ring
  have hcut := Sequence.window_append rest s.tmp hfront
  obtain ⟨init, last, hscanned, hlight⟩ := Sequence.exists_last_of_window s.tmp hfront htail
  obtain ⟨happend, hwalk⟩ :=
    h.append_between hnew hcells hcount hfront htail (h.appendWindow_eq hcells hnew)
  generalize Sequence.window front rest s.tmp new = w at happend hwalk hcut hscanned
  obtain ⟨before, e, scanned, behind⟩ := w
  simp only at happend hwalk hcut hscanned
  have hlinked : Linked q (before ++ e :: (scanned ++ behind)) := hcut ▸ hcells ▸ h.toLinked
  have hlength := congrArg List.length hcut
  have hcard := hlinked.length_le_card
  simp only [List.length_cons, List.length_append] at hlength hcard
  have hfuel : scanned.length ≤ q.live.card := by omega
  obtain ⟨visits, hvisits, hprefix⟩ := hlinked.scanVisits_eq hnew hfuel
  have hsteps := hprefix.length_le
  simp only [List.length_map, List.length_append, List.length_reverse,
    List.length_singleton] at hsteps
  rw [hvisits] at hwalk
  refine ⟨_, hwalk, ⟨happend, head?_of_scanVisits hvisits, appendScan_of_scanVisits hvisits,
    _, h.cycle_eq, fun x hx => ?_⟩, ?_, ?_⟩
  · rw [hcells, hcut]
    exact mem_addrs_of_prefix hprefix hx
  · subst hscanned
    rw [List.append_assoc, List.singleton_append] at hlinked
    rw [List.getLastD_concat] at hvisits
    have htwo := hlinked.two_le_visits hnew (by simpa using hfuel) hlight hvisits
    change 1 ≤ visits.length - 1
    omega
  · change visits.length - 1 ≤ rest.length
    omega

variable (new) in
/-- Every insertion comes to no walk or to one that stays inside the ring. -/
theorem Represents.appendWalk_inside (h : Represents q s)
    (hnew : q.readUnit new.addr = some new.unit) :
    ∃ walk, appendWalk q new.addr = some walk ∧ ∀ w ∈ walk, StaysInside q new.addr w ∧
      s.count ≠ 0 ∧ w.steps ≤ s.cells.length - 1 := by
  by_cases hcount : s.count = 0
  · refine ⟨none, ?_, nofun⟩
    rw [appendWalk, if_pos (h.elemNum_eq_zero_iff.mpr hcount)]
  have hnum : q.elemNum ≠ 0 := fun h0 => hcount (h.elemNum_eq_zero_iff.mp h0)
  obtain ⟨front, rest, hcells⟩ : ∃ front rest, s.cells = front :: rest := by
    cases hs : s.cells with
    | nil => simp [Sequence.count, hs] at hcount
    | cons front rest => exact ⟨front, rest, rfl⟩
  obtain ⟨hhead, hprev, hnext, hreadFront, hreadTail⟩ := h.read_ends hcells
  by_cases hahead : front.unit.data.weight < new.unit.data.weight
  · refine ⟨none, ?_, nofun⟩
    rw [appendWalk, if_neg hnum]
    simp only [hhead, hprev, hnext, listEntry, hnew, hreadFront, Option.bind_eq_bind,
      Option.bind_some, if_pos hahead]
  · by_cases hrear : (rest.getLastD front).unit.data.weight ≥ new.unit.data.weight
    · refine ⟨none, ?_, nofun⟩
      rw [appendWalk, if_neg hnum]
      simp only [hhead, hprev, hnext, listEntry, hnew, hreadFront, hreadTail,
        Option.bind_eq_bind, Option.bind_some, if_neg hahead, if_pos hrear]
    · have hfront : new.weight ≤ front.weight :=
        UInt32.le_iff_toNat_le.mp (UInt32.not_lt.mp hahead)
      have htail : (rest.getLastD front).weight < new.weight :=
        UInt32.lt_iff_toNat_lt.mp (UInt32.not_le.mp hrear)
      obtain ⟨w, hwalk, hinside, -, hsteps⟩ := h.exists_walk new hnew hcells hcount hfront htail
      refine ⟨some w, hwalk, ?_⟩
      rintro w' ⟨⟩
      refine ⟨hinside, hcount, ?_⟩
      rw [hcells, List.length_cons]
      exact hsteps

/-! ## Runs -/

/-- In every state that calls can reach, the walk that an insertion of a new unit makes stays
inside the ring and ends; it makes less than `elem_num` steps if no call of the run has
wrapped the counter. -/
theorem appendWalk_stays_inside {history : List (QlistCall × QlistRet)}
    (run : qlistSystem.Trace history q) (hfresh : a ∉ q.live) (anchorage : UInt32)
    (data : QlistUnitData) :
    ∃ walk, appendWalk (newUnit q a anchorage data) a = some walk ∧ ∀ w ∈ walk,
      StaysInside (newUnit q a anchorage data) a w ∧
        (qlistSystem.Run HasRoom history q → w.steps ≤ q.elemNum.toNat - 1) := by
  have hnew : (newUnit q a anchorage data).readUnit a = some ⟨anchorage, data⟩ := by
    simp [readUnit, newUnit]
  obtain ⟨s, h⟩ := exists_represents run
  obtain ⟨walk, hwalk, hinside⟩ :=
    (h.newUnit hfresh anchorage data).appendWalk_inside ⟨a, ⟨anchorage, data⟩⟩ hnew
  refine ⟨walk, hwalk, fun w hw => ⟨(hinside w hw).1, fun room => ?_⟩⟩
  obtain ⟨s', h', hs'⟩ := exists_sound (fun _ _ hroom => hroom) room
  obtain ⟨walk', hwalk', hinside'⟩ :=
    (h'.newUnit hfresh anchorage data).appendWalk_inside ⟨a, ⟨anchorage, data⟩⟩ hnew
  obtain rfl := Option.some.inj (hwalk.symm.trans hwalk')
  rw [h'.toNat_elemNum, hs'.count_eq]
  exact (hinside' w hw).2.2

/-- A unit of weight 2 for the ring of weights 5, 0, 1 whose second unit is remembered. -/
theorem appendWalk_stays_inside_of_disorder :
    ∃ history q w, qlistSystem.Run HasRoom history q ∧
      QList.ring q = some [(1, ofWeight 5), (2, ofWeight 0), (3, ofWeight 1)] ∧
      appendWalk (newUnit q 3 4 (ofWeight 2)) 3 = some (some w) ∧
      StaysInside (newUnit q 3 4 (ofWeight 2)) 3 w ∧ w.steps ≤ q.elemNum.toNat - 1 := by
  obtain ⟨history, q, run, htest⟩ := exists_run HasRoom
    [.appendUpdate 1 (ofWeight 5) (some 0), .appendUpdate 2 (ofWeight 3) (some 1),
      .appendUpdate 3 (ofWeight 1) (some 2), .appendUpdate 2 (ofWeight 0) none]
    (fun r => 3 ∉ r.2.live ∧
      QList.ring r.2 = some [(1, ofWeight 5), (2, ofWeight 0), (3, ofWeight 1)] ∧
      appendWalk (newUnit r.2 3 4 (ofWeight 2)) 3 = some (some ⟨1, 0, [1, 0]⟩))
    (by decide +kernel)
  obtain ⟨hfresh, hring, hsome⟩ := of_decide_eq_true htest
  obtain ⟨walk, hwalk, hinside⟩ := appendWalk_stays_inside run.trace hfresh 4 (ofWeight 2)
  obtain rfl := Option.some.inj (hwalk.symm.trans hsome)
  obtain ⟨hstays, hsteps⟩ := hinside _ rfl
  exact ⟨history, q, _, run, hring, hwalk, hstays, hsteps run⟩

/-- The next unit goes to the front, because the counter is zero: it is counted as the only
one. -/
theorem exists_counted_as_one :
    ∃ history q first cells tmp, qlistSystem.Trace history q ∧
      Represents q ⟨first :: cells, tmp⟩ ∧ first.weight = 5 ∧
      (⟨first :: cells, tmp⟩ : Sequence).count = 1 ∧ (cells.getLastD first).weight = 0 := by
  obtain ⟨history, q, s, run, h, hnum, hlength, hweight⟩ := exists_weightless_wrapped
  have hzero : s.count = 0 := h.elemNum_eq_zero_iff.mp hnum
  obtain ⟨x, hfresh⟩ := Infinite.exists_notMem_finset q.live
  have hmalloc : QlistCall.MallocContract q (.appendUpdate 0 (ofWeight 5) (some x)) := hfresh
  obtain ⟨q', hcall, h'⟩ := h.call hmalloc
  have hout : s.call (.appendUpdate 0 (ofWeight 5) (some x)) =
      (.errno .ok, ⟨⟨x, ⟨0, ofWeight 5⟩⟩ :: s.cells, s.tmp⟩) := by
    simp [Sequence.call, Sequence.lookup, Sequence.place, hzero]
  rw [hout] at hcall h'
  have hstep : qlistSystem.step q (.appendUpdate 0 (ofWeight 5) (some x), .errno .ok) q' :=
    ⟨hmalloc, hcall⟩
  refine ⟨_, q', _, _, _, run.extend trivial hstep, h', rfl, ?_, ?_⟩
  · rw [Sequence.count, List.length_cons, hlength]
    rfl
  · rcases List.eq_nil_or_concat s.cells with hnil | ⟨init, last, hlast⟩
    · rw [hnil] at hlength
      exact absurd hlength (by decide)
    · rw [hlast, List.concat_eq_append, List.getLastD_concat]
      exact hweight last (by rw [hlast]; simp)

/-- In a ring of 2^32 + 1 units, which `elem_num` counts as one, a walk makes a step. -/
theorem exists_walk_beyond_count :
    ¬ ∀ history q, qlistSystem.Trace history q → ∀ a, a ∉ q.live → ∀ anchorage data,
      ∃ walk, appendWalk (newUnit q a anchorage data) a = some walk ∧ ∀ w ∈ walk,
        StaysInside (newUnit q a anchorage data) a w ∧ w.steps ≤ q.elemNum.toNat - 1 := by
  intro hevery
  obtain ⟨history, q, first, cells, tmp, run, h, hfront, hcount, htail⟩ := exists_counted_as_one
  -- a unit that belongs between the weights of front and tail
  obtain ⟨z, hfresh⟩ := Infinite.exists_notMem_finset q.live
  obtain ⟨walk, hwalk, hinside⟩ := hevery _ q run z hfresh 1 (ofWeight 3)
  have hnew : (newUnit q z 1 (ofWeight 3)).readUnit z = some ⟨1, ofWeight 3⟩ := by
    simp [readUnit, newUnit]
  have hbelow : (3 : ℕ) ≤ first.weight := by omega
  have habove : (cells.getLastD first).weight < 3 := by omega
  obtain ⟨w, hw, -, hone, -⟩ := (h.newUnit hfresh 1 (ofWeight 3)).exists_walk
    ⟨z, ⟨1, ofWeight 3⟩⟩ hnew rfl (by rw [hcount]; decide) hbelow habove
  obtain rfl := Option.some.inj (hwalk.symm.trans hw)
  have hsteps := (hinside w rfl).2
  rw [h.toNat_elemNum, hcount] at hsteps
  omega

end BliveQueue.QList
