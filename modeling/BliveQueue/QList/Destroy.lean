/-
# The memory of the queue

A unit that the queue gets from `malloc` is linked into the ring until a removal frees it,
unless the request it was made for found no place: such a unit is neither linked nor freed.
`qlist_destroy` walks backwards from the tail and frees as many units as `elem_num` counts.
It leaves the units of the refused requests and, once the counter has wrapped, the front of
the ring; it never frees a unit twice and never takes `list_head` for a unit.
-/

import BliveQueue.QList.Order

namespace BliveQueue.QList

open BliveQueue.Math BliveQueue.Utils BliveQueue.Utils.QList
open BliveQueue.Utils.QList.BliveQlist

variable {q q' : BliveQlist} {s : Sequence} {cells front back : List Cell}
variable {history : List (QlistCall × QlistRet)} {label : QlistCall × QlistRet}
variable {anchorage : UInt32} {a : Addr} {live : Finset Addr} {ret : QlistRet}

/-! ## Where the units are -/

/-- The unit of a request that found no place. -/
def refusedUnit : QlistCall × QlistRet → Option Addr
  | (.appendUpdate _ _ mem, .errno .unknown) => mem
  | _ => none

/-- The units of all requests that found no place, oldest first. -/
def leaked (history : List (QlistCall × QlistRet)) : List Addr :=
  history.filterMap refusedUnit

theorem leaked_concat :
    leaked (history ++ [label]) = leaked history ++ (refusedUnit label).toList := by
  rw [leaked, leaked, List.filterMap_append]
  cases hunit : refusedUnit label <;> simp [hunit]

/-- Every allocated unit is in the ring or was made for a refused request, and is there once. -/
structure Accounted (history : List (QlistCall × QlistRet)) (q : BliveQlist) (s : Sequence) : Prop
    extends Represents q s where
  nodup : (leaked history ++ s.cells.map Cell.addr).Nodup
  live_eq : q.live = (leaked history ++ s.cells.map Cell.addr).toFinset

/-! ## What a call allocates and frees -/

/-- A refresh takes and gives back nothing. -/
theorem Represents.live_refresh (h : Represents q s) {c : Cell} {data : QlistUnitData}
    {mem : Option Addr} (hlookup : s.lookup anchorage = some c)
    (hcall : QList.call q (.appendUpdate anchorage data mem) = some (ret, q')) :
    q'.live = q.live := by
  obtain ⟨hc, -⟩ := Sequence.mem_of_lookup hlookup
  have hread : readUnit { q with tmpUnit := some c.addr } c.addr = some c.unit :=
    h.readUnit_eq hc
  simp only [QList.call, qlistAppendUpdate, h.qlistSearch_eq, hlookup, hread,
    Option.bind_eq_bind, Option.bind_some, Option.map_some, Option.some.injEq,
    Prod.mk.injEq] at hcall
  rw [← hcall.2]

/-- A request of somebody new takes one unit, whether it finds a place or not. -/
theorem Represents.live_append (h : Represents q s) {data : QlistUnitData}
    (hlookup : s.lookup anchorage = none) (hfresh : a ∉ q.live)
    (hcall : QList.call q (.appendUpdate anchorage data (some a)) = some (ret, q')) :
    q'.live = Insert.insert a q.live := by
  have hspec := (h.newUnit hfresh anchorage data).qlistAppend_eq ⟨a, ⟨anchorage, data⟩⟩
    (fun hmem => by
      obtain ⟨c, hc, rfl⟩ := List.mem_map.mp hmem
      exact hfresh (h.live c hc))
    (Finset.mem_insert_self _ _) (Function.update_self _ _ _)
  cases hplace : s.place ⟨a, ⟨anchorage, data⟩⟩ with
  | some cells =>
      rw [hplace] at hspec
      obtain ⟨node, hrun, -⟩ := hspec
      have hrun' : qlistAppend (QList.newUnit q a anchorage data) a = _ := hrun
      simp only [QList.call, qlistAppendUpdate, h.qlistSearch_eq, hlookup, hrun',
        Option.bind_eq_bind, Option.bind_some, if_true, Option.map_some, Option.some.injEq,
        Prod.mk.injEq] at hcall
      rw [← hcall.2]
      rfl
  | none =>
      rw [hplace] at hspec
      have hrun : qlistAppend (QList.newUnit q a anchorage data) a = _ := hspec
      simp only [QList.call, qlistAppendUpdate, h.qlistSearch_eq, hlookup, hrun,
        Option.bind_eq_bind, Option.bind_some, reduceCtorEq, if_false, Option.map_some,
        Option.some.injEq, Prod.mk.injEq] at hcall
      rw [← hcall.2]
      rfl

/-- A removal gives back the unit that it finds. -/
theorem Represents.live_subtract (h : Represents q s) {c : Cell}
    (hlookup : s.lookup anchorage = some c)
    (hcall : QList.call q (.subtract anchorage) = some (ret, q')) :
    q'.live = q.live.erase c.addr := by
  obtain ⟨hc, -⟩ := Sequence.mem_of_lookup hlookup
  obtain ⟨node, hrun, -⟩ := h.subtract hc
  simp only [QList.call, qlistSubtract, h.qlistSearch_eq, hlookup, hrun, Option.bind_eq_bind,
    Option.bind_some, Option.map_some, Option.some.injEq, Prod.mk.injEq] at hcall
  rw [← hcall.2]
  rfl

/-- A call that finds nothing and asks for no memory leaves the queue alone, and so does a
lookup, except for the remembered unit. -/
theorem Represents.live_inert (h : Represents q s) {call : QlistCall}
    (hcall : QList.call q call = some (ret, q'))
    (hinert : (∃ anchorage data, call = .appendUpdate anchorage data none ∧
        s.lookup anchorage = none) ∨
      (∃ anchorage, call = .subtract anchorage ∧ s.lookup anchorage = none) ∨
        ∃ anchorage, call = .anchorageExistence anchorage) : q'.live = q.live := by
  rcases hinert with ⟨b, data, rfl, hlookup⟩ | ⟨b, rfl, hlookup⟩ | ⟨b, rfl⟩
  · simp only [QList.call, qlistAppendUpdate, h.qlistSearch_eq, hlookup, Option.bind_eq_bind,
      Option.bind_some, Option.map_some, Option.some.injEq, Prod.mk.injEq] at hcall
    rw [← hcall.2]
  · simp only [QList.call, qlistSubtract, h.qlistSearch_eq, hlookup, Option.bind_eq_bind,
      Option.bind_some, Option.map_some, Option.some.injEq, Prod.mk.injEq] at hcall
    rw [← hcall.2]
  · cases hlookup : s.lookup b with
    | none | some c =>
        simp only [QList.call, qlistAnchorageExistence, h.qlistSearch_eq, hlookup,
          Option.bind_eq_bind, Option.bind_some, Option.map_some, Option.some.injEq,
          Prod.mk.injEq] at hcall
        rw [← hcall.2]

/-! ## The account -/

theorem Accounted.start : Accounted [] emptyQlist ⟨[], none⟩ :=
  ⟨emptyQlist_represents, List.nodup_nil, rfl⟩

/-- A step that takes and gives back nothing. -/
theorem Accounted.keep (h : Accounted history q s) {s' : Sequence} (hrep : Represents q' s')
    (hunit : refusedUnit label = none) (hlive : q'.live = q.live)
    (haddr : s'.cells.map Cell.addr = s.cells.map Cell.addr) :
    Accounted (history ++ [label]) q' s' := by
  refine ⟨hrep, ?_, ?_⟩
  · rw [leaked_concat, hunit, haddr]
    simpa using h.nodup
  · rw [leaked_concat, hunit, haddr, hlive, h.live_eq]
    simp

/-- A request of somebody new: his unit comes into the ring or is put aside. -/
theorem Accounted.append (h : Accounted history q s) {data : QlistUnitData}
    (hlookup : s.lookup anchorage = none) (hfresh : a ∉ q.live)
    (hstep : qlistSystem.step q (.appendUpdate anchorage data (some a), ret) q') :
    ∃ s', Accounted (history ++ [(.appendUpdate anchorage data (some a), ret)]) q' s' := by
  obtain ⟨hret, hrep⟩ := h.toRepresents.step hstep
  have hlive := h.toRepresents.live_append hlookup hfresh hstep.2
  have hnew : a ∉ leaked history ++ s.cells.map Cell.addr := by
    intro hmem
    rw [h.live_eq] at hfresh
    exact hfresh (List.mem_toFinset.mpr hmem)
  cases hplace : s.place ⟨a, ⟨anchorage, data⟩⟩ with
  | some cells =>
      have hcall : s.call (.appendUpdate anchorage data (some a)) =
          (.errno .ok, ⟨cells, s.tmp⟩) := by
        simp only [Sequence.call, hlookup, hplace]
      rw [hcall] at hret hrep
      obtain rfl : ret = .errno .ok := hret
      obtain ⟨front, back, hcells, rfl⟩ := Sequence.exists_of_place_eq_some hplace
      have hperm : (leaked history ++ (front ++ ⟨a, ⟨anchorage, data⟩⟩ :: back).map Cell.addr).Perm
          (a :: (leaked history ++ s.cells.map Cell.addr)) := by
        rw [hcells, List.map_append, List.map_append, List.map_cons, ← List.append_assoc,
          ← List.append_assoc]
        exact List.perm_middle
      refine ⟨_, hrep, ?_, ?_⟩
      · rw [leaked_concat]
        simpa [refusedUnit] using hperm.nodup_iff.mpr (List.nodup_cons.mpr ⟨hnew, h.nodup⟩)
      · rw [leaked_concat, hlive, h.live_eq, ← List.toFinset_cons]
        simpa [refusedUnit] using (List.toFinset_eq_of_perm _ _ hperm).symm
  | none =>
      have hcall : s.call (.appendUpdate anchorage data (some a)) = (.errno .unknown, s) := by
        simp only [Sequence.call, hlookup, hplace]
      rw [hcall] at hret hrep
      obtain rfl : ret = .errno .unknown := hret
      have hperm : ((leaked history ++ [a]) ++ s.cells.map Cell.addr).Perm
          (a :: (leaked history ++ s.cells.map Cell.addr)) := by
        rw [List.append_assoc]
        exact List.perm_middle
      refine ⟨_, hrep, ?_, ?_⟩
      · rw [leaked_concat]
        exact hperm.nodup_iff.mpr (List.nodup_cons.mpr ⟨hnew, h.nodup⟩)
      · rw [leaked_concat, hlive, h.live_eq, ← List.toFinset_cons]
        exact (List.toFinset_eq_of_perm _ _ hperm).symm

/-- A removal that finds its unit. -/
theorem Accounted.subtract (h : Accounted history q s) {c : Cell}
    (hlookup : s.lookup anchorage = some c)
    (hstep : qlistSystem.step q (.subtract anchorage, ret) q') :
    ∃ s', Accounted (history ++ [(.subtract anchorage, ret)]) q' s' := by
  obtain ⟨hret, hrep⟩ := h.toRepresents.step hstep
  have hlive := h.toRepresents.live_subtract hlookup hstep.2
  have hcall : s.call (.subtract anchorage) =
      (.errno .ok, ⟨s.cells.filter (·.addr ≠ c.addr), none⟩) := by
    simp only [Sequence.call, hlookup]
  rw [hcall] at hrep
  obtain ⟨hc, -⟩ := Sequence.mem_of_lookup hlookup
  have hring : c.addr ∈ s.cells.map Cell.addr := List.mem_map_of_mem hc
  have hkept : c.addr ∉ leaked history := fun hmem =>
    List.disjoint_of_nodup_append h.nodup hmem hring
  have haddr : (s.cells.filter (·.addr ≠ c.addr)).map Cell.addr =
      (s.cells.map Cell.addr).erase c.addr := by
    rw [(List.Nodup.of_append_right h.nodup).erase_eq_filter, List.filter_map]
    congr 1
    refine List.filter_congr fun d _ => ?_
    by_cases heq : d.addr = c.addr <;> simp [heq]
  have herase : leaked history ++ (s.cells.map Cell.addr).erase c.addr =
      (leaked history ++ s.cells.map Cell.addr).erase c.addr :=
    (List.erase_append_right _ hkept).symm
  refine ⟨_, hrep, ?_, ?_⟩
  · rw [leaked_concat, haddr]
    simpa [refusedUnit, herase] using h.nodup.erase c.addr
  · rw [leaked_concat, haddr, hlive, h.live_eq]
    simp only [refusedUnit, Option.toList_none, List.append_nil, herase]
    ext b
    simp [h.nodup.mem_erase_iff]

/-- Every step keeps the account. -/
theorem Accounted.step (h : Accounted history q s) (hstep : qlistSystem.step q label q') :
    ∃ s', Accounted (history ++ [label]) q' s' := by
  obtain ⟨call, ret⟩ := label
  obtain ⟨hret, hrep⟩ := h.toRepresents.step hstep
  have hinert := h.toRepresents.live_inert hstep.2
  cases call with
  | appendUpdate anchorage data mem =>
      cases hlookup : s.lookup anchorage with
      | some c =>
          have hlive := h.toRepresents.live_refresh hlookup hstep.2
          simp only [Sequence.call, hlookup] at hret hrep
          subst hret
          exact ⟨_, h.keep hrep rfl hlive (Sequence.map_addr_refresh _ _ _)⟩
      | none =>
          cases mem with
          | some a => exact h.append hlookup hstep.1 hstep
          | none =>
              have hlive := hinert (Or.inl ⟨anchorage, data, rfl, hlookup⟩)
              simp only [Sequence.call, hlookup] at hret hrep
              subst hret
              exact ⟨_, h.keep hrep rfl hlive rfl⟩
  | subtract anchorage =>
      cases hlookup : s.lookup anchorage with
      | some c => exact h.subtract hlookup hstep
      | none =>
          have hlive := hinert (Or.inr (Or.inl ⟨anchorage, rfl, hlookup⟩))
          simp only [Sequence.call, hlookup] at hrep
          exact ⟨_, h.keep hrep rfl hlive rfl⟩
  | anchorageExistence anchorage =>
      have hlive := hinert (Or.inr (Or.inr ⟨anchorage, rfl⟩))
      have haddr : (s.call (.anchorageExistence anchorage)).2.cells = s.cells := by
        simp only [Sequence.call]
        split <;> rfl
      exact ⟨_, h.keep hrep rfl hlive (congrArg _ haddr)⟩

/-- The account of a run. -/
theorem exists_accounted (run : qlistSystem.Trace history q) : ∃ s, Accounted history q s := by
  apply run.invariant (I := fun history q => ∃ s, Accounted history q s)
  · intro q hinit
    exact ⟨_, eq_emptyQlist_of_init hinit ▸ Accounted.start⟩
  · rintro history q label q' - ⟨s, h⟩ - hstep
    exact h.step hstep

/-! ## The loop of `qlist_destroy` -/

/-- The loop frees the last units of `front`, each while it is still allocated. -/
theorem Linked.destroyLoop_eq (h : Linked q (front ++ back)) {count : ℕ}
    (hcount : count ≤ front.length) (hlive : ∀ c ∈ front, c.addr ∈ live) :
    destroyLoop count ((front.map Cell.node).getLastD .listHead) { q with live := live } =
      some { q with live := live \ ((front.reverse.take count).map Cell.addr).toFinset } := by
  induction count generalizing front back live with
  | zero => simp [destroyLoop]
  | succ count ih =>
      rcases List.eq_nil_or_concat front with rfl | ⟨front, c, rfl⟩
      · simp at hcount
      · have h' : Linked q (front ++ c :: back) := by simpa using h
        have hring : LinkedRing q.next q.prev .listHead
            (front.map Cell.node ++ c.node :: back.map Cell.node) := by simpa using h'.ring
        have hprev : (q.node c.node).prev = (front.map Cell.node).getLastD .listHead :=
          hring.prev_node
        have hc : c.addr ∈ live := hlive c (by simp)
        have hread : readNode { q with live := live } c.node = some (q.node c.node) := by
          rw [readNode, if_pos]
          exact hc
        have hothers : ∀ d ∈ front, d.addr ∈ live.erase c.addr := by
          intro d hd
          refine Finset.mem_erase.mpr ⟨fun heq => ?_, hlive d (by simp [hd])⟩
          have hnodup := h'.addr_injOn
          rw [List.map_append, List.map_cons] at hnodup
          exact List.disjoint_of_nodup_append hnodup (heq ▸ List.mem_map_of_mem hd)
            List.mem_cons_self
        have hrest := ih h' (by simpa using hcount) hothers
        have hlast : ((front.concat c).map Cell.node).getLastD .listHead = c.node := by simp
        rw [hlast, destroyLoop]
        simp only [Cell.node, listEntry, Option.bind_eq_bind, Option.bind_some] at hread hprev ⊢
        rw [hread, Option.bind_some, hprev]
        rw [hrest, List.concat_eq_append, List.reverse_concat, List.take_succ_cons,
          List.map_cons, List.toFinset_cons, Finset.sdiff_insert, Finset.erase_sdiff_comm]

/-- `qlist_destroy` frees the units at the end of the ring that the counter counts. -/
theorem Represents.qlistDestroy_eq (h : Represents q s) :
    qlistDestroy (some q) = some (.ok,
      q.live \ ((s.cells.map Cell.addr).drop (s.cells.length - s.count)).toFinset) := by
  have hlinked : Linked q (s.cells ++ []) := by simpa using h.toLinked
  have hcount : s.count ≤ s.cells.length := Nat.mod_le _ _
  have hloop := hlinked.destroyLoop_eq hcount h.live
  have htail : (q.node .listHead).prev = (s.cells.map Cell.node).getLastD .listHead :=
    h.ring.prev_head
  have hfreed : ((s.cells.reverse.take s.count).map Cell.addr).toFinset =
      ((s.cells.map Cell.addr).drop (s.cells.length - s.count)).toFinset := by
    rw [List.take_reverse, List.map_reverse, List.map_drop, List.toFinset_reverse]
  have hread : q.readNode .listHead = some (q.node .listHead) := if_pos trivial
  simp only [qlistDestroy, hread, Option.bind_eq_bind, Option.bind_some, htail, h.toNat_elemNum]
  rw [hloop, Option.bind_some, hfreed]

/-- The memory of the queue in every run: its units are the ring and those of the requests that
found no place, each once. `qlist_destroy` succeeds and frees as many units as `elem_num`
counts, from the tail; what it leaves are the units of the refused requests and the part of
the ring that the counter does not count. -/
theorem qlistDestroy_leaves (run : qlistSystem.Trace history q) :
    ∃ units, cycle q = some units ∧ (leaked history ++ units).Nodup ∧
      q.live = (leaked history ++ units).toFinset ∧
      qlistDestroy (some q) = some (.ok,
        (leaked history ++ units.take (units.length - q.elemNum.toNat)).toFinset) := by
  obtain ⟨s, h⟩ := exists_accounted run
  refine ⟨_, h.toLinked.cycle_eq, h.nodup, h.live_eq, ?_⟩
  have hcut : (s.cells.map Cell.addr).take (s.cells.length - s.count) ++
      (s.cells.map Cell.addr).drop (s.cells.length - s.count) = s.cells.map Cell.addr :=
    List.take_append_drop _ _
  have hnodup := h.nodup
  rw [← hcut, ← List.append_assoc] at hnodup
  have hleft : q.live \ ((s.cells.map Cell.addr).drop (s.cells.length - s.count)).toFinset =
      (leaked history ++ (s.cells.map Cell.addr).take (s.cells.length - s.count)).toFinset := by
    rw [h.live_eq]
    nth_rewrite 1 [← hcut]
    rw [← List.append_assoc, List.toFinset_append]
    apply Finset.union_sdiff_cancel_right
    exact List.disjoint_toFinset_iff_disjoint.mpr (List.disjoint_of_nodup_append hnodup)
  rw [h.toRepresents.qlistDestroy_eq, hleft, h.toNat_elemNum, List.length_map]

/-- Two users are queued, and the request of a third one found no place: his unit is left. -/
theorem qlistDestroy_leaves_refused :
    ∃ history q, qlistSystem.Trace history q ∧ leaked history = [2] ∧ q.elemNum = 2 ∧
      ∃ units, cycle q = some units ∧ (leaked history ++ units).Nodup ∧
        q.live = (leaked history ++ units).toFinset ∧
        qlistDestroy (some q) = some (.ok,
          (leaked history ++ units.take (units.length - q.elemNum.toNat)).toFinset) := by
  obtain ⟨history, q, run, htest⟩ := exists_run System.anyStep
    [.appendUpdate 1 (ofWeight 5) (some 0), .appendUpdate 2 (ofWeight 1) (some 1),
      .appendUpdate 3 (ofWeight 5) (some 2)]
    (fun r => leaked r.1 = [2] ∧ r.2.elemNum = 2) (by decide +kernel)
  obtain ⟨hleaked, hnum⟩ := of_decide_eq_true htest
  exact ⟨history, q, run, hleaked, hnum, qlistDestroy_leaves run⟩

end BliveQueue.QList
