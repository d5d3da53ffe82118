/-
# The calls refine the sequence model

Each function of the source gets one specification: from a memory that
represents a sequence it has a result, the result is the one the sequence model
computes, and the new memory represents the new sequence. In particular no call
reads or writes a freed unit, mistakes the sentinel for a unit, or fails to
return, in any state that a client can reach.
-/

import BliveQueue.QList.Linked

namespace BliveQueue.QList

open BliveQueue.Math BliveQueue.Utils BliveQueue.Utils.QList
open BliveQueue.Utils.QList.BliveQlist

variable {q : BliveQlist} {s : Sequence} {cells front back : List Cell} {c new : Cell}

/-! ## Lookup -/

namespace Linked

theorem readNode_headD (h : Linked q (front ++ back)) :
    ∃ node, q.readNode ((back.map Cell.node).headD .listHead) = some node ∧
      node.prev = (front.map Cell.node).getLastD .listHead := by
  have halloc := h.allocated_headD (List.subset_append_right _ back)
  refine ⟨_, by rw [readNode, if_pos halloc], ?_⟩
  cases back with
  | nil =>
      show q.prev .listHead = _
      simpa using h.ring.prev_head
  | cons c back =>
      have hring : LinkedRing q.next q.prev .listHead
          (front.map Cell.node ++ c.node :: back.map Cell.node) := by simpa using h.ring
      exact hring.prev_node

/-- The ring is no longer than the number of allocated units. -/
theorem length_le_card (h : Linked q cells) : cells.length ≤ q.live.card := by
  have hsub : (cells.map Cell.addr).toFinset ⊆ q.live := by
    intro a ha
    obtain ⟨c, hc, rfl⟩ := List.mem_map.mp (List.mem_toFinset.mp ha)
    exact h.live c hc
  calc cells.length = (cells.map Cell.addr).toFinset.card := by
        rw [List.toFinset_card_of_nodup h.addr_injOn, List.length_map]
    _ ≤ q.live.card := Finset.card_le_card hsub

/-- The counted walk of `qlist_search` from the node in front of which `front`
ends: it meets the units of `front` from the back. -/
theorem searchLoop_eq (h : Linked q (front ++ back)) (anchorage : UInt32) {count : ℕ}
    (hcount : count ≤ front.length) :
    searchLoop q anchorage count ((back.map Cell.node).headD .listHead) =
      some (match (front.reverse.take count).find? fun c => c.unit.anchorage = anchorage with
        | none => (none, q)
        | some c => (some c.addr, { q with tmpUnit := some c.addr })) := by
  induction count generalizing front back with
  | zero => simp [searchLoop]
  | succ count ih =>
      rcases List.eq_nil_or_concat front with rfl | ⟨front, c, rfl⟩
      · simp at hcount
      · obtain ⟨node, hread, hprev⟩ := h.readNode_headD
        have hprev' : node.prev = .listNode c.addr := by simpa [Cell.node] using hprev
        have hmem : c ∈ front.concat c ++ back := by simp
        have h' : Linked q (front ++ c :: back) := by simpa using h
        rw [searchLoop, hread]
        simp only [Option.bind_eq_bind, Option.bind_some, hprev', listEntry,
          h.readUnit_eq hmem, List.concat_eq_append, List.reverse_append, List.reverse_cons,
          List.reverse_nil, List.nil_append, List.singleton_append, List.take_succ_cons,
          List.find?_cons]
        by_cases hc : c.unit.anchorage = anchorage
        · simp [hc]
        · have hcount' : count ≤ front.length := by simpa using hcount
          simpa [hc, Ne.symm hc, Cell.node] using ih h' hcount'

end Linked

namespace Represents

theorem toNat_elemNum (h : Represents q s) : q.elemNum.toNat = s.count := by
  rw [h.count, Sequence.count, UInt32.toNat_ofNat']

theorem elemNum_eq_zero_iff (h : Represents q s) : q.elemNum = 0 ↔ s.count = 0 := by
  rw [← h.toNat_elemNum]
  exact ⟨fun h0 => by simp [h0], fun h0 => UInt32.toNat_inj.mp (by simpa using h0)⟩

theorem cached_eq (h : Represents q s) {t : Addr} (ht : s.tmp = some t) :
    ∃ c ∈ s.cells, c.addr = t ∧ s.cached = some c := by
  obtain ⟨c, hc, haddr⟩ := h.cached t ht
  refine ⟨c, hc, haddr, ?_⟩
  cases hfind : s.cells.find? fun d => d.addr = t with
  | none => exact absurd haddr (by simpa using List.find?_eq_none.mp hfind c hc)
  | some d =>
      have hd : d.addr = t := by simpa using List.find?_some hfind
      have : d = c := h.eq_of_addr (List.mem_of_find?_eq_some hfind) hc (hd.trans haddr.symm)
      simp [Sequence.cached, ht, hfind, this]

/-- `qlist_search` finds what the sequence model looks up and remembers it. -/
theorem qlistSearch_eq (h : Represents q s) (anchorage : UInt32) :
    qlistSearch q anchorage =
      some (match s.lookup anchorage with
        | none => (none, q)
        | some c => (some c.addr, { q with tmpUnit := some c.addr })) := by
  have hwalk : searchLoop q anchorage q.elemNum.toNat .listHead =
      some (match s.walk anchorage with
        | none => (none, q)
        | some c => (some c.addr, { q with tmpUnit := some c.addr })) := by
    have hlinked : Linked q (s.cells ++ []) := by simpa using h.toLinked
    rw [h.toNat_elemNum]
    exact hlinked.searchLoop_eq anchorage (Nat.mod_le _ _)
  by_cases hzero : s.count = 0
  · simp [qlistSearch, h.elemNum_eq_zero_iff.mpr hzero, Sequence.lookup, hzero]
  · have hnum : q.elemNum ≠ 0 := fun h0 => hzero (h.elemNum_eq_zero_iff.mp h0)
    rw [qlistSearch, if_neg hnum, Sequence.lookup, if_neg hzero]
    cases htmp : s.tmp with
    | none => simp [h.tmp, htmp, Sequence.cached, hwalk]
    | some t =>
        obtain ⟨c, hc, rfl, hcached⟩ := h.cached_eq htmp
        simp only [h.tmp, htmp, hcached, h.readUnit_eq hc, Option.bind_eq_bind,
          Option.bind_some]
        by_cases hanch : c.unit.anchorage = anchorage
        · have hq : { q with tmpUnit := some c.addr } = q := by
            rw [← htmp, ← h.tmp]
          simp [hanch, hq]
        · simp [hanch, hwalk]

end Represents

theorem Sequence.mem_of_lookup {anchorage : UInt32} (h : s.lookup anchorage = some c) :
    c ∈ s.cells ∧ c.unit.anchorage = anchorage := by
  have hwalk : s.walk anchorage = some c → c ∈ s.cells ∧ c.unit.anchorage = anchorage := by
    intro hw
    exact ⟨by simpa using List.mem_of_mem_take (List.mem_of_find?_eq_some hw),
      by simpa using List.find?_some hw⟩
  rw [Sequence.lookup] at h
  by_cases hzero : s.count = 0
  · simp [hzero] at h
  · rw [if_neg hzero] at h
    cases hcached : s.cached with
    | none => exact hwalk (by simpa [hcached] using h)
    | some d =>
        by_cases hd : d.unit.anchorage = anchorage
        · have : d = c := by simpa [hcached, hd] using h
          subst this
          obtain ⟨t, -, hfind⟩ := Option.bind_eq_some_iff.mp hcached
          exact ⟨List.mem_of_find?_eq_some hfind, hd⟩
        · exact hwalk (by simpa [hcached, hd] using h)

/-! ## Insertion -/

theorem insertAfterLast_eq_find? (p : Cell → Bool) (new : Cell) (l : List Cell) :
    (∃ front x rest, l = front ++ x :: rest ∧ l.reverse.find? p = some x ∧
        insertAfterLast p new l = some (front ++ x :: new :: rest)) ∨
      l.reverse.find? p = none ∧ insertAfterLast p new l = none := by
  cases hins : insertAfterLast p new l with
  | none =>
      refine Or.inr ⟨List.find?_eq_none.mpr fun x hx => ?_, rfl⟩
      simpa using insertAfterLast_eq_none_iff.mp hins x (by simpa using hx)
  | some l' =>
      obtain ⟨front, x, rest, rfl, hx, hrest, rfl⟩ := exists_of_insertAfterLast_eq_some hins
      refine Or.inl ⟨front, x, rest, rfl, ?_, rfl⟩
      have hnone : rest.reverse.find? p = none :=
        List.find?_eq_none.mpr fun y hy => by simpa using hrest y (by simpa using hy)
      simp [List.find?_append, hnone, hx]

/-- The node of the last unit of a nonempty sequence. -/
theorem getLastD_node (before l : List Cell) (e : Cell) :
    ((before ++ e :: l).map Cell.node).getLastD .listHead = .listNode (l.getLastD e).addr := by
  rcases List.eq_nil_or_concat l with rfl | ⟨l, x, rfl⟩
  · simp [Cell.node]
  · have hconcat : before ++ e :: l.concat x = (before ++ e :: l).concat x := by simp
    rw [hconcat, List.map_concat, List.concat_eq_append, List.concat_eq_append,
      List.getLastD_concat, List.getLastD_concat]
    rfl

/-- Two units of the ring at different places are different. -/
theorem Linked.addr_ne {before l behind : List Cell} {e : Cell}
    (h : Linked q (before ++ e :: (l ++ c :: behind))) : c.addr ≠ e.addr := by
  intro heq
  have hnodup := h.addr_injOn
  simp only [List.map_append, List.map_cons, List.nodup_append, List.nodup_cons,
    List.mem_append, List.mem_cons, not_or, heq] at hnodup
  exact hnodup.2.1.1.2.1 trivial

/-- The backward scan meets the units of the scanned range from the back and
never leaves the range, so `scanned.length` steps are enough. -/
theorem Linked.appendScan_eq {before scanned behind : List Cell} {e : Cell}
    (h : Linked q (before ++ e :: (scanned ++ behind)))
    (hnew : q.readUnit new.addr = some new.unit) {fuel : ℕ} (hfuel : scanned.length ≤ fuel) :
    appendScan q new.addr e.addr fuel (scanned.getLastD e).addr =
      some ((scanned.reverse.find? fun c => decide (new.weight ≤ c.weight)).map Cell.addr) := by
  induction scanned using List.reverseRecOn generalizing fuel behind with
  | nil => cases fuel <;> simp [appendScan]
  | append_singleton scanned c ih =>
      have h' : Linked q (before ++ e :: (scanned ++ c :: behind)) := by simpa using h
      have hce : c.addr ≠ e.addr := h'.addr_ne
      obtain ⟨fuel, rfl⟩ : ∃ n, fuel = n + 1 :=
        ⟨fuel - 1, by simp at hfuel; omega⟩
      have hread := h'.readUnit_eq (c := c) (by simp)
      have halloc : q.Allocated (.listNode c.addr) := h'.live c (by simp)
      have hring : LinkedRing q.next q.prev .listHead
          ((before ++ e :: scanned).map Cell.node ++ c.node :: behind.map Cell.node) := by
        simpa using h'.ring
      have hprev : (q.node (.listNode c.addr)).prev =
          .listNode (scanned.getLastD e).addr := by
        have := hring.prev_node
        rw [show (q.node (.listNode c.addr)).prev = q.prev c.node from rfl, this]
        exact getLastD_node _ _ _
      rw [List.getLastD_concat, appendScan, if_neg hce]
      simp only [hread, hnew, Option.bind_eq_bind, Option.bind_some, List.reverse_append,
        List.reverse_cons, List.reverse_nil, List.nil_append, List.singleton_append,
        List.find?_cons, ge_iff_le, UInt32.le_iff_toNat_le]
      by_cases hle : new.weight ≤ c.weight
      · have hle' : new.unit.data.weight.toNat ≤ c.unit.data.weight.toNat := hle
        simp [hle, hle']
      · have hle' : ¬ new.unit.data.weight.toNat ≤ c.unit.data.weight.toNat := hle
        have hfuel' : scanned.length ≤ fuel := by simpa using hfuel
        simpa [hle, hle', readNode, halloc, hprev, listEntry] using ih h' hfuel'

theorem Represents.appendWindow_eq (h : Represents q s) {front : Cell} {rest : List Cell}
    (hcells : s.cells = front :: rest) (hnew : q.readUnit new.addr = some new.unit) :
    appendWindow q new.addr front.addr (rest.getLastD front).addr =
      some (((Sequence.window front rest s.tmp new).scanned.getLastD
          (Sequence.window front rest s.tmp new).endUnit).addr,
        (Sequence.window front rest s.tmp new).endUnit.addr) := by
  cases htmp : s.tmp with
  | none => simp [appendWindow, h.tmp, htmp, Sequence.window]
  | some t =>
      obtain ⟨c, hc, rfl⟩ := h.cached t htmp
      rw [appendWindow, h.tmp, htmp]
      simp only [h.readUnit_eq hc, hnew, Option.bind_eq_bind, Option.bind_some, gt_iff_lt,
        UInt32.lt_iff_toNat_lt]
      have hcut : Sequence.splitAt c.addr (front :: rest) ≠ none := by
        rw [ne_eq, Sequence.splitAt_eq_none_iff, not_forall]
        exact ⟨c, fun hne => hne (hcells ▸ hc) rfl⟩
      obtain ⟨⟨before, d, behind⟩, hsplit⟩ := Option.ne_none_iff_exists'.mp hcut
      obtain ⟨hsplit', haddr⟩ := Sequence.splitAt_eq_some hsplit
      obtain rfl : d = c := h.eq_of_addr (by rw [hcells, hsplit']; simp) hc haddr
      have hbind : (some d.addr).bind (fun t => Sequence.splitAt t (front :: rest)) =
          some (before, d, behind) := hsplit
      have hlast : rest.getLastD front = behind.getLastD d := by
        have := congrArg List.getLast? hsplit'
        simp only [List.getLast?_append, List.getLast?_cons] at this
        simpa [List.getLastD_eq_getLast?] using this
      by_cases hheavy : new.weight < d.weight
      · have hheavy' : new.unit.data.weight.toNat < d.unit.data.weight.toNat := hheavy
        simp only [if_pos hheavy', Sequence.window, hbind, if_pos hheavy, hlast]
      · have hheavy' : ¬ new.unit.data.weight.toNat < d.unit.data.weight.toNat := hheavy
        by_cases hlight : d.weight < new.weight
        · have hlight' : d.unit.data.weight.toNat < new.unit.data.weight.toNat := hlight
          simp only [if_neg hheavy', if_pos hlight', Sequence.window, hbind, if_neg hheavy,
            if_pos hlight, List.getLastD_concat]
        · have hlight' : ¬ d.unit.data.weight.toNat < new.unit.data.weight.toNat := hlight
          simp only [if_neg hheavy', if_neg hlight', Sequence.window, hbind, if_neg hheavy,
            if_neg hlight]

section Append

variable (h : Represents q s) (hfresh : new.addr ∉ s.cells.map Cell.addr)
  (hlive : new.addr ∈ q.live) (hstored : q.unit new.addr = new.unit)

include h hfresh hlive hstored in
/-- `qlist_append` behind or ahead of a given unit of the ring. -/
private theorem Represents.append_at (front back : List Cell)
    (hcells : s.cells = front ++ back) :
    (∃ node, listAppendRear q ((front.map Cell.node).getLastD .listHead) new.node =
        some (withNodes q node) ∧ Linked (withNodes q node) (front ++ new :: back)) ∧
      ∃ node, listAppendAhead q ((back.map Cell.node).headD .listHead) new.node =
        some (withNodes q node) ∧ Linked (withNodes q node) (front ++ new :: back) := by
  have hlinked : Linked q (front ++ back) := hcells ▸ h.toLinked
  have hfresh' : new.addr ∉ (front ++ back).map Cell.addr := hcells ▸ hfresh
  exact ⟨hlinked.appendRear hfresh' hlive hstored rfl,
    hlinked.appendAhead hfresh' hlive hstored rfl⟩

include h hfresh hlive hstored in
/-- The scan of a window that cuts the sequence, and the last chance behind it. -/
private theorem Represents.appendInWindow_eq {w : Sequence.Window}
    (hcut : s.cells = w.before ++ w.endUnit :: (w.scanned ++ w.behind)) :
    match Sequence.scan w new with
    | some cells => ∃ node,
        appendInWindow q new.addr (w.scanned.getLastD w.endUnit).addr w.endUnit.addr =
          some (.ok, withNodes q node) ∧ Linked (withNodes q node) cells
    | none =>
        appendInWindow q new.addr (w.scanned.getLastD w.endUnit).addr w.endUnit.addr =
          some (.unknown, q) := by
  obtain ⟨before, e, scanned, behind⟩ := w
  simp only at hcut ⊢
  have hread : q.readUnit new.addr = some new.unit := by simp [readUnit, hlive, hstored]
  have hlinked : Linked q (before ++ e :: (scanned ++ behind)) := hcut ▸ h.toLinked
  have hfuel : scanned.length ≤ q.live.card :=
    calc scanned.length ≤ (before ++ e :: (scanned ++ behind)).length := by simp; omega
      _ ≤ q.live.card := hlinked.length_le_card
  rw [appendInWindow]
  simp only [hlinked.appendScan_eq hread hfuel, Option.bind_eq_bind, Option.bind_some]
  rcases insertAfterLast_eq_find? (fun c => decide (new.weight ≤ c.weight)) new scanned with
    ⟨l, x, r, rfl, hfind, hins⟩ | ⟨hfind, hins⟩
  · obtain ⟨node, hrun, hlinked'⟩ := (h.append_at hfresh hlive hstored
      (before ++ e :: (l ++ [x])) (r ++ behind) (by simpa using hcut)).1
    rw [getLastD_node, List.getLastD_concat] at hrun
    simp only [hfind, hins, Sequence.scan, Option.map_some]
    exact ⟨node, by rw [show ListPtr.listNode new.addr = new.node from rfl, hrun]; rfl,
      by simpa using hlinked'⟩
  · have hreadEnd := hlinked.readUnit_eq (c := e) (by simp)
    simp only [hfind, hins, Sequence.scan, Option.map_none, hreadEnd, hread, Option.bind_some,
      gt_iff_lt, UInt32.lt_iff_toNat_lt]
    by_cases hheavy : new.weight < e.weight
    · have hheavy' : new.unit.data.weight.toNat < e.unit.data.weight.toNat := hheavy
      obtain ⟨node, hrun, hlinked'⟩ := (h.append_at hfresh hlive hstored
        (before ++ [e]) (scanned ++ behind) (by simpa using hcut)).1
      rw [getLastD_node, List.getLastD_nil] at hrun
      simp only [if_pos hheavy, if_pos hheavy']
      exact ⟨node, by rw [show ListPtr.listNode new.addr = new.node from rfl, hrun]; rfl,
        by simpa using hlinked'⟩
    · have hheavy' : ¬ new.unit.data.weight.toNat < e.unit.data.weight.toNat := hheavy
      simp only [if_neg hheavy, if_neg hheavy']

omit hfresh hlive hstored in
include h in
/-- The two ends of the ring, as `qlist_append` reads them. -/
theorem Represents.read_ends {front : Cell} {rest : List Cell} (hcells : s.cells = front :: rest) :
    q.readNode .listHead = some (q.node .listHead) ∧
      (q.node .listHead).prev = .listNode (rest.getLastD front).addr ∧
      (q.node .listHead).next = .listNode front.addr ∧
      q.readUnit front.addr = some front.unit ∧
      q.readUnit (rest.getLastD front).addr = some (rest.getLastD front).unit := by
  have hring : LinkedRing q.next q.prev .listHead ((front :: rest).map Cell.node) :=
    hcells ▸ h.ring
  refine ⟨rfl, hring.prev_head.trans (getLastD_node [] _ _), hring.next_head, ?_, ?_⟩
  · exact h.readUnit_eq (hcells ▸ List.mem_cons_self)
  · exact h.readUnit_eq (hcells ▸ List.getLastD_mem_cons)

variable (new) in
include h hfresh hlive hstored in
/-- `qlist_append` puts the unit where the sequence model places it, and gives up
without touching the ring exactly when the sequence model finds no place. -/
theorem Represents.qlistAppend_eq :
    match s.place new with
    | some cells => ∃ node, qlistAppend q new.addr = some (.ok, withNodes q node) ∧
        Linked (withNodes q node) cells
    | none => qlistAppend q new.addr = some (.unknown, q) := by
  have hread : q.readUnit new.addr = some new.unit := by simp [readUnit, hlive, hstored]
  by_cases hzero : s.count = 0
  · obtain ⟨node, hrun, hlinked⟩ :=
      (h.append_at hfresh hlive hstored [] s.cells rfl).1
    have hrun' : listAppendRear q .listHead (.listNode new.addr) = some (withNodes q node) := hrun
    simp only [Sequence.place, hzero, ↓reduceIte]
    exact ⟨node, by simp [qlistAppend, h.elemNum_eq_zero_iff.mpr hzero, hrun'], hlinked⟩
  · have hnum : q.elemNum ≠ 0 := fun h0 => hzero (h.elemNum_eq_zero_iff.mp h0)
    obtain ⟨front, rest, hcells⟩ : ∃ front rest, s.cells = front :: rest := by
      cases hs : s.cells with
      | nil => simp [Sequence.count, hs] at hzero
      | cons front rest => exact ⟨front, rest, rfl⟩
    obtain ⟨hhead, hprev, hnext, hreadFront, hreadTail⟩ := h.read_ends hcells
    rw [Sequence.place, if_neg hzero, qlistAppend, if_neg hnum]
    simp only [hcells, hhead, hprev, hnext, listEntry, hread, hreadFront, hreadTail,
      Option.bind_eq_bind, Option.bind_some, ge_iff_le, UInt32.lt_iff_toNat_lt,
      UInt32.le_iff_toNat_le]
    by_cases hahead : front.weight < new.weight
    · have hahead' : front.unit.data.weight.toNat < new.unit.data.weight.toNat := hahead
      obtain ⟨node, hrun, hlinked⟩ :=
        (h.append_at hfresh hlive hstored [] (front :: rest) hcells).2
      have hrun' : listAppendAhead q (.listNode front.addr) (.listNode new.addr) =
          some (withNodes q node) := hrun
      simp only [if_pos hahead, if_pos hahead', hrun', Option.bind_some]
      exact ⟨node, rfl, hlinked⟩
    · have hahead' : ¬ front.unit.data.weight.toNat < new.unit.data.weight.toNat := hahead
      rw [if_neg hahead, if_neg hahead']
      by_cases hrear : new.weight ≤ (rest.getLastD front).weight
      · have hrear' : new.unit.data.weight.toNat ≤
            (rest.getLastD front).unit.data.weight.toNat := hrear
        obtain ⟨node, hrun, hlinked⟩ := (h.append_at hfresh hlive hstored
          ([] ++ front :: rest) [] (by simpa using hcells)).1
        rw [getLastD_node] at hrun
        rw [if_pos hrear, if_pos hrear', show ListPtr.listNode new.addr = new.node from rfl, hrun]
        exact ⟨node, rfl, hlinked⟩
      · have hrear' : ¬ new.unit.data.weight.toNat ≤
            (rest.getLastD front).unit.data.weight.toNat := hrear
        have hfront : new.weight ≤ front.weight := not_lt.mp hahead
        rw [if_neg hrear, if_neg hrear', h.appendWindow_eq hcells hread]
        exact h.appendInWindow_eq hfresh hlive hstored
          (hcells.trans (Sequence.window_append rest s.tmp hfront))

end Append

/-! ## The calls -/

/-- A prepared unit does not disturb the sequence. -/
theorem Represents.newUnit (h : Represents q s) {a : Addr} (hfresh : a ∉ q.live)
    (anchorage : UInt32) (data : QlistUnitData) :
    Represents (QList.newUnit q a anchorage data) s := by
  have hne : ∀ c ∈ s.cells, c.addr ≠ a := fun c hc heq => hfresh (heq ▸ h.live c hc)
  have hout : ∀ p ∈ ListPtr.listHead :: s.cells.map Cell.node, p ≠ .listNode a := by
    intro p hp
    rcases List.mem_cons.mp hp with rfl | hp
    · exact nofun
    · obtain ⟨c, hc, rfl⟩ := List.mem_map.mp hp
      exact fun heq => hne c hc (ListPtr.listNode.inj heq)
  have hnode : ∀ p, p ≠ .listNode a → (QList.newUnit q a anchorage data).node p = q.node p :=
    fun p hp => Function.update_of_ne hp _ _
  refine ⟨⟨⟨h.ring.path.congr ?_ ?_, h.ring.nodup⟩, ?_, ?_⟩, h.count, h.tmp, h.cached⟩
  · exact fun p hp => congrArg ListNode.next (hnode p (hout p hp))
  · intro p hp
    have hp' : p ∈ ListPtr.listHead :: s.cells.map Cell.node := by
      simpa [or_comm] using hp
    exact congrArg ListNode.prev (hnode p (hout p hp'))
  · exact fun c hc => Finset.mem_insert_of_mem (h.live c hc)
  · exact fun c hc => (Function.update_of_ne (hne c hc) _ _).trans (h.stored c hc)

theorem Sequence.map_addr_refresh (a : Addr) (data : QlistUnitData) (cells : List Cell) :
    (refresh a data cells).map Cell.addr = cells.map Cell.addr := by
  rw [refresh, List.map_map]
  exact List.map_congr_left fun c _ => by by_cases hc : c.addr = a <;> simp [hc]

theorem Sequence.map_node_refresh (a : Addr) (data : QlistUnitData) (cells : List Cell) :
    (refresh a data cells).map Cell.node = cells.map Cell.node := by
  rw [refresh, List.map_map]
  exact List.map_congr_left fun c _ => by by_cases hc : c.addr = a <;> simp [hc, Cell.node]

/-- The refresh of the unit a lookup found. -/
theorem Represents.refresh (h : Represents q s) (hc : c ∈ s.cells) (data : QlistUnitData) :
    Represents
      { q with
        tmpUnit := some c.addr
        unit := Function.update q.unit c.addr { c.unit with data := data } }
      ⟨Sequence.refresh c.addr data s.cells, some c.addr⟩ := by
  refine ⟨⟨?_, ?_, ?_⟩, ?_, rfl, ?_⟩
  · show LinkedRing q.next q.prev .listHead _
    rw [Sequence.map_node_refresh]
    exact h.ring
  · intro d hd
    have hmem : d.addr ∈ s.cells.map Cell.addr := by
      rw [← Sequence.map_addr_refresh c.addr data s.cells]
      exact List.mem_map_of_mem hd
    obtain ⟨e, he, heq⟩ := List.mem_map.mp hmem
    exact heq ▸ h.live e he
  · intro d hd
    obtain ⟨e, he, rfl⟩ := List.mem_map.mp hd
    by_cases hea : e.addr = c.addr
    · obtain rfl : e = c := h.eq_of_addr he hc hea
      simp
    · simp [hea, h.stored e he]
  · simpa [Sequence.refresh] using h.count
  · intro t ht
    obtain rfl : c.addr = t := by simpa using ht
    exact ⟨_, List.mem_map.mpr ⟨c, hc, rfl⟩, by simp⟩

/-- The removal of the unit a lookup found. -/
theorem Represents.subtract (h : Represents q s) (hc : c ∈ s.cells) :
    ∃ node, listSubtract { q with tmpUnit := some c.addr } (.listNode c.addr) =
        some (withNodes { q with tmpUnit := some c.addr } node) ∧
      Represents
        { withNodes { q with tmpUnit := none } node with
          elemNum := q.elemNum - 1
          live := q.live.erase c.addr }
        ⟨s.cells.filter (·.addr ≠ c.addr), none⟩ := by
  obtain ⟨front, back, hcells⟩ := List.append_of_mem hc
  have hnodup := h.addr_injOn
  have hlinked : Linked { q with tmpUnit := some c.addr } (front ++ c :: back) :=
    hcells ▸ ⟨h.ring, h.live, h.stored⟩
  obtain ⟨node, hrun, hlinked'⟩ := hlinked.subtract
  have hne : ∀ d ∈ front ++ back, d.addr ≠ c.addr := by
    intro d hd heq
    rw [hcells, List.map_append, List.map_cons] at hnodup
    have := (List.nodup_cons.mp (List.nodup_middle.mp hnodup)).1
    exact this (by rw [← List.map_append, ← heq]; exact List.mem_map_of_mem hd)
  have hfilter : s.cells.filter (·.addr ≠ c.addr) = front ++ back := by
    rw [hcells, List.filter_append, List.filter_cons_of_neg (by simp), ← List.filter_append]
    exact List.filter_eq_self.mpr fun d hd => by simpa using hne d hd
  refine ⟨node, hrun, ⟨?_, ?_, rfl, nofun⟩⟩
  · rw [hfilter]
    exact ⟨hlinked'.ring,
      fun d hd => Finset.mem_erase.mpr ⟨hne d hd, hlinked'.live d hd⟩, hlinked'.stored⟩
  · have hlen : s.cells.length = (front ++ back).length + 1 := by
      rw [hcells]; simp [Nat.add_assoc]
    show q.elemNum - 1 = UInt32.ofNat (s.cells.filter (·.addr ≠ c.addr)).length
    rw [hfilter, h.count, hlen]
    simp

/-- The placement of a prepared unit. -/
theorem Represents.insert (h : Represents q s) {cells' : List Cell}
    (hplace : s.place new = some cells') {node : ListPtr → ListNode}
    (hlinked : Linked (withNodes q node) cells') :
    Represents { withNodes q node with elemNum := q.elemNum + 1 } ⟨cells', s.tmp⟩ := by
  obtain ⟨front, back, hcells, rfl⟩ := Sequence.exists_of_place_eq_some hplace
  refine ⟨⟨hlinked.ring, hlinked.live, hlinked.stored⟩, ?_, h.tmp, ?_⟩
  · show q.elemNum + 1 = UInt32.ofNat (front ++ new :: back).length
    rw [h.count, hcells]
    simp [← Nat.add_assoc]
  · intro t ht
    obtain ⟨c, hc, haddr⟩ := h.cached t ht
    rw [hcells] at hc
    exact ⟨c, by simp at hc ⊢; tauto, haddr⟩

/-- A call for a user who is queued stores the data in his unit. -/
theorem Represents.call_refresh (h : Represents q s) {c : Cell} {anchorage : UInt32}
    (hlookup : s.lookup anchorage = some c) (data : QlistUnitData) (mem : Option Addr) :
    ∃ q', QList.call q (.appendUpdate anchorage data mem) =
        some ((s.call (.appendUpdate anchorage data mem)).1, q') ∧
      Represents q' (s.call (.appendUpdate anchorage data mem)).2 := by
  obtain ⟨hc, -⟩ := Sequence.mem_of_lookup hlookup
  have hread : readUnit { q with tmpUnit := some c.addr } c.addr = some c.unit :=
    h.readUnit_eq hc
  refine ⟨_, ?_, by simpa [Sequence.call, hlookup] using h.refresh hc data⟩
  simp [QList.call, qlistAppendUpdate, h.qlistSearch_eq, hlookup, hread, Sequence.call]

/-- A call for a user who is not queued places a new unit, or keeps it aside if there is no
place. -/
theorem Represents.call_append (h : Represents q s) {anchorage : UInt32} {a : Addr}
    (hlookup : s.lookup anchorage = none) (hfresh : a ∉ q.live) (data : QlistUnitData) :
    ∃ q', QList.call q (.appendUpdate anchorage data (some a)) =
        some ((s.call (.appendUpdate anchorage data (some a))).1, q') ∧
      Represents q' (s.call (.appendUpdate anchorage data (some a))).2 := by
  have hnew := h.newUnit hfresh anchorage data
  have hspec := hnew.qlistAppend_eq ⟨a, ⟨anchorage, data⟩⟩
    (fun hmem => by
      obtain ⟨c, hc, rfl⟩ := List.mem_map.mp hmem
      exact hfresh (h.live c hc))
    (Finset.mem_insert_self _ _) (Function.update_self _ _ _)
  cases hplace : s.place ⟨a, ⟨anchorage, data⟩⟩ with
  | some cells =>
      rw [hplace] at hspec
      obtain ⟨node, hrun, hlinked⟩ := hspec
      have hrun' : qlistAppend (QList.newUnit q a anchorage data) a = _ := hrun
      refine ⟨_, ?_, by simpa [Sequence.call, hlookup, hplace] using hnew.insert hplace hlinked⟩
      simp [QList.call, qlistAppendUpdate, h.qlistSearch_eq, hlookup, hrun', Sequence.call,
        hplace]
      rfl
  | none =>
      rw [hplace] at hspec
      have hrun : qlistAppend (QList.newUnit q a anchorage data) a = _ := hspec
      refine ⟨_, ?_, by simpa [Sequence.call, hlookup, hplace] using hnew⟩
      simp [QList.call, qlistAppendUpdate, h.qlistSearch_eq, hlookup, hrun, Sequence.call,
        hplace]

theorem Represents.call_subtract (h : Represents q s) (anchorage : UInt32) :
    ∃ q', QList.call q (.subtract anchorage) =
        some ((s.call (.subtract anchorage)).1, q') ∧
      Represents q' (s.call (.subtract anchorage)).2 := by
  cases hlookup : s.lookup anchorage with
  | none =>
      refine ⟨q, ?_, by simpa [Sequence.call, hlookup] using h⟩
      simp [QList.call, qlistSubtract, h.qlistSearch_eq, hlookup, Sequence.call]
  | some c =>
      obtain ⟨hc, -⟩ := Sequence.mem_of_lookup hlookup
      obtain ⟨node, hrun, hrep⟩ := h.subtract hc
      refine ⟨_, ?_, by simpa [Sequence.call, hlookup] using hrep⟩
      simp [QList.call, qlistSubtract, h.qlistSearch_eq, hlookup, hrun, Sequence.call, withNodes]

/-- A search that finds a unit leaves it in `tmp_unit`. -/
theorem Represents.call_existence (h : Represents q s) (anchorage : UInt32) :
    ∃ q', QList.call q (.anchorageExistence anchorage) =
        some ((s.call (.anchorageExistence anchorage)).1, q') ∧
      Represents q' (s.call (.anchorageExistence anchorage)).2 := by
  cases hlookup : s.lookup anchorage with
  | none =>
      refine ⟨q, ?_, by simpa [Sequence.call, hlookup] using h⟩
      simp [QList.call, qlistAnchorageExistence, h.qlistSearch_eq, hlookup, Sequence.call]
  | some c =>
      obtain ⟨hc, -⟩ := Sequence.mem_of_lookup hlookup
      refine ⟨{ q with tmpUnit := some c.addr }, ?_, ?_⟩
      · simp [QList.call, qlistAnchorageExistence, h.qlistSearch_eq, hlookup, Sequence.call]
      · simp only [Sequence.call, hlookup]
        exact ⟨⟨h.ring, h.live, h.stored⟩, h.count, rfl, fun t ht =>
          ⟨c, hc, by simpa using ht⟩⟩

/-- Refinement of one call: in a memory that represents a sequence every call
returns what the sequence model answers and leaves a memory that represents the
sequence model's next sequence. -/
theorem Represents.call (h : Represents q s) {call : QlistCall}
    (hmalloc : call.MallocContract q) :
    ∃ q', QList.call q call = some ((s.call call).1, q') ∧ Represents q' (s.call call).2 := by
  cases call with
  | appendUpdate anchorage data mem =>
      cases hlookup : s.lookup anchorage with
      | some c => exact h.call_refresh hlookup data mem
      | none =>
          cases mem with
          | some a => exact h.call_append hlookup hmalloc data
          | none =>
              refine ⟨q, ?_, by simpa [Sequence.call, hlookup] using h⟩
              simp [QList.call, qlistAppendUpdate, h.qlistSearch_eq, hlookup, Sequence.call]
  | subtract anchorage => exact h.call_subtract anchorage
  | anchorageExistence anchorage => exact h.call_existence anchorage

end BliveQueue.QList
