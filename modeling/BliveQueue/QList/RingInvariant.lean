/-
# The representation invariant of the ring

In every run in which the counter does not wrap, the pointers from `list_head`
form one ring of allocated units with distinct anchorages, `elem_num` counts
them and the remembered unit is one of them. A traversal therefore shows the
units of the ring in order, backwards in the reverse order, and a callback that
stops it has been shown exactly the units up to that point.
-/

import BliveQueue.QList.Capacity

namespace BliveQueue.QList

open BliveQueue.Math BliveQueue.Utils BliveQueue.Utils.QList

variable {q : BliveQlist} {s : Sequence}

/-- The anchorage and data stored at an address. -/
def pairAt (q : BliveQlist) (a : Addr) : Pair := ((q.unit a).anchorage, (q.unit a).data)

/-- The order in which a traversal visits a list. -/
def inDirection {α : Type*} (invertSeq : Bool) (l : List α) : List α :=
  if invertSeq then l.reverse else l

/-- The ring of the queue consists of the units at `units`, front first. -/
structure RingOf (q : BliveQlist) (units : List Addr) : Prop where
  /-- One cycle through `list_head`, `prev` and `next` inverse to each other. -/
  ring : LinkedRing q.next q.prev .listHead (units.map ListPtr.listNode)
  /-- No unit of the ring has been freed. -/
  live : ∀ a ∈ units, a ∈ q.live
  /-- The counter counts the units. -/
  count : units.length = q.elemNum.toNat
  distinct : (units.map fun a => (q.unit a).anchorage).Nodup
  /-- The remembered unit is in the ring. -/
  tmp : ∀ t ∈ q.tmpUnit, t ∈ units
  /-- A traversal shows the units in its direction. -/
  visits : ∀ invertSeq,
    traversal q invertSeq = some (inDirection invertSeq (units.map (pairAt q)))
  /-- A callback that stops at the unit number `k + 1` has been shown the first
  `k + 1` units. -/
  stops : ∀ invertSeq (answer : List Pair → Bool) (k : ℕ), k < units.length →
    (∀ j, 0 < j → j ≤ k →
      answer ((inDirection invertSeq (units.map (pairAt q))).take j) = true) →
    answer ((inDirection invertSeq (units.map (pairAt q))).take (k + 1)) = false →
    qlistForeach q invertSeq (recorder answer) [] =
      some (.terminate, (inDirection invertSeq (units.map (pairAt q))).take (k + 1))

/-- A recorder that first answers `False` at the unit number `k + 1` stops there. -/
theorem feed_recorder_take {answer : List Pair → Bool} {pairs : List Pair} {k : ℕ}
    (hk : k < pairs.length) (hgo : ∀ j, 0 < j → j ≤ k → answer (pairs.take j) = true)
    (hstop : answer (pairs.take (k + 1)) = false) :
    feed (recorder answer) pairs [] = (.terminate, pairs.take (k + 1)) := by
  have hsplit : pairs = pairs.take k ++ pairs[k] :: pairs.drop (k + 1) := by
    rw [List.cons_getElem_drop_succ, List.take_append_drop]
  have htake : pairs.take (k + 1) = pairs.take k ++ [pairs[k]] := by
    rw [List.take_append_getElem]
  rw [htake] at hstop ⊢
  have hfeed : feed (recorder answer) (pairs.take k ++ pairs[k] :: pairs.drop (k + 1)) [] =
      (.terminate, [] ++ (pairs.take k ++ [pairs[k]])) := by
    refine feed_recorder (fun l hl hne => ?_) hstop
    have hlen : l.length ≤ k := hl.length_le.trans (List.length_take_le _ _)
    have hl' : l = pairs.take l.length :=
      List.prefix_iff_eq_take.mp (hl.trans (List.take_prefix _ _))
    rw [List.nil_append, hl']
    exact hgo _ (List.length_pos_iff.mpr hne) hlen
  rw [← hsplit] at hfeed
  exact hfeed

/-- A sound sequence is the ring of its units. -/
theorem Represents.ringOf (h : Represents q s) (hs : s.Sound) :
    RingOf q (s.cells.map Cell.addr) := by
  have hpairs : (s.cells.map Cell.addr).map (pairAt q) = s.line := by
    rw [List.map_map, Sequence.line]
    exact List.map_congr_left fun c hc => by simp [pairAt, h.stored c hc, Cell.pair]
  have hvisits : ∀ invertSeq, ((s.directed invertSeq).take s.count).map Cell.pair =
      inDirection invertSeq s.line := by
    intro invertSeq
    rw [hs.count_eq]
    cases invertSeq <;> simp [Sequence.directed, inDirection, Sequence.line, List.take_of_length_le]
  refine ⟨?_, ?_, ?_, ?_, ?_, ?_, ?_⟩
  · rw [List.map_map]
    exact h.ring
  · exact List.forall_mem_map.mpr h.live
  · rw [List.length_map, h.elemNum_eq_length hs]
  · have hfst : (s.cells.map Cell.addr).map (fun a => (q.unit a).anchorage) =
        s.line.map Prod.fst := by
      rw [← hpairs, List.map_map (f := pairAt q)]
      rfl
    exact hfst ▸ hs.distinct
  · intro t ht
    obtain ⟨c, hc, rfl⟩ := h.cached t (h.tmp.symm.trans ht)
    exact List.mem_map_of_mem hc
  · intro invertSeq
    rw [h.traversal_eq, hvisits, hpairs]
  · intro invertSeq answer k hk hgo hstop
    rw [hpairs] at hgo hstop ⊢
    have hcells : k < s.cells.length := by simpa using hk
    have hk' : k < (inDirection invertSeq s.line).length := by
      cases invertSeq <;> simpa [inDirection, Sequence.line] using hcells
    have hcount : s.count ≠ 0 := by
      rw [hs.count_eq]
      exact Nat.ne_of_gt (Nat.zero_lt_of_lt hcells)
    rw [h.qlistForeach_eq, if_neg hcount, hvisits, feed_recorder_take hk' hgo hstop]

/-- The representation invariant, as long as the counter does not wrap. -/
theorem ring_invariant {history : List (QlistCall × QlistRet)}
    (run : qlistSystem.Run HasRoom history q) : ∃ units, RingOf q units := by
  obtain ⟨s, h, hs⟩ := exists_sound (fun _ _ hroom => hroom) run
  exact ⟨_, h.ringOf hs⟩

/-- The ring behind two joins and a removal. -/
theorem ring_invariant_after_removal :
    ∃ history q, qlistSystem.Run HasRoom history q ∧ q.elemNum = 1 ∧ q.live = {1} ∧
      ∃ units, RingOf q units := by
  obtain ⟨history, q, run, htest⟩ := exists_run HasRoom
    [.appendUpdate 1 QlistUnitData.zero (some 0), .appendUpdate 2 QlistUnitData.zero (some 1),
      .subtract 1]
    (fun r => r.2.elemNum = 1 ∧ r.2.live = {1}) (by decide +kernel)
  obtain ⟨hnum, hlive⟩ := of_decide_eq_true htest
  exact ⟨history, q, run, hnum, hlive, ring_invariant run⟩

/-- Once all anchorages are queued the counter is zero and the ring is not empty. -/
theorem exists_run_without_ring :
    ¬ ∀ history q, qlistSystem.Trace history q → ∃ units, RingOf q units := by
  intro hevery
  obtain ⟨history, q, s, run, h, hnum, hlength, -⟩ := exists_weightless_wrapped
  obtain ⟨units, hring⟩ := hevery _ q run
  have hcount := hring.count
  rw [hnum] at hcount
  obtain rfl : units = [] := List.length_eq_zero_iff.mp hcount
  have hnext : q.next .listHead = .listHead := hring.ring.next_head
  rw [h.ring.next_head] at hnext
  cases hcells : s.cells with
  | nil =>
      rw [hcells] at hlength
      exact absurd hlength (by decide)
  | cons c cells =>
      rw [hcells] at hnext
      simp [Cell.node] at hnext

end BliveQueue.QList
