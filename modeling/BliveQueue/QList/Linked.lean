/-
# Memories that hold a sequence

`Linked` says that the pointers through `list_head` form the ring of a given
sequence of units, that these units are allocated, and that their contents are
the ones listed. `Represents` adds the counter and the remembered unit. The
three list macros are pointer writes on such a memory; each is shown to splice a
unit in or out of the sequence and to leave every other field alone.
-/

import BliveQueue.Math.LinkedRing
import BliveQueue.QList.Sequence

namespace BliveQueue.QList

open BliveQueue.Math BliveQueue.Utils BliveQueue.Utils.QList
open BliveQueue.Utils.QList.BliveQlist

variable {q : BliveQlist} {s : Sequence} {cells front back : List Cell} {c new : Cell}

/-! ## Pointer writes as function updates -/

@[simp]
theorem next_setNext (p v : ListPtr) :
    (q.setNext p v).next = Function.update q.next p v := by
  funext x
  by_cases hx : x = p
  · subst hx; simp [next, setNext]
  · simp [next, setNext, hx]

@[simp]
theorem prev_setPrev (p v : ListPtr) :
    (q.setPrev p v).prev = Function.update q.prev p v := by
  funext x
  by_cases hx : x = p
  · subst hx; simp [prev, setPrev]
  · simp [prev, setPrev, hx]

@[simp]
theorem next_setPrev (p v : ListPtr) : (q.setPrev p v).next = q.next := by
  funext x
  by_cases hx : x = p
  · subst hx; simp [next, setPrev]
  · simp [next, setPrev, hx]

@[simp]
theorem prev_setNext (p v : ListPtr) : (q.setNext p v).prev = q.prev := by
  funext x
  by_cases hx : x = p
  · subst hx; simp [prev, setNext]
  · simp [prev, setNext, hx]

@[simp]
theorem allocated_setNext (p v x : ListPtr) :
    (q.setNext p v).Allocated x ↔ q.Allocated x := by cases x <;> rfl

@[simp]
theorem allocated_setPrev (p v x : ListPtr) :
    (q.setPrev p v).Allocated x ↔ q.Allocated x := by cases x <;> rfl

/-- The memory with its pointers replaced and everything else kept. -/
def withNodes (q : BliveQlist) (node : ListPtr → ListNode) : BliveQlist :=
  { q with node := node }

section Macros

variable {dst src : ListPtr}

/-- `LIST_APPEND_REAR` splices `src` in behind `dst` and changes pointers only. -/
theorem listAppendRear_eq (hdst : q.Allocated dst) (hsrc : q.Allocated src)
    (hnext : q.Allocated (q.next dst)) (hne : dst ≠ src) :
    ∃ node, listAppendRear q dst src = some (withNodes q node) ∧
      (withNodes q node).next =
        Function.update (Function.update q.next src (q.next dst)) dst src ∧
      (withNodes q node).prev =
        Function.update (Function.update q.prev src dst) (q.next dst) src := by
  have hread : ((q.setNext src (q.node dst).next).setPrev src dst).node dst = q.node dst := by
    simp [setNext, setPrev, hne]
  refine ⟨((((q.setNext src (q.next dst)).setPrev src dst).setPrev (q.next dst) src).setNext
    dst src).node, ?_, ?_, ?_⟩
  · have hnext' : q.Allocated (q.node dst).next := hnext
    simp [listAppendRear, readNode, writeNext, writePrev, hdst, hsrc, hread, hnext']
    rfl
  · show ((((q.setNext src (q.next dst)).setPrev src dst).setPrev (q.next dst) src).setNext
      dst src).next = _
    simp
  · show ((((q.setNext src (q.next dst)).setPrev src dst).setPrev (q.next dst) src).setNext
      dst src).prev = _
    simp

/-- `LIST_APPEND_AHEAD` splices `src` in ahead of `dst`. -/
theorem listAppendAhead_eq (hdst : q.Allocated dst) (hsrc : q.Allocated src)
    (hprev : q.Allocated (q.prev dst)) (hne : dst ≠ src) :
    ∃ node, listAppendAhead q dst src = some (withNodes q node) ∧
      (withNodes q node).next =
        Function.update (Function.update q.next src dst) (q.prev dst) src ∧
      (withNodes q node).prev =
        Function.update (Function.update q.prev src (q.prev dst)) dst src := by
  have hread : ((q.setPrev src (q.node dst).prev).setNext src dst).node dst = q.node dst := by
    simp [setNext, setPrev, hne]
  refine ⟨((((q.setPrev src (q.prev dst)).setNext src dst).setNext (q.prev dst) src).setPrev
    dst src).node, ?_, ?_, ?_⟩
  · have hprev' : q.Allocated (q.node dst).prev := hprev
    simp [listAppendAhead, readNode, writeNext, writePrev, hdst, hsrc, hread, hprev']
    rfl
  · show ((((q.setPrev src (q.prev dst)).setNext src dst).setNext (q.prev dst) src).setPrev
      dst src).next = _
    simp
  · show ((((q.setPrev src (q.prev dst)).setNext src dst).setNext (q.prev dst) src).setPrev
      dst src).prev = _
    simp

/-- `LIST_SUBTRACT` splices `dst` out. -/
theorem listSubtract_eq (hdst : q.Allocated dst) (hprev : q.Allocated (q.prev dst))
    (hnext : q.Allocated (q.next dst)) (hne : q.prev dst ≠ dst) :
    ∃ node, listSubtract q dst = some (withNodes q node) ∧
      (withNodes q node).next = Function.update q.next (q.prev dst) (q.next dst) ∧
      (withNodes q node).prev = Function.update q.prev (q.next dst) (q.prev dst) := by
  have hread : (q.setNext (q.node dst).prev (q.node dst).next).node dst = q.node dst := by
    have : dst ≠ (q.node dst).prev := hne.symm
    simp [setNext, this]
  refine ⟨((q.setNext (q.prev dst) (q.next dst)).setPrev (q.next dst) (q.prev dst)).node,
    ?_, ?_, ?_⟩
  · have hnext' : q.Allocated (q.node dst).next := hnext
    have hprev' : q.Allocated (q.node dst).prev := hprev
    simp [listSubtract, readNode, writeNext, writePrev, hdst, hread, hnext', hprev']
    rfl
  · show ((q.setNext (q.prev dst) (q.next dst)).setPrev (q.next dst) (q.prev dst)).next = _
    simp
  · show ((q.setNext (q.prev dst) (q.next dst)).setPrev (q.next dst) (q.prev dst)).prev = _
    simp

end Macros

/-! ## Memories that hold a sequence -/

/-- The pointers through `list_head` are the ring of `cells`, whose units are
allocated and hold the listed contents. -/
structure Linked (q : BliveQlist) (cells : List Cell) : Prop where
  ring : LinkedRing q.next q.prev .listHead (cells.map Cell.node)
  live : ∀ c ∈ cells, c.addr ∈ q.live
  stored : ∀ c ∈ cells, q.unit c.addr = c.unit

/-- The memory of a whole abstract queue. -/
structure Represents (q : BliveQlist) (s : Sequence) : Prop extends Linked q s.cells where
  count : q.elemNum = UInt32.ofNat s.cells.length
  tmp : q.tmpUnit = s.tmp
  cached : ∀ t, s.tmp = some t → ∃ c ∈ s.cells, c.addr = t

namespace Linked

theorem addr_injOn (h : Linked q cells) : (cells.map Cell.addr).Nodup := by
  have hnodup := (List.nodup_cons.mp h.ring.nodup).2
  have hmap : cells.map Cell.node = (cells.map Cell.addr).map ListPtr.listNode := by
    rw [List.map_map]; rfl
  exact List.Nodup.of_map _ (hmap ▸ hnodup)

theorem eq_of_addr (h : Linked q cells) {c d : Cell} (hc : c ∈ cells) (hd : d ∈ cells)
    (haddr : c.addr = d.addr) : c = d :=
  List.inj_on_of_nodup_map h.addr_injOn hc hd haddr

theorem allocated_getLastD (h : Linked q cells) {front : List Cell} (hsub : front ⊆ cells) :
    q.Allocated ((front.map Cell.node).getLastD .listHead) := by
  rcases List.eq_nil_or_concat front with rfl | ⟨front, c, rfl⟩
  · trivial
  · simpa [Cell.node, Allocated] using h.live c (hsub (by simp))

theorem allocated_headD (h : Linked q cells) {back : List Cell} (hsub : back ⊆ cells) :
    q.Allocated ((back.map Cell.node).headD .listHead) := by
  cases back with
  | nil => trivial
  | cons c back => simpa [Cell.node, Allocated] using h.live c (hsub (by simp))

theorem readUnit_eq (h : Linked q cells) (hc : c ∈ cells) :
    q.readUnit c.addr = some c.unit := by
  simp [readUnit, h.live c hc, h.stored c hc]

/-- A node outside the ring, in the form the splicing rules ask for. -/
theorem fresh_node (hfresh : new.addr ∉ cells.map Cell.addr) :
    new.node ∉ ListPtr.listHead :: cells.map Cell.node := by
  simpa [Cell.node] using hfresh

section Insert

variable (h : Linked q (front ++ back)) (hfresh : new.addr ∉ (front ++ back).map Cell.addr)
  (hlive : new.addr ∈ q.live) (hstored : q.unit new.addr = new.unit)

include h hlive hstored in
private theorem of_ring_insert {node : ListPtr → ListNode}
    (hring : LinkedRing (withNodes q node).next (withNodes q node).prev .listHead
      ((front ++ new :: back).map Cell.node)) :
    Linked (withNodes q node) (front ++ new :: back) where
  ring := hring
  live c hc := by
    rcases (by simpa [or_left_comm] using hc : c = new ∨ c ∈ front ++ back) with rfl | hmem
    · exact hlive
    · exact h.live c hmem
  stored c hc := by
    rcases (by simpa [or_left_comm] using hc : c = new ∨ c ∈ front ++ back) with rfl | hmem
    · exact hstored
    · exact h.stored c hmem

include h hfresh hlive hstored in
/-- Inserting behind the last unit of `front`, or behind `list_head`. -/
theorem appendRear {dst : ListPtr} (hdst : dst = (front.map Cell.node).getLastD .listHead) :
    ∃ node, listAppendRear q dst new.node = some (withNodes q node) ∧
      Linked (withNodes q node) (front ++ new :: back) := by
  have hnode := fresh_node hfresh
  have hring : LinkedRing q.next q.prev .listHead
      (front.map Cell.node ++ back.map Cell.node) := by simpa using h.ring
  have hnext : q.next dst = (back.map Cell.node).headD .listHead := by
    subst hdst
    rcases List.eq_nil_or_concat front with rfl | ⟨front, c, rfl⟩
    · simpa using hring.next_head
    · have hring' : LinkedRing q.next q.prev .listHead
          (front.map Cell.node ++ c.node :: back.map Cell.node) := by simpa using hring
      simpa using hring'.next_node
  have hne : dst ≠ new.node := by
    rintro rfl
    apply hnode
    rw [hdst]
    have := List.getLastD_mem_cons (l := front.map Cell.node) (a := ListPtr.listHead)
    rw [List.map_append]
    rcases List.mem_cons.mp this with heq | hmem
    · exact List.mem_cons.mpr (Or.inl heq)
    · exact List.mem_cons_of_mem _ (List.mem_append_left _ hmem)
  have hsrc : q.Allocated new.node := hlive
  obtain ⟨node, hrun, hn, hp⟩ := listAppendRear_eq
    (hdst ▸ h.allocated_getLastD (List.subset_append_left _ _)) hsrc
    (hnext ▸ h.allocated_headD (List.subset_append_right _ _)) hne
  refine ⟨node, hrun, of_ring_insert h hlive hstored ?_⟩
  rw [hn, hp]
  simpa using hring.insert hdst (by simpa using hnode)

include h hfresh hlive hstored in
/-- Inserting ahead of the first unit of `back`, or ahead of `list_head`. -/
theorem appendAhead {dst : ListPtr} (hdst : dst = (back.map Cell.node).headD .listHead) :
    ∃ node, listAppendAhead q dst new.node = some (withNodes q node) ∧
      Linked (withNodes q node) (front ++ new :: back) := by
  have hnode := fresh_node hfresh
  have hring : LinkedRing q.prev q.next .listHead
      ((back.map Cell.node).reverse ++ (front.map Cell.node).reverse) := by
    simpa using h.ring.reverse
  have hlast : dst = ((back.map Cell.node).reverse).getLastD .listHead := by
    rw [hdst]; cases back <;> simp
  have hprev : q.prev dst = (front.map Cell.node).getLastD .listHead := by
    subst hdst
    cases back with
    | nil => simpa using h.ring.prev_head
    | cons c back =>
        have hring' : LinkedRing q.next q.prev .listHead
            (front.map Cell.node ++ c.node :: back.map Cell.node) := by simpa using h.ring
        simpa using hring'.prev_node
  have hne : dst ≠ new.node := by
    rintro rfl
    apply hnode
    rw [hlast]
    have := List.getLastD_mem_cons (l := (back.map Cell.node).reverse) (a := ListPtr.listHead)
    rcases List.mem_cons.mp this with heq | hmem
    · exact List.mem_cons.mpr (Or.inl heq)
    · rw [List.map_append]
      exact List.mem_cons_of_mem _
        (List.mem_append_right _ (List.mem_reverse.mp hmem))
  have hsrc : q.Allocated new.node := hlive
  obtain ⟨node, hrun, hn, hp⟩ := listAppendAhead_eq
    (hdst ▸ h.allocated_headD (List.subset_append_right _ _)) hsrc
    (hprev ▸ h.allocated_getLastD (List.subset_append_left _ _)) hne
  refine ⟨node, hrun, of_ring_insert h hlive hstored ?_⟩
  rw [hn, hp]
  have hnode' : new.node ∉ ListPtr.listHead ::
      ((back.map Cell.node).reverse ++ (front.map Cell.node).reverse) := by
    simpa [and_comm] using hnode
  simpa using (hring.insert hlast hnode').reverse

end Insert

/-- Unlinking a unit of the ring. -/
theorem subtract (h : Linked q (front ++ c :: back)) :
    ∃ node, listSubtract q c.node = some (withNodes q node) ∧
      Linked (withNodes q node) (front ++ back) := by
  have hring : LinkedRing q.next q.prev .listHead
      (front.map Cell.node ++ c.node :: back.map Cell.node) := by simpa using h.ring
  have hprev := hring.prev_node
  have hnext := hring.next_node
  have hne : q.prev c.node ≠ c.node := by
    rw [hprev]
    intro heq
    have hmem := List.getLastD_mem_cons (l := front.map Cell.node) (a := ListPtr.listHead)
    rw [heq] at hmem
    have hnodup : (ListPtr.listHead :: (front.map Cell.node)).Nodup ∧
        c.node ∉ ListPtr.listHead :: front.map Cell.node := by
      have := hring.nodup
      rw [← List.cons_append, List.nodup_append] at this
      exact ⟨this.1, fun hin => this.2.2 _ hin _ List.mem_cons_self rfl⟩
    exact hnodup.2 hmem
  have hsubF : front ⊆ front ++ c :: back := List.subset_append_left _ _
  have hsubB : back ⊆ front ++ c :: back := fun x hx => by simp [hx]
  have hdst : q.Allocated c.node := h.live c (by simp)
  obtain ⟨node, hrun, hn, hp⟩ := listSubtract_eq hdst (hprev ▸ h.allocated_getLastD hsubF)
    (hnext ▸ h.allocated_headD hsubB) hne
  refine ⟨node, hrun, ?_, ?_, ?_⟩
  · rw [hn, hp]
    simpa using hring.remove
  · exact fun d hd => h.live d (by simp at hd ⊢; tauto)
  · exact fun d hd => h.stored d (by simp at hd ⊢; tauto)

end Linked

end BliveQueue.QList
