/-
# Highest priority first

A pop keeps the heap order for every total preorder. A push keeps it exactly when
the new element belongs at most one level above the slot it starts in, because the
upward loop compares the former parent and not the element. Along the runs whose
pushes are of this kind, peek and pop answer an element that stands above the
whole contents; a run of five pushes on the third level leaves it.
-/

import Mathlib.Data.Multiset.Filter
import BliveQueue.PriQueue.Refinement

namespace BliveQueue.PriQueue

open BliveQueue.Math BliveQueue.Math.BinaryHeap BliveQueue.Utils BliveQueue.Utils.PriQueue

variable {α : Type} {cb : α → α → Bool} {q q' : PriQueueT α} {heap : InnHeap α}
variable {slot : ℕ → Addr × α} {x : α} {a : Addr}

/-- The new element belongs at most one level above the slot it starts in: that slot
is a child of the root, or the parent or the grandparent stands above the element. -/
def RisesOneLevel (cb : α → α → Bool) (q : PriQueueT α) (x : α) : Prop :=
  (q.size + 1) / 2 ≤ 1 ∨ (q.entry ((q.size + 1) / 2)).any (fun p => cb p x) = true ∨
    (q.entry ((q.size + 1) / 4)).any (fun g => cb g x) = true

instance (cb : α → α → Bool) (q : PriQueueT α) (x : α) : Decidable (RisesOneLevel cb q x) :=
  inferInstanceAs (Decidable (_ ∨ _ ∨ _))

/-- Every element that is stored rises at most one level. -/
def StoresInOrder (cb : α → α → Bool) (q : PriQueueT α) : PriQueueCall α → Prop
  | .push (some x) (some _) _ => q.size < q.capacity → RisesOneLevel cb q x
  | _ => True

instance (cb : α → α → Bool) (q : PriQueueT α) : (c : PriQueueCall α) →
    Decidable (StoresInOrder cb q c)
  | .push (some x) (some _) _ => inferInstanceAs (Decidable (_ → RisesOneLevel cb q x))
  | .push (some _) none _ | .push none _ _ | .popTrywait | .peek =>
    inferInstanceAs (Decidable True)

/-- No call exceeds the capacity, and every element that is stored rises at most one
level. -/
def Orderly (cb : α → α → Bool) (q : PriQueueT α)
    (label : PriQueueCall α × BliveErrno × Option α) : Prop :=
  NeverExceeds q label.1 ∧ StoresInOrder cb q label.1

instance (cb : α → α → Bool) (q : PriQueueT α) (label : PriQueueCall α × BliveErrno × Option α) :
    Decidable (Orderly cb q label) := inferInstanceAs (Decidable (_ ∧ _))

/-- The queue stores an ordered heap. -/
def HeapOrder (cb : α → α → Bool) (q : PriQueueT α) : Prop :=
  ∃ heap slot, Stores cb q heap slot ∧
    Ordered (fun x y => elemAbove cb x y = true) heap.curSize slot

theorem Stores.entry_eq (st : Stores cb q heap slot) {i : ℕ} (h1 : 1 ≤ i)
    (hn : i ≤ heap.curSize) : q.entry i = some (slot i).2 := by
  obtain ⟨hslot, hcell⟩ := st.holds i h1 hn
  simp [PriQueueT.entry, st.heap_eq, hslot, hcell]

/-- The condition on the state, on the stored array. -/
theorem Stores.risesOneLevel_iff (st : Stores cb q heap slot) :
    RisesOneLevel cb q x ↔ (heap.curSize + 1) / 2 ≤ 1 ∨
      cb (slot ((heap.curSize + 1) / 2)).2 x = true ∨
      cb (slot ((heap.curSize + 1) / 4)).2 x = true := by
  rw [RisesOneLevel, st.size_eq]
  by_cases hroot : (heap.curSize + 1) / 2 ≤ 1
  · exact iff_of_true (Or.inl hroot) (Or.inl hroot)
  · rw [st.entry_eq (by omega) (by omega), st.entry_eq (by omega) (by omega)]
    simp

/-- A push keeps the heap order exactly when the element rises at most one level. -/
theorem Stores.ordered_push_iff (st : Stores cb q heap slot)
    (le : TotalPreorder fun x y => cb x y = true)
    (ord : Ordered (fun x y => elemAbove cb x y = true) heap.curSize slot) :
    Ordered (fun x y => elemAbove cb x y = true) (heap.curSize + 1)
        (rise (elemAbove cb) (Function.update slot (heap.curSize + 1) (a, x))
          (heap.curSize + 1)) ↔
      RisesOneLevel cb q x := by
  have hwritten : Ordered (fun x y => elemAbove cb x y = true) heap.curSize
      (Function.update slot (heap.curSize + 1) (a, x)) := by
    intro i h2 hi
    rw [Function.update_of_ne (by omega), Function.update_of_ne (by omega)]
    exact ord i h2 hi
  rw [ordered_rise_iff (TotalPreorder.elemAbove le) hwritten, st.risesOneLevel_iff,
    Function.update_self]
  by_cases hroot : (heap.curSize + 1) / 2 ≤ 1
  · exact iff_of_true (Or.inl hroot) (Or.inl hroot)
  · rw [Function.update_of_ne (by omega), Function.update_of_ne (by omega)]
    rfl

/-- An orderly call keeps the heap order. -/
theorem Outcome.heapOrder {c : PriQueueCall α} {code : BliveErrno} {data : Option α}
    (st : Stores cb q heap slot) (le : TotalPreorder fun x y => cb x y = true)
    (ord : Ordered (fun x y => elemAbove cb x y = true) heap.curSize slot)
    (hrises : StoresInOrder cb q c)
    (out : Outcome cb q heap slot c code data q') : HeapOrder cb q' := by
  cases out with
  | pushed below _ stores =>
      rw [← st.size_eq, ← st.capacity_eq] at below
      exact ⟨_, _, stores, (st.ordered_push_iff le ord).mpr (hrises below)⟩
  | popped size _ stores =>
      rw [size] at ord
      exact ⟨_, _, stores, ordered_removeRoot (TotalPreorder.elemAbove le) ord⟩
  | invalid => exact ⟨heap, slot, st, ord⟩
  | refused => exact ⟨heap, slot, st, ord⟩
  | outOfMem => exact ⟨heap, slot, st, ord⟩
  | popEmpty => exact ⟨heap, slot, st, ord⟩
  | peekEmpty => exact ⟨heap, slot, st, ord⟩
  | peeked => exact ⟨heap, slot, st, ord⟩

/-- Every orderly run keeps the heap order. -/
theorem Run.heapOrder [Nonempty α] (le : TotalPreorder fun x y => cb x y = true)
    {history : List (PriQueueCall α × BliveErrno × Option α)}
    (run : (priQueueSystem cb).Run (Orderly cb) history q) : HeapOrder cb q := by
  refine run.invariant (I := fun _ q => HeapOrder cb q) ?_ ?_
  · intro q hinit
    obtain ⟨initialSize, sizeAdaption, hpos, hint, rfl⟩ := exists_eq_newQueue_of_init hinit
    obtain ⟨heap, slot, hstores, hsize⟩ := exists_stores_newQueue cb hpos hint sizeAdaption
    exact ⟨heap, slot, hstores, fun i h2 hi => absurd hi (by omega)⟩
  · rintro history q ⟨c, out⟩ q' - ⟨heap, slot, hstores, hord⟩ ⟨hfits, hrises⟩ ⟨hmalloc, hcall⟩
    exact (hstores.outcome hmalloc hfits hcall).heapOrder hstores le hord hrises

/-- The root of an ordered heap stands above the whole contents. -/
theorem Stores.root_above (st : Stores cb q heap slot)
    (le : TotalPreorder fun x y => cb x y = true)
    (ord : Ordered (fun x y => elemAbove cb x y = true) heap.curSize slot) :
    ∀ x ∈ q.contents, cb (slot 1).2 x = true := by
  intro x hx
  rw [st.contents_eq] at hx
  obtain ⟨e, he, rfl⟩ := Multiset.mem_map.mp hx
  obtain ⟨i, h1, hi, rfl⟩ := mem_elements.mp he
  exact ord.root (TotalPreorder.elemAbove le) h1 hi

/-- Peek and pop on an ordered heap. -/
theorem HeapOrder.serves (hq : HeapOrder cb q) (le : TotalPreorder fun x y => cb x y = true)
    {c : PriQueueCall α} (hserve : c = .peek ∨ c = .popTrywait) :
    (q.contents ≠ 0 → ∃ e q', call q c = some ((.ok, some e), q')) ∧
      ∀ code e q', call q c = some ((code, some e), q') →
        e ∈ q.contents ∧ ∀ x ∈ q.contents, cb e x = true := by
  obtain ⟨heap, slot, hstores, hord⟩ := hq
  have hmalloc : c.MallocContract q := by rcases hserve with rfl | rfl <;> trivial
  have hfits : NeverExceeds q c := by rcases hserve with rfl | rfl <;> trivial
  have hroot : 0 < heap.curSize → (slot 1).2 ∈ q.contents := by
    intro hpos
    rw [hstores.contents_eq]
    exact Multiset.mem_map_of_mem _ (mem_elements.mpr ⟨1, le_rfl, hpos, rfl⟩)
  constructor
  · intro hne
    have hsize : heap.curSize ≠ 0 := by
      intro hzero
      rw [hstores.contents_eq, hzero] at hne
      exact hne rfl
    obtain ⟨code, data, q', hcall, hout⟩ := hstores.exists_outcome hmalloc hfits
    cases hout with
    | popped => exact ⟨_, q', hcall⟩
    | peeked => exact ⟨_, _, hcall⟩
    | popEmpty hempty => exact absurd hempty hsize
    | peekEmpty hempty => exact absurd hempty hsize
    | _ => exact absurd hserve (by simp)
  · intro code e q' hcall
    have hout := hstores.outcome hmalloc hfits hcall
    generalize hdata : ((code, some e) : BliveErrno × Option α).2 = data at hout
    cases hout with
    | popped size =>
        obtain rfl := Option.some.inj hdata
        exact ⟨hroot (by omega), hstores.root_above le hord⟩
    | peeked hpos =>
        obtain rfl := Option.some.inj hdata
        exact ⟨hroot hpos, hstores.root_above le hord⟩
    | _ => exact absurd hdata nofun

/-- In every orderly run peek and pop stay in memory and answer, whenever the queue
is not empty, an element that stands above everything in it. -/
theorem highest_priority_first (le : TotalPreorder fun x y => cb x y = true)
    {history : List (PriQueueCall α × BliveErrno × Option α)}
    (run : (priQueueSystem cb).Run (Orderly cb) history q) {c : PriQueueCall α}
    (hserve : c = .peek ∨ c = .popTrywait) :
    (q.contents ≠ 0 → ∃ e q', call q c = some ((.ok, some e), q')) ∧
      ∀ code e q', call q c = some ((code, some e), q') →
        e ∈ q.contents ∧ ∀ x ∈ q.contents, cb e x = true := by
  constructor
  · intro hne
    have : Nonempty α := ⟨(Multiset.exists_mem_of_ne_zero hne).choose⟩
    exact ((Run.heapOrder le run).serves le hserve).1 hne
  · intro code e q' hcall
    have : Nonempty α := ⟨e⟩
    exact ((Run.heapOrder le run).serves le hserve).2 code e q' hcall

/-- Numbers, the smaller ones first. -/
def smallerFirst (x y : ℕ) : Bool := x ≤ y

theorem smallerFirst_totalPreorder : TotalPreorder fun x y => smallerFirst x y = true where
  refl x := by simp [smallerFirst]
  total x y := by simpa [smallerFirst] using Nat.le_total x y
  trans x y z hxy hyz := by
    simp only [smallerFirst, decide_eq_true_eq] at *
    exact hxy.trans hyz

/-- Push the numbers, in fresh cells. -/
def pushes (xs : List ℕ) : List (PriQueueCall ℕ) :=
  xs.zipIdx.map fun p => .push (some p.1) (some p.2) true

/-- The fourth element, 15, rises from the third level to the second. -/
theorem highest_priority_first_after_pushes :
    ∃ history q, (priQueueSystem smallerFirst).Run (Orderly smallerFirst) history q ∧
      q.contents = {10, 20, 30, 15} ∧
      (q.contents ≠ 0 → ∃ e q', call q .popTrywait = some ((.ok, some e), q')) ∧
      ∀ code e q', call q .popTrywait = some ((code, some e), q') →
        e ∈ q.contents ∧ ∀ x ∈ q.contents, smallerFirst e x = true := by
  obtain ⟨history, q, run, htest⟩ := exists_run smallerFirst (Orderly smallerFirst)
    (show (0 : ℤ) < 8 by decide) (by decide) false (pushes [10, 20, 30, 15])
    (fun r => r.2.contents = {10, 20, 30, 15}) (by decide +kernel)
  exact ⟨history, q, run, of_decide_eq_true htest,
    highest_priority_first smallerFirst_totalPreorder run (Or.inr rfl)⟩

/-- Five pushes on a queue of eight: 5 is pushed last, belongs to the root and rises
one level only, so peek answers 10. -/
theorem exists_run_not_highest_first :
    ∃ (history : List (PriQueueCall ℕ × BliveErrno × Option ℕ)) (q : PriQueueT ℕ),
      TotalPreorder (fun x y => smallerFirst x y = true) ∧
      (priQueueSystem smallerFirst).Run (fun q label => NeverExceeds q label.1) history q ∧
      call q .peek = some ((.ok, some 10), q) ∧ 5 ∈ q.contents ∧ smallerFirst 10 5 = false := by
  obtain ⟨history, q, run, htest⟩ := exists_run smallerFirst (fun q label => NeverExceeds q label.1)
    (show (0 : ℤ) < 8 by decide) (by decide) false (pushes [10, 20, 30, 40, 5])
    (fun r => priQueuePeek r.2 = some (.ok, some 10) ∧ 5 ∈ r.2.contents) (by decide +kernel)
  obtain ⟨hpeek, hmem⟩ := of_decide_eq_true htest
  refine ⟨history, q, smallerFirst_totalPreorder, run, ?_, hmem, rfl⟩
  rw [call, hpeek]
  rfl

end BliveQueue.PriQueue
