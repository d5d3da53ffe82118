/-
# The heap by itself

The functions on the block, without the queue around them. A removal from an ordered
heap answers the root, restores the order and depends on the used slots alone. For any
comparison whatever, the slots of a heap hold different cells, the elements are those
that were pushed and not yet popped, and a pop returns what a peek shows.
-/

import BliveQueue.PriQueue.Priority

namespace BliveQueue.PriQueue

open BliveQueue.Math BliveQueue.Math.BinaryHeap BliveQueue.Utils BliveQueue.Utils.PriQueue

variable {α : Type} {cb : α → α → Bool} {cell : Addr → Option α} {heap heap' other : InnHeap α}
variable {slot : ℕ → Addr × α} {n : ℕ} {q q' : PriQueueT α} {a : Addr} {x : α}

/-! ## Removal from an ordered heap -/

/-- The slots `1..n` of a heap of size `n` hold different allocated cells. The block may
end behind them. -/
structure HeapArray (cb : α → α → Bool) (cell : Addr → Option α) (heap : InnHeap α) (n : ℕ)
    (slot : ℕ → Addr × α) : Prop where
  size : heap.curSize = n
  cb_eq : heap.elemCompareCb = cb
  room : heap.InBlock n
  holds : Holds cell heap n slot
  distinct : ((elements n slot).map Prod.fst).Nodup

/-- Another block with the same slots `1..n`. -/
structure SameSlots (n : ℕ) (heap other : InnHeap α) : Prop where
  size : other.curSize = heap.curSize
  cb_eq : other.elemCompareCb = heap.elemCompareCb
  room : other.InBlock n
  slots : ∀ i, 1 ≤ i → i ≤ n → other.heapMem i = heap.heapMem i

theorem HeapArray.of_sameSlots (array : HeapArray cb cell heap n slot)
    (same : SameSlots n heap other) : HeapArray cb cell other n slot where
  size := same.size.trans array.size
  cb_eq := same.cb_eq.trans array.cb_eq
  room := same.room
  holds i h1 hn := ⟨(same.slots i h1 hn).trans (array.holds i h1 hn).1, (array.holds i h1 hn).2⟩
  distinct := array.distinct

/-- Two blocks that hold the same array have the same slots. -/
theorem HeapArray.sameSlots (array : HeapArray cb cell heap n slot)
    (array' : HeapArray cb cell other n slot) : SameSlots n heap other where
  size := array'.size.trans array.size.symm
  cb_eq := array'.cb_eq.trans array.cb_eq.symm
  room := array'.room
  slots i h1 hn := (array'.holds i h1 hn).1.trans (array.holds i h1 hn).1.symm

/-- A pop of a heap array answers the root and leaves an array of the other elements. -/
theorem HeapArray.pop (array : HeapArray cb cell heap (n + 1) slot) :
    ∃ heap', heapPop cell heap =
        some (some (slot 1).2, heap', Function.update cell (slot 1).1 none) ∧
      HeapArray cb (Function.update cell (slot 1).1 none) heap' n
        (removeRoot (elemAbove cb) n slot) := by
  obtain ⟨mem, hpop, hheld⟩ :=
    heapPop_eq array.holds array.room array.cb_eq array.size array.distinct
  refine ⟨_, hpop, rfl, array.cb_eq, InBlock.mono array.room (Nat.le_succ n), hheld, ?_⟩
  have distinct := array.distinct
  rw [← cons_elements_removeRoot (elemAbove cb), Multiset.map_cons, Multiset.nodup_cons] at distinct
  exact distinct.2

/-- A pop of an ordered heap answers an element that stands above all others and leaves
an ordered heap of the remaining elements. A block that agrees on the used slots, however
it differs in the others, gives the same. -/
theorem heapPop_of_ordered (le : TotalPreorder fun x y => cb x y = true)
    (array : HeapArray cb cell heap (n + 1) slot)
    (ord : Ordered (fun x y => elemAbove cb x y = true) (n + 1) slot) :
    ∃ heap' cell' slot', heapPop cell heap = some (some (slot 1).2, heap', cell') ∧
      (∀ i, 1 ≤ i → i ≤ n + 1 → cb (slot 1).2 (slot i).2 = true) ∧
      HeapArray cb cell' heap' n slot' ∧
      Ordered (fun x y => elemAbove cb x y = true) n slot' ∧
      slot 1 ::ₘ elements n slot' = elements (n + 1) slot ∧
      ∀ other, SameSlots (n + 1) heap other →
        ∃ other', heapPop cell other = some (some (slot 1).2, other', cell') ∧
          SameSlots n heap' other' := by
  obtain ⟨heap', hpop, array'⟩ := array.pop
  refine ⟨heap', _, removeRoot (elemAbove cb) n slot, hpop, ?_, array', ?_, ?_, ?_⟩
  · exact fun i h1 hi => ord.root (TotalPreorder.elemAbove le) h1 hi
  · exact ordered_removeRoot (TotalPreorder.elemAbove le) ord
  · exact cons_elements_removeRoot _ n slot
  · intro other same
    obtain ⟨other', hpop', array''⟩ := (array.of_sameSlots same).pop
    exact ⟨other', hpop', array'.sameSlots array''⟩

/-- A heap of the numbers 10, 20 and 30 whose block ends behind its last slot. -/
def threeSlots : InnHeap ℕ where
  curSize := 3
  maxSize := 3
  elemCompareCb := smallerFirst
  heapMem := some
  bytes := sizeofInnHeap + 4 * sizeofHeapElement

theorem heapPop_of_three_slots :
    ∃ heap' cell' slot', heapPop (fun a => some (10 * a)) threeSlots =
        some (some 10, heap', cell') ∧
      HeapArray smallerFirst cell' heap' 2 slot' ∧
      Ordered (fun x y => elemAbove smallerFirst x y = true) 2 slot' := by
  have array : HeapArray smallerFirst (fun a => some (10 * a)) threeSlots 3
      fun i => (i, 10 * i) :=
    ⟨rfl, rfl, by decide, fun i _ _ => ⟨rfl, rfl⟩, by decide⟩
  have ord : Ordered (fun x y => elemAbove smallerFirst x y = true) 3 fun i => (i, 10 * i) := by
    intro i h2 hi
    obtain rfl | rfl : i = 2 ∨ i = 3 := by omega
    · rfl
    · rfl
  obtain ⟨heap', cell', slot', hpop, -, array', ord', -⟩ :=
    heapPop_of_ordered smallerFirst_totalPreorder array ord
  exact ⟨heap', cell', slot', hpop, array', ord'⟩

/-! ## Calls -/

/-- The calls of the functions on the heap; `mem` is what `zero_alloc` answers. -/
inductive HeapCall (α : Type)
  | push (data : α) (mem : Option Addr)
  | pop

inductive HeapRet (α : Type)
  | code (code : BliveErrno)
  | data (data : Option α)

/-- `__heap_push` and `__heap_pop` on the heap of the queue. -/
def heapCall (q : PriQueueT α) : HeapCall α → Option (HeapRet α × PriQueueT α)
  | .push data mem => do
    let heap ← q.heap
    let (code, heap, cell) ← heapPush q.cell heap data mem
    some (.code code, { q with heap := some heap, cell := cell })
  | .pop => do
    let heap ← q.heap
    let (data, heap, cell) ← heapPop q.cell heap
    some (.data data, { q with heap := some heap, cell := cell })

/-- A push is made below the capacity, and `malloc` never hands out a cell that is still
allocated. -/
def HeapCall.Contract (q : PriQueueT α) : HeapCall α → Prop
  | .push _ none => q.size < q.capacity
  | .push _ (some a) => q.size < q.capacity ∧ q.cell a = none
  | .pop => True

instance (q : PriQueueT α) : (c : HeapCall α) → Decidable (c.Contract q)
  | .push _ none => inferInstanceAs (Decidable (_ < _))
  | .push _ (some a) => inferInstanceAs (Decidable (_ ∧ q.cell a = none))
  | .pop => inferInstanceAs (Decidable True)

/-- The heap of a new queue under arbitrary sequences of calls. -/
def heapSystem (cb : α → α → Bool) : System (PriQueueT α) (HeapCall α × HeapRet α) where
  init q := ∃ (initialSize : ℤ) (sizeAdaption : Bool), 0 < initialSize ∧ initialSize < 2 ^ 31 ∧
    priQueueCreate initialSize sizeAdaption cb true true = some (some q)
  step q label q' := label.1.Contract q ∧ heapCall q label.1 = some (label.2, q')

/-- What a call adds to the heap. -/
def pushedBy : HeapCall α × HeapRet α → Multiset α
  | (.push data _, .code .ok) => {data}
  | _ => 0

/-- What a call takes out of the heap. -/
def poppedBy : HeapCall α × HeapRet α → Multiset α
  | (.pop, .data (some data)) => {data}
  | _ => 0

def pushed (history : List (HeapCall α × HeapRet α)) : Multiset α := (history.map pushedBy).sum

def popped (history : List (HeapCall α × HeapRet α)) : Multiset α := (history.map poppedBy).sum

/-- The slots `1..cur_size` hold different cells with data. -/
def DistinctCells (q : PriQueueT α) : Prop :=
  ∃ heap, q.heap = some heap ∧
    (∀ i, 1 ≤ i → i ≤ heap.curSize → ∃ a x, heap.heapMem i = some a ∧ q.cell a = some x) ∧
    ∀ i j, 1 ≤ i → i ≤ heap.curSize → 1 ≤ j → j ≤ heap.curSize →
      heap.heapMem i = heap.heapMem j → i = j

/-- What `__heap_peek` shows: the data of the cell that slot 1 points to, if it is
allocated. -/
def Shows (q : PriQueueT α) (data : Option α) : Prop :=
  ∃ heap p, q.heap = some heap ∧ heapPeek heap = some p ∧ data = p.bind q.cell

/-- The queue stores an array that owns all the allocated cells. So the pointer that stays in
slot 1 of an emptied heap points to no data. -/
def Owns (cb : α → α → Bool) (q : PriQueueT α) : Prop :=
  ∃ heap slot, Stores cb q heap slot ∧
    ∀ a, q.cell a ≠ none → a ∈ (elements heap.curSize slot).map Prod.fst

theorem Stores.distinctCells (st : Stores cb q heap slot) : DistinctCells q := by
  refine ⟨heap, st.heap_eq, fun i h1 hi => ⟨_, _, st.holds i h1 hi⟩, ?_⟩
  intro i j hi1 hi hj1 hj heq
  rw [(st.holds i hi1 hi).1, (st.holds j hj1 hj).1] at heq
  have distinct := st.distinct
  rw [elements, Multiset.map_map] at distinct
  exact Multiset.inj_on_of_nodup_map distinct i (Finset.mem_Icc.mpr ⟨hi1, hi⟩) j
    (Finset.mem_Icc.mpr ⟨hj1, hj⟩) (Option.some.inj heq)

/-- What a call answers and does to the contents. -/
def Answered (cb : α → α → Bool) (q : PriQueueT α) (c : HeapCall α) : Prop :=
  ∃ ret q', heapCall q c = some (ret, q') ∧ Owns cb q' ∧
    q'.contents + poppedBy (c, ret) = q.contents + pushedBy (c, ret) ∧
    (c = .pop → ∃ data, ret = .data data ∧ Shows q data)

/-- After a push the array owns all cells. -/
theorem owned_pushed (above : Addr × α → Addr × α → Bool)
    (owned : ∀ b, cell b ≠ none → b ∈ (elements n slot).map Prod.fst) (b : Addr)
    (hb : Function.update cell a (some x) b ≠ none) :
    b ∈ (elements (n + 1)
      (rise above (Function.update slot (n + 1) (a, x)) (n + 1))).map Prod.fst := by
  rw [elements_pushed, Multiset.map_cons, Multiset.mem_cons]
  rcases eq_or_ne b a with rfl | hne
  · exact Or.inl rfl
  · rw [Function.update_of_ne hne] at hb
    exact Or.inr (owned b hb)

/-- After a pop the array owns all cells that are left. -/
theorem owned_popped (above : Addr × α → Addr × α → Bool)
    (owned : ∀ b, cell b ≠ none → b ∈ (elements (n + 1) slot).map Prod.fst) (b : Addr)
    (hb : Function.update cell (slot 1).1 none b ≠ none) :
    b ∈ (elements n (removeRoot above n slot)).map Prod.fst := by
  have hne : b ≠ (slot 1).1 := by
    rintro rfl
    exact hb (Function.update_self _ _ _)
  rw [Function.update_of_ne hne] at hb
  have hmem := owned b hb
  rw [← cons_elements_removeRoot above, Multiset.map_cons, Multiset.mem_cons] at hmem
  exact hmem.resolve_left hne

theorem Stores.refused (st : Stores cb q heap slot) (hbelow : heap.curSize < heap.maxSize)
    (owned : ∀ a, q.cell a ≠ none → a ∈ (elements heap.curSize slot).map Prod.fst) :
    Answered cb q (.push x none) := by
  refine ⟨.code .outOfMem, q, ?_, ⟨heap, slot, st, owned⟩, rfl, nofun⟩
  simp only [heapCall, st.heap_eq, heapPush_outOfMem hbelow, Option.bind_eq_bind,
    Option.bind_some]
  rw [← st.heap_eq]

theorem Stores.accepted (st : Stores cb q heap slot) (hbelow : heap.curSize < heap.maxSize)
    (hfresh : q.cell a = none)
    (owned : ∀ a, q.cell a ≠ none → a ∈ (elements heap.curSize slot).map Prod.fst) :
    Answered cb q (.push x (some a)) := by
  obtain ⟨heap', cell', hpush, ⟨mem, rfl⟩, hcell, hstores⟩ := st.of_heapPush hbelow hfresh (x := x)
  refine ⟨.code .ok, ⟨q.adaption, some _, cell'⟩, ?_, ⟨_, _, hstores, fun b hb => ?_⟩, ?_, nofun⟩
  · simp only [heapCall, st.heap_eq, hpush, Option.bind_eq_bind, Option.bind_some]
  · change cell' b ≠ none at hb
    exact owned_pushed (elemAbove cb) owned b (hcell ▸ hb)
  · show PriQueueT.contents _ + 0 = q.contents + {x}
    rw [st.contents_pushed hstores, add_zero, Multiset.add_comm, Multiset.singleton_add]

/-- The pointer that an emptied heap keeps in slot 1 shows nothing. -/
theorem Stores.drained (st : Stores cb q heap slot) (hsize : heap.curSize = 0)
    (owned : ∀ a, q.cell a ≠ none → a ∈ (elements heap.curSize slot).map Prod.fst) :
    Answered cb q .pop := by
  have hnone : heapPop q.cell heap = some (none, heap, q.cell) := if_pos (Or.inl hsize)
  have hread := readSlot_eq heap st.room st.pos
  have hempty : ∀ a, q.cell a = none := by
    intro a
    by_contra hcell
    have hmem := owned a hcell
    rw [hsize] at hmem
    exact absurd hmem (Multiset.notMem_zero a)
  have hshown : none = (heap.heapMem 1).bind q.cell := by
    cases heap.heapMem 1 with
    | none => rfl
    | some a => exact (hempty a).symm
  refine ⟨.data none, q, ?_, ⟨heap, slot, st, owned⟩, rfl, fun _ =>
    ⟨none, rfl, heap, _, st.heap_eq, hread, hshown⟩⟩
  simp only [heapCall, st.heap_eq, hnone, Option.bind_eq_bind, Option.bind_some]
  rw [← st.heap_eq]

theorem Stores.served (st : Stores cb q heap slot) (hsize : heap.curSize = n + 1)
    (owned : ∀ a, q.cell a ≠ none → a ∈ (elements heap.curSize slot).map Prod.fst) :
    Answered cb q .pop := by
  obtain ⟨heap', cell', hpop, ⟨mem, rfl⟩, hcell, hstores⟩ := st.of_heapPop hsize
  have hroot := st.holds 1 le_rfl (by omega)
  have hread := st.holds.readSlot_eq (InBlock.mono st.room st.fits) le_rfl (by omega)
  refine ⟨.data (some (slot 1).2), ⟨q.adaption, some _, cell'⟩, ?_,
    ⟨_, _, hstores, fun b hb => ?_⟩, ?_, fun _ =>
      ⟨_, rfl, heap, _, st.heap_eq, hread, hroot.2.symm⟩⟩
  · simp only [heapCall, st.heap_eq, hpop, Option.bind_eq_bind, Option.bind_some]
  · change cell' b ≠ none at hb
    exact owned_popped (elemAbove cb) (hsize ▸ owned) b (hcell ▸ hb)
  · show PriQueueT.contents _ + {(slot 1).2} = q.contents + 0
    rw [← st.contents_popped hsize hstores, add_zero, Multiset.add_comm, Multiset.singleton_add]

/-- Every call within the contract returns. -/
theorem Owns.answered (owns : Owns cb q) {c : HeapCall α} (hcontract : c.Contract q) :
    Answered cb q c := by
  obtain ⟨heap, slot, st, owned⟩ := owns
  cases c with
  | push x mem =>
      have hsize := st.size_eq
      have hcapacity := st.capacity_eq
      cases mem with
      | none => exact st.refused (hsize ▸ hcapacity ▸ hcontract) owned
      | some a => exact st.accepted (hsize ▸ hcapacity ▸ hcontract.1) hcontract.2 owned
  | pop =>
      cases hsize : heap.curSize with
      | zero => exact st.drained hsize owned
      | succ n => exact st.served hsize owned

/-! ## Runs -/

theorem owns_newQueue [Nonempty α] {initialSize : ℤ} (hpos : 0 < initialSize)
    (hint : initialSize < 2 ^ 31) (sizeAdaption : Bool) :
    Owns cb (newQueue cb initialSize sizeAdaption) := by
  obtain ⟨heap, slot, hstores, hsize⟩ := exists_stores_newQueue cb hpos hint sizeAdaption
  exact ⟨heap, slot, hstores, fun a ha => absurd rfl ha⟩

/-- In every run the heap owns its cells, and its contents and what was popped are what was
pushed. -/
theorem Run.owns [Nonempty α] {history : List (HeapCall α × HeapRet α)}
    (run : (heapSystem cb).Trace history q) :
    Owns cb q ∧ q.contents + popped history = pushed history := by
  apply run.invariant
    (I := fun history q => Owns cb q ∧ q.contents + popped history = pushed history)
  · rintro q ⟨initialSize, sizeAdaption, hpos, hint, hcreate⟩
    rw [priQueueCreate_eq hpos] at hcreate
    obtain rfl := Option.some.inj (Option.some.inj hcreate)
    exact ⟨owns_newQueue hpos hint sizeAdaption, rfl⟩
  · rintro history q ⟨c, ret⟩ q' - ⟨howns, hbalance⟩ - ⟨hcontract, hcall⟩
    obtain ⟨ret', q'', hcall', howns', hchange, -⟩ := howns.answered hcontract
    obtain ⟨rfl, rfl⟩ := Prod.mk.inj (Option.some.inj (hcall.symm.trans hcall'))
    refine ⟨howns', ?_⟩
    simp only [popped, pushed, List.map_append, List.map_cons, List.map_nil, List.sum_append,
      List.sum_singleton] at hbalance ⊢
    rw [← hbalance, add_comm (List.sum _), ← add_assoc, hchange]
    exact add_right_comm _ _ _

/-- Whatever the comparison answers, the slots hold different cells, the contents are what
was pushed without what was popped, every call within the contract returns, and a pop
returns what a peek shows. -/
theorem heap_conserves [Nonempty α] {history : List (HeapCall α × HeapRet α)}
    (run : (heapSystem cb).Trace history q) :
    DistinctCells q ∧ q.contents + popped history = pushed history ∧
      ∀ c : HeapCall α, c.Contract q → ∃ ret q', heapCall q c = some (ret, q') ∧
        (c = .pop → ∃ data, ret = .data data ∧ Shows q data) := by
  obtain ⟨howns, hbalance⟩ := Run.owns run
  have ⟨heap, slot, hstores, _⟩ := howns
  refine ⟨hstores.distinctCells, hbalance, fun c hcontract => ?_⟩
  obtain ⟨ret, q', hcall, -, -, hshown⟩ := howns.answered hcontract
  exact ⟨ret, q', hcall, hshown⟩

/-- A test passed by an execution of the heap is passed at the end of a run. -/
theorem exists_heap_run (hinit : (heapSystem cb).init q) (calls : List (HeapCall α))
    (test : List (HeapCall α × HeapRet α) × PriQueueT α → Bool)
    (h : (System.execute (System.callNext HeapCall.Contract heapCall System.anyStep) q calls).any
      test = true) :
    ∃ history q', (heapSystem cb).Trace history q' ∧ test (history, q') = true :=
  System.Run.exists_of_execute System.callNext_sound hinit _ _ h

/-- A comparison that is no order: three pushes and a pop. -/
theorem heap_conserves_of_no_order :
    ∃ history q, (heapSystem fun _ _ : ℕ => false).Trace history q ∧
      pushed history = {10, 20, 30} ∧ popped history = {30} ∧
      DistinctCells q ∧ q.contents + popped history = pushed history := by
  have hinit : (heapSystem fun _ _ : ℕ => false).init (newQueue _ 8 false) :=
    ⟨8, false, by decide, by decide, priQueueCreate_eq (by decide) false⟩
  obtain ⟨history, q, run, htest⟩ := exists_heap_run hinit
    [.push 10 (some 1), .push 20 (some 2), .push 30 (some 3), .pop]
    (fun r => pushed r.1 = {10, 20, 30} ∧ popped r.1 = {30}) (by decide +kernel)
  obtain ⟨hpushed, hpopped⟩ := of_decide_eq_true htest
  obtain ⟨hdistinct, hbalance, -⟩ := heap_conserves run
  exact ⟨history, q, run, hpushed, hpopped, hdistinct, hbalance⟩

end BliveQueue.PriQueue
