/-
# The heap block and its slots

The block of the queue stores an array of elements, each an address with the data
in the cell at that address. On a block that stores an array the source's loops
compute the sifting functions on arrays: they stay in the block, they follow no
null or freed pointer, and they end within the rounds the fuel allows. A push
below capacity and a pop keep the block storing, and the elements of the array
are the contents of the queue.
-/

import BliveQueue.PriQueue.Slots
import BliveQueue.Utils.PriQueue

namespace BliveQueue.PriQueue

open BliveQueue.Math BliveQueue.Math.BinaryHeap BliveQueue.Utils BliveQueue.Utils.PriQueue

variable {α : Type}

/-- The comparison of the queue, on elements with their addresses. -/
def elemAbove (cb : α → α → Bool) (x y : Addr × α) : Bool := cb x.2 y.2

theorem TotalPreorder.elemAbove {cb : α → α → Bool}
    (le : TotalPreorder fun x y => cb x y = true) :
    TotalPreorder fun x y => PriQueue.elemAbove cb x y = true where
  refl x := le.refl x.2
  total x y := le.total x.2 y.2
  trans x y z := le.trans x.2 y.2 z.2

/-- The slots `1..n` point to the elements of the array. -/
def Holds (cell : Addr → Option α) (heap : InnHeap α) (n : ℕ) (slot : ℕ → Addr × α) : Prop :=
  ∀ i, 1 ≤ i → i ≤ n → heap.heapMem i = some (slot i).1 ∧ cell (slot i).1 = some (slot i).2

variable {cell : Addr → Option α} {heap : InnHeap α} {slot : ℕ → Addr × α} {cb : α → α → Bool}
variable {n i j pos fuel : ℕ} {p : Option Addr} {a : Addr} {x : α}

/-! ## Accesses -/

theorem InBlock.mono (room : heap.InBlock n) (hi : i ≤ n) : heap.InBlock i := by
  unfold InnHeap.InBlock at *
  have hsize := Nat.mul_le_mul_right sizeofHeapElement (Nat.succ_le_succ hi)
  exact (Nat.add_le_add_left hsize _).trans room

theorem writeSlot_eq (heap : InnHeap α) (room : heap.InBlock n) (hi : i ≤ n) :
    writeSlot heap i p = some (heap.setSlot i p) := if_pos (InBlock.mono room hi)

theorem readSlot_eq (heap : InnHeap α) (room : heap.InBlock n) (hi : i ≤ n) :
    readSlot heap i = some (heap.heapMem i) := if_pos (InBlock.mono room hi)

theorem Holds.readSlot_eq (holds : Holds cell heap n slot) (room : heap.InBlock n) (h1 : 1 ≤ i)
    (hn : i ≤ n) : readSlot heap i = some (some (slot i).1) := by
  rw [PriQueue.readSlot_eq heap room hn, (holds i h1 hn).1]

theorem Holds.readData_eq (holds : Holds cell heap n slot) (room : heap.InBlock n) (h1 : 1 ≤ i)
    (hn : i ≤ n) : readData cell heap i = some (slot i).2 := by
  simp [readData, holds.readSlot_eq room h1 hn, (holds i h1 hn).2]

theorem Holds.mono (holds : Holds cell heap n slot) (hle : j ≤ n) : Holds cell heap j slot :=
  fun i h1 hj => holds i h1 (hj.trans hle)

/-- Writing the pointer of an allocated element. -/
theorem Holds.setSlot (holds : Holds cell heap n slot) (hcell : cell a = some x) (i : ℕ) :
    Holds cell (heap.setSlot i (some a)) n (Function.update slot i (a, x)) := by
  intro k h1 hn
  rcases eq_or_ne k i with rfl | hne
  · simp [hcell]
  · simpa [hne] using holds k h1 hn

/-! ## The loops -/

/-- The upward loop of the source computes the one on arrays. -/
theorem heapSortLoop_eq (holds : Holds cell heap n slot) (room : heap.InBlock n)
    (hcb : heap.elemCompareCb = cb) (h1 : 1 ≤ i) (hn : i ≤ n) (hfuel : i ≤ fuel) :
    ∃ mem, heapSortLoop cell fuel heap i =
        some (heap.setMem mem, (riseLoop (elemAbove cb) fuel slot i).2) ∧
      Holds cell (heap.setMem mem) n (riseLoop (elemAbove cb) fuel slot i).1 := by
  induction fuel generalizing heap slot i with
  | zero => omega
  | succ fuel ih =>
      rw [heapSortLoop, riseLoop]
      by_cases hroot : 1 < i
      · have hparent := holds.readData_eq room (i := i / 2) (by omega) (by omega)
        simp only [if_pos hroot, hparent, holds.readData_eq room h1 hn, hcb, Option.bind_eq_bind,
          Option.bind_some]
        by_cases hstop : cb (slot (i / 2)).2 (slot i).2 = true
        · rw [if_pos hstop, if_pos (show elemAbove cb _ _ = true from hstop)]
          exact ⟨heap.heapMem, rfl, holds⟩
        · rw [if_neg hstop, if_neg (show ¬ elemAbove cb _ _ = true from hstop),
            holds.readSlot_eq room (by omega) (by omega)]
          simp only [Option.bind_some, writeSlot_eq heap room hn]
          have hmoved := holds.setSlot (holds (i / 2) (by omega) (by omega)).2 i
          obtain ⟨mem, hloop, hheld⟩ :=
            ih (i := i / 2) hmoved room hcb (by omega) (by omega) (by omega)
          exact ⟨mem, hloop, hheld⟩
      · rw [if_neg hroot, if_neg hroot]
        exact ⟨heap.heapMem, rfl, holds⟩

/-- `__heap_sort` sifts up. -/
theorem heapSort_eq (holds : Holds cell heap n slot) (room : heap.InBlock n)
    (hcb : heap.elemCompareCb = cb) (h1 : 1 ≤ i) (hn : i ≤ n) :
    ∃ mem, heapSort cell heap i = some (heap.setMem mem) ∧
      Holds cell (heap.setMem mem) n (rise (elemAbove cb) slot i) := by
  obtain ⟨mem, hloop, hheld⟩ := heapSortLoop_eq holds room hcb h1 hn le_rfl
  obtain ⟨-, hend⟩ := riseLoop_bounds (elemAbove cb) i slot h1 hn
  refine ⟨_, ?_, hheld.setSlot (holds i h1 hn).2 _⟩
  simp only [heapSort, holds.readSlot_eq room h1 hn, hloop, Option.bind_eq_bind, Option.bind_some]
  exact writeSlot_eq (heap.setMem mem) room hend

theorem winnerIndex_eq (holds : Holds cell heap n slot) (room : heap.InBlock n)
    (hcb : heap.elemCompareCb = cb) (hsize : heap.curSize = n) (h1 : 1 ≤ pos)
    (hpos : pos ≤ n / 2) :
    winnerIndex cell heap pos = some (winner (elemAbove cb) n slot pos) := by
  rw [winnerIndex, winner, hsize]
  by_cases hleft : pos * 2 = n
  · rw [if_neg (not_not.mpr hleft), if_neg fun h => h.1 hleft]
  · simp only [holds.readData_eq room (i := pos * 2 + 1) (by omega) (by omega),
      holds.readData_eq room (i := pos * 2) (by omega) (by omega), hcb, Option.bind_eq_bind,
      Option.bind_some, ne_eq, hleft, not_false_eq_true, true_and]
    rfl

/-- The downward loop of the source computes the one on arrays. -/
theorem heapRemoveLoop_eq (fuel : ℕ) (holds : Holds cell heap n slot) (room : heap.InBlock n)
    (hcb : heap.elemCompareCb = cb) (hsize : heap.curSize = n) (hcell : cell a = some x)
    (h1 : 1 ≤ pos) (hfuel : n < pos + fuel) :
    ∃ mem, heapRemoveLoop cell (some a) (n / 2) fuel heap pos =
        some (heap.setMem mem, (sinkLoop (elemAbove cb) n (a, x) fuel slot pos).2) ∧
      Holds cell (heap.setMem mem) n
        (sinkLoop (elemAbove cb) n (a, x) fuel slot pos).1 := by
  induction fuel generalizing heap slot pos with
  | zero =>
      rw [heapRemoveLoop, if_neg (by omega)]
      exact ⟨heap.heapMem, rfl, holds⟩
  | succ fuel ih =>
      rw [heapRemoveLoop, sinkLoop]
      by_cases hpos : pos ≤ n / 2
      · obtain ⟨h2, hw, -, hlt⟩ := winner_bounds (elemAbove cb) slot h1 hpos
        simp only [if_pos hpos, winnerIndex_eq holds room hcb hsize h1 hpos, hcell, hcb,
          holds.readData_eq room (by omega : 1 ≤ winner (elemAbove cb) n slot pos) hw,
          Option.bind_eq_bind, Option.bind_some]
        by_cases hstop : cb x (slot (winner (elemAbove cb) n slot pos)).2 = true
        · rw [if_pos hstop, if_pos (show elemAbove cb (a, x) _ = true from hstop)]
          exact ⟨heap.heapMem, rfl, holds⟩
        · rw [if_neg hstop, if_neg (show ¬ elemAbove cb (a, x) _ = true from hstop),
            holds.readSlot_eq room (by omega) hw]
          simp only [Option.bind_some, writeSlot_eq heap room (show pos ≤ n by omega)]
          have hmoved := holds.setSlot (holds _ (by omega) hw).2 pos
          have hw1 : 1 ≤ winner (elemAbove cb) n slot pos := by omega
          obtain ⟨mem, hloop, hheld⟩ := ih hmoved room hcb hsize hw1 (by omega)
          exact ⟨mem, hloop, hheld⟩
      · rw [if_neg hpos, if_neg hpos]
        exact ⟨heap.heapMem, rfl, holds⟩

/-! ## Push and pop of the block -/

/-- A full block refuses an element. -/
theorem heapPush_full (hfull : heap.curSize = heap.maxSize) (mem : Option Addr) :
    heapPush cell heap x mem = some (.resource, heap, cell) := if_pos hfull.ge

/-- Without memory for the element nothing is pushed. -/
theorem heapPush_outOfMem (hbelow : heap.curSize < heap.maxSize) :
    heapPush cell heap x none = some (.outOfMem, heap, cell) := if_neg (Nat.not_le.mpr hbelow)

/-- A push below capacity writes the new element behind the last one and sifts it up. -/
theorem heapPush_eq (holds : Holds cell heap heap.curSize slot) (room : heap.InBlock heap.maxSize)
    (hcb : heap.elemCompareCb = cb) (hfull : heap.curSize < heap.maxSize)
    (hfresh : ∀ i, 1 ≤ i → i ≤ heap.curSize → (slot i).1 ≠ a) :
    ∃ mem, heapPush cell heap x (some a) =
        some (.ok, { heap with curSize := heap.curSize + 1, heapMem := mem },
          Function.update cell a (some x)) ∧
      Holds (Function.update cell a (some x))
        { heap with curSize := heap.curSize + 1, heapMem := mem } (heap.curSize + 1)
        (rise (elemAbove cb) (Function.update slot (heap.curSize + 1) (a, x))
          (heap.curSize + 1)) := by
  have hgrown : heap.InBlock (heap.curSize + 1) := InBlock.mono room hfull
  have hwritten : Holds (Function.update cell a (some x))
      ({ heap with curSize := heap.curSize + 1 }.setSlot (heap.curSize + 1) (some a))
      (heap.curSize + 1) (Function.update slot (heap.curSize + 1) (a, x)) := by
    intro i h1 hi
    rcases eq_or_ne i (heap.curSize + 1) with rfl | hne
    · simp
    · have hold := holds i h1 (by omega)
      simp [hne, hold, hfresh i h1 (by omega)]
  obtain ⟨mem, hsort, hheld⟩ := heapSort_eq hwritten hgrown hcb (by omega) le_rfl
  refine ⟨mem, ?_, hheld⟩
  rw [heapPush, if_neg (by omega)]
  simp only [writeSlot_eq { heap with curSize := heap.curSize + 1 } hgrown le_rfl,
    Option.bind_eq_bind, Option.bind_some]
  exact congrArg (Option.bind · _) hsort

/-- The removed cell is no cell of the remaining elements. -/
theorem fst_removeRoot_ne {above : Addr × α → Addr × α → Bool}
    (distinct : ((elements (n + 1) slot).map Prod.fst).Nodup) (h1 : 1 ≤ i) (hn : i ≤ n) :
    (removeRoot above n slot i).1 ≠ (slot 1).1 := by
  rw [← cons_elements_removeRoot above, Multiset.map_cons, Multiset.nodup_cons]
    at distinct
  intro heq
  exact distinct.1 (heq ▸ Multiset.mem_map_of_mem _ (mem_elements.mpr ⟨i, h1, hn, rfl⟩))

/-- The last three steps of a removal: the hole sinks, the tail element fills it and is
sifted up. In an emptied heap the hole stays in slot 1, which is above the size. -/
theorem sink_eq (holds : Holds cell heap n slot) (room : heap.InBlock (n + 1))
    (hcb : heap.elemCompareCb = cb) (hsize : heap.curSize = n)
    (hcell : cell (slot (n + 1)).1 = some (slot (n + 1)).2) :
    ∃ low pos filled mem,
      heapRemoveLoop cell (some (slot (n + 1)).1) (n / 2) n heap 1 = some (low, pos) ∧
      writeSlot low pos (some (slot (n + 1)).1) = some filled ∧
      heapSort cell filled pos = some (heap.setMem mem) ∧
      Holds cell (heap.setMem mem) n (removeRoot (elemAbove cb) n slot) := by
  rcases Nat.eq_zero_or_pos n with rfl | hpos
  · refine ⟨heap, 1, _, Function.update (Function.update heap.heapMem 1 (some (slot 1).1)) 1
      (some (slot 1).1), rfl, writeSlot_eq heap room le_rfl, ?_, fun i h1 hi => by omega⟩
    have hread : readSlot (heap.setSlot 1 (some (slot 1).1)) 1 = some (some (slot 1).1) := by
      rw [readSlot_eq (heap.setSlot 1 _) room le_rfl, InnHeap.setSlot_heapMem,
        Function.update_self]
    simp only [heapSort, hread, Option.bind_eq_bind, Option.bind_some]
    exact writeSlot_eq (heap.setSlot 1 _) room le_rfl
  · have hroom := InBlock.mono room (Nat.le_succ n)
    obtain ⟨mem, hloop, hsunk⟩ :=
      heapRemoveLoop_eq n holds hroom hcb hsize hcell le_rfl (by omega)
    obtain ⟨h1, hn⟩ := sinkLoop_bounds (elemAbove cb) (slot (n + 1)) n slot le_rfl hpos
    obtain ⟨mem', hsort, hheld⟩ := heapSort_eq (hsunk.setSlot hcell _) hroom hcb h1 hn
    exact ⟨_, _, _, mem', hloop, writeSlot_eq (heap.setMem mem) hroom hn, hsort, hheld⟩

/-- A pop answers the root and removes it. -/
theorem heapPop_eq (holds : Holds cell heap (n + 1) slot) (room : heap.InBlock (n + 1))
    (hcb : heap.elemCompareCb = cb) (hsize : heap.curSize = n + 1)
    (distinct : ((elements (n + 1) slot).map Prod.fst).Nodup) :
    ∃ mem, heapPop cell heap =
        some (some (slot 1).2, { heap with curSize := n, heapMem := mem },
          Function.update cell (slot 1).1 none) ∧
      Holds (Function.update cell (slot 1).1 none) { heap with curSize := n, heapMem := mem } n
        (removeRoot (elemAbove cb) n slot) := by
  have hcut : Holds cell { heap.setSlot (n + 1) none with curSize := n } n slot := by
    intro i h1 hi
    simpa [show i ≠ n + 1 by omega] using holds i h1 (by omega)
  obtain ⟨low, pos, filled, mem, hloop, hfill, hsort, hheld⟩ :=
    sink_eq hcut room hcb rfl (holds (n + 1) (by omega) le_rfl).2
  refine ⟨mem, ?_, fun i h1 hi => ?_⟩
  · rw [heapPop, heapRemove, if_neg (by omega), hsize]
    simp only [holds.readSlot_eq room le_rfl (by omega), holds.readSlot_eq room (by omega) le_rfl,
      writeSlot_eq heap room le_rfl, InnHeap.setSlot_curSize, hsize, Nat.add_sub_cancel, hloop,
      hfill, hsort, (holds 1 le_rfl (by omega)).2, Option.bind_eq_bind, Option.bind_some]
    rfl
  · have hkept := hheld i h1 hi
    exact ⟨hkept.1, (Function.update_of_ne (fst_removeRoot_ne distinct h1 hi) _ _).trans hkept.2⟩

/-! ## The queue -/

/-- The queue keeps the elements of the array in a block that has room for them. -/
structure Stores (cb : α → α → Bool) (q : PriQueueT α) (heap : InnHeap α)
    (slot : ℕ → Addr × α) : Prop where
  heap_eq : q.heap = some heap
  cb_eq : heap.elemCompareCb = cb
  fits : heap.curSize ≤ heap.maxSize
  pos : 1 ≤ heap.maxSize
  room : heap.InBlock heap.maxSize
  holds : Holds q.cell heap heap.curSize slot
  distinct : ((elements heap.curSize slot).map Prod.fst).Nodup

variable {q q' : PriQueueT α}

theorem Stores.size_eq (st : Stores cb q heap slot) : q.size = heap.curSize := by
  simp [PriQueueT.size, st.heap_eq]

theorem Stores.capacity_eq (st : Stores cb q heap slot) : q.capacity = heap.maxSize := by
  simp [PriQueueT.capacity, st.heap_eq]

theorem filterMap_eq_map_of_mem {β γ : Type} {s : Multiset β} {f : β → Option γ} {g : β → γ}
    (h : ∀ x ∈ s, f x = some (g x)) : s.filterMap f = s.map g := by
  induction s using Multiset.induction_on with
  | empty => rfl
  | cons x s ih =>
      rw [Multiset.filterMap_cons_some f x s (h x (Multiset.mem_cons_self x s)),
        Multiset.map_cons, ih fun y hy => h y (Multiset.mem_cons_of_mem hy)]

/-- The contents of the queue are the data of the elements of the array. -/
theorem Stores.contents_eq (st : Stores cb q heap slot) :
    q.contents = (elements heap.curSize slot).map Prod.snd := by
  rw [PriQueueT.contents, st.heap_eq, elements, Multiset.map_map]
  apply filterMap_eq_map_of_mem
  intro i hi
  obtain ⟨h1, hn⟩ := Finset.mem_Icc.mp (Finset.mem_val.mp hi)
  obtain ⟨hslot, hcell⟩ := st.holds i h1 hn
  rw [hslot, Option.bind_some, hcell]
  rfl

/-- The block of a new queue has room for `max_size` elements. -/
theorem room_of_create {initialSize : ℤ} (hpos : 0 < initialSize) (hint : initialSize < 2 ^ 31) :
    sizeofInnHeap + ((initialSize % 2 ^ 32).toNat + 1) * sizeofHeapElement ≤
      (sizeofInnHeap + toSizeT (toInt32 (initialSize + 1)) * sizeofHeapElement) % 2 ^ 64 := by
  have hsame : (initialSize % 2 ^ 32).toNat = initialSize.toNat := by omega
  rw [hsame, toSizeT, toInt32, Int.bmod_def]
  simp only [sizeofInnHeap, sizeofHeapElement]
  split <;> omega

/-- The queue that `pri_queue_create` answers. -/
def newQueue (cb : α → α → Bool) (initialSize : ℤ) (sizeAdaption : Bool) : PriQueueT α where
  adaption := sizeAdaption
  heap := some
    { curSize := 0
      maxSize := (initialSize % 2 ^ 32).toNat
      elemCompareCb := cb
      heapMem := fun _ => none
      bytes :=
        (sizeofInnHeap + toSizeT (toInt32 (initialSize + 1)) * sizeofHeapElement) % 2 ^ 64 }
  cell := fun _ => none

theorem priQueueCreate_eq {initialSize : ℤ} (hpos : 0 < initialSize) (sizeAdaption : Bool) :
    priQueueCreate initialSize sizeAdaption cb true true =
      some (some (newQueue cb initialSize sizeAdaption)) := by
  have hnot : ¬ (initialSize ≤ 0 ∨ true = false) := by simp [hpos]
  rw [priQueueCreate, if_neg hnot, if_pos rfl]
  rfl

/-- A new queue stores nothing. -/
theorem exists_stores_newQueue [Nonempty α] (cb : α → α → Bool) {initialSize : ℤ}
    (hpos : 0 < initialSize) (hint : initialSize < 2 ^ 31) (sizeAdaption : Bool) :
    ∃ heap slot, Stores cb (newQueue cb initialSize sizeAdaption) heap slot ∧
      heap.curSize = 0 := by
  refine ⟨_, fun _ => (0, Classical.arbitrary α), ⟨rfl, rfl, ?_, ?_, ?_, ?_, ?_⟩, rfl⟩
  · exact Nat.zero_le _
  · show 1 ≤ (initialSize % 2 ^ 32).toNat
    omega
  · exact room_of_create hpos hint
  · exact fun i h1 hi => absurd (h1.trans hi) (by simp)
  · exact Multiset.nodup_zero

/-- The initial states of the system. -/
theorem exists_eq_newQueue_of_init (hinit : (priQueueSystem cb).init q) :
    ∃ initialSize sizeAdaption, 0 < initialSize ∧ initialSize < 2 ^ 31 ∧
      q = newQueue cb initialSize sizeAdaption := by
  obtain ⟨initialSize, sizeAdaption, hpos, hint, hcreate⟩ := hinit
  rw [priQueueCreate_eq hpos] at hcreate
  exact ⟨_, _, hpos, hint, (Option.some.inj (Option.some.inj hcreate)).symm⟩

/-! ### The entry points -/

/-- A push of the heap below capacity keeps the queue storing. -/
theorem Stores.of_heapPush (st : Stores cb q heap slot) (hfull : heap.curSize < heap.maxSize)
    (hmalloc : q.cell a = none) :
    ∃ heap' cell', heapPush q.cell heap x (some a) = some (.ok, heap', cell') ∧
      (∃ mem, heap' = { heap with curSize := heap.curSize + 1, heapMem := mem }) ∧
      cell' = Function.update q.cell a (some x) ∧
      Stores cb ⟨q.adaption, some heap', cell'⟩ heap'
        (rise (elemAbove cb) (Function.update slot (heap.curSize + 1) (a, x))
          (heap.curSize + 1)) := by
  have hfresh : ∀ i, 1 ≤ i → i ≤ heap.curSize → (slot i).1 ≠ a := by
    intro i h1 hi heq
    have hcell := (st.holds i h1 hi).2
    rw [heq, hmalloc] at hcell
    exact absurd hcell nofun
  obtain ⟨mem, hpush, hheld⟩ := heapPush_eq st.holds st.room st.cb_eq hfull hfresh (x := x)
  refine ⟨_, _, hpush, ⟨mem, rfl⟩, rfl, ⟨rfl, st.cb_eq, hfull, st.pos, st.room, hheld, ?_⟩⟩
  show ((elements (heap.curSize + 1) _).map Prod.fst).Nodup
  rw [elements_pushed, Multiset.map_cons, Multiset.nodup_cons]
  refine ⟨fun hmem => ?_, st.distinct⟩
  obtain ⟨e, he, heq⟩ := Multiset.mem_map.mp hmem
  obtain ⟨i, h1, hi, rfl⟩ := mem_elements.mp he
  exact hfresh i h1 hi heq

/-- A push that `__heap_push` accepts is not retried. -/
theorem priQueuePush_of_heapPush {heap' : InnHeap α} {cell' : Addr → Option α}
    {mem : Option Addr} (hheap : q.heap = some heap)
    (hpush : heapPush q.cell heap x mem = some (.ok, heap', cell')) (remem : Bool) :
    priQueuePush q (some x) mem remem = some (.ok, ⟨q.adaption, some heap', cell'⟩) := by
  simp only [priQueuePush, hheap, hpush, Option.bind_eq_bind, Option.bind_some]
  rfl

/-- A push below capacity succeeds and adds its element. -/
theorem Stores.push (st : Stores cb q heap slot) (hfull : heap.curSize < heap.maxSize)
    (hmalloc : q.cell a = none) (remem : Bool) :
    ∃ q' mem, priQueuePush q (some x) (some a) remem = some (.ok, q') ∧
      q'.adaption = q.adaption ∧
      Stores cb q' { heap with curSize := heap.curSize + 1, heapMem := mem }
        (rise (elemAbove cb) (Function.update slot (heap.curSize + 1) (a, x))
          (heap.curSize + 1)) := by
  obtain ⟨heap', cell', hpush, ⟨mem, rfl⟩, -, hstores⟩ := st.of_heapPush hfull hmalloc (x := x)
  exact ⟨_, mem, priQueuePush_of_heapPush st.heap_eq hpush remem, rfl, hstores⟩

/-- A push at capacity without adaption is refused. -/
theorem Stores.push_full (st : Stores cb q heap slot) (hfull : heap.curSize = heap.maxSize)
    (hfixed : q.adaption = false) (mem : Option Addr) (remem : Bool) :
    priQueuePush q (some x) mem remem = some (.resource, q) := by
  have hkept : ¬ q.adaption = true := by simp [hfixed]
  simp only [priQueuePush, st.heap_eq, heapPush_full hfull, if_neg hkept, Option.bind_eq_bind,
    Option.bind_some, if_true]
  rw [← st.heap_eq]

theorem curSize_reallocHeap {heap' : InnHeap α} {remem : Bool}
    (h : reallocHeap heap remem = some heap') : heap'.curSize = heap.curSize := by
  cases remem with
  | false => cases h
  | true => rw [← Option.some.inj h]

theorem maxSize_reallocHeap {heap' : InnHeap α} {remem : Bool}
    (h : reallocHeap heap remem = some heap') : heap'.maxSize = heap.maxSize := by
  cases remem with
  | false => cases h
  | true => rw [← Option.some.inj h]

/-- A push on a full adaptive queue is refused as well, but the block is reallocated. -/
theorem priQueuePush_adaptive (hheap : q.heap = some heap) (hfull : heap.curSize = heap.maxSize)
    (hadapt : q.adaption = true) (mem : Option Addr) (remem : Bool) :
    priQueuePush q (some x) mem remem =
      (reallocHeap heap remem).map fun heap' => (.resource, { q with heap := some heap' }) := by
  simp only [priQueuePush, hheap, heapPush_full hfull, hadapt, if_true, Option.bind_eq_bind,
    Option.bind_some]
  cases hrealloc : reallocHeap heap remem with
  | none => rfl
  | some heap' =>
      -- the new block has the old sizes, so the second attempt is refused too
      have hfull' : heap'.curSize = heap'.maxSize := by
        rw [curSize_reallocHeap hrealloc, maxSize_reallocHeap hrealloc, hfull]
      rw [Option.bind_some, heapPush_full hfull']
      rfl

/-- A push without memory for the element changes nothing. -/
theorem Stores.push_outOfMem (st : Stores cb q heap slot) (hfull : heap.curSize < heap.maxSize)
    (remem : Bool) : priQueuePush q (some x) none remem = some (.outOfMem, q) := by
  simp only [priQueuePush, st.heap_eq, heapPush_outOfMem hfull, Option.bind_eq_bind,
    Option.bind_some]
  rw [if_neg nofun, ← st.heap_eq]

/-- A pop of the heap answers the root and keeps the queue storing. -/
theorem Stores.of_heapPop (st : Stores cb q heap slot) (hsize : heap.curSize = n + 1) :
    ∃ heap' cell', heapPop q.cell heap = some (some (slot 1).2, heap', cell') ∧
      (∃ mem, heap' = { heap with curSize := n, heapMem := mem }) ∧
      cell' = Function.update q.cell (slot 1).1 none ∧
      Stores cb ⟨q.adaption, some heap', cell'⟩ heap' (removeRoot (elemAbove cb) n slot) := by
  have holds := st.holds
  have distinct := st.distinct
  have hfits := st.fits
  rw [hsize] at holds distinct hfits
  obtain ⟨mem, hpop, hheld⟩ :=
    heapPop_eq holds (InBlock.mono st.room hfits) st.cb_eq hsize distinct
  refine ⟨_, _, hpop, ⟨mem, rfl⟩, rfl,
    ⟨rfl, st.cb_eq, (Nat.le_succ n).trans hfits, st.pos, st.room, hheld, ?_⟩⟩
  rw [← cons_elements_removeRoot (elemAbove cb), Multiset.map_cons, Multiset.nodup_cons] at distinct
  exact distinct.2

/-- A pop of a non-empty queue answers the root. -/
theorem Stores.pop (st : Stores cb q heap slot) (hsize : heap.curSize = n + 1)
    (pdata : Option α) :
    ∃ q' mem, priQueuePopTrywait q pdata = some (.ok, some (slot 1).2, q') ∧
      q'.adaption = q.adaption ∧
      Stores cb q' { heap with curSize := n, heapMem := mem }
        (removeRoot (elemAbove cb) n slot) := by
  obtain ⟨heap', cell', hpop, ⟨mem, rfl⟩, -, hstores⟩ := st.of_heapPop hsize
  refine ⟨⟨q.adaption, some _, cell'⟩, mem, ?_, rfl, hstores⟩
  simp only [priQueuePopTrywait, st.heap_eq, hpop, hsize, Nat.succ_ne_zero, if_false,
    Option.bind_eq_bind, Option.bind_some]

theorem Stores.pop_empty (st : Stores cb q heap slot) (hsize : heap.curSize = 0)
    (pdata : Option α) : priQueuePopTrywait q pdata = some (.resource, pdata, q) := by
  simp [priQueuePopTrywait, st.heap_eq, hsize]

/-- A peek of a non-empty queue answers the root. -/
theorem Stores.peek (st : Stores cb q heap slot) (hsize : 0 < heap.curSize) :
    priQueuePeek q = some (.ok, some (slot 1).2) := by
  have hread := st.holds.readSlot_eq (InBlock.mono st.room st.fits) le_rfl hsize
  simp [priQueuePeek, st.heap_eq, hsize, heapPeek, hread, (st.holds 1 le_rfl hsize).2]

theorem Stores.peek_empty (st : Stores cb q heap slot) (hsize : heap.curSize = 0) :
    priQueuePeek q = some (.resource, none) := by
  simp [priQueuePeek, st.heap_eq, hsize]

/-! ### Contents and root -/

theorem Stores.contents_pushed {mem : ℕ → Option Addr} {a : Addr} (st : Stores cb q heap slot)
    (st' : Stores cb q' { heap with curSize := heap.curSize + 1, heapMem := mem }
      (rise (elemAbove cb) (Function.update slot (heap.curSize + 1) (a, x)) (heap.curSize + 1))) :
    q'.contents = x ::ₘ q.contents := by
  rw [st'.contents_eq, st.contents_eq]
  show (elements (heap.curSize + 1) _).map Prod.snd = _
  rw [elements_pushed, Multiset.map_cons]

theorem Stores.contents_popped {mem : ℕ → Option Addr} {n : ℕ} (st : Stores cb q heap slot)
    (hsize : heap.curSize = n + 1)
    (st' : Stores cb q' { heap with curSize := n, heapMem := mem }
      (removeRoot (elemAbove cb) n slot)) :
    (slot 1).2 ::ₘ q'.contents = q.contents := by
  rw [st'.contents_eq, st.contents_eq, hsize, ← Multiset.map_cons Prod.snd,
    cons_elements_removeRoot]

/-- The root of the array is what peek answers. -/
theorem Stores.peek_eq_some_iff (st : Stores cb q heap slot) :
    priQueuePeek q = some (.ok, some x) ↔ 0 < heap.curSize ∧ (slot 1).2 = x := by
  rcases Nat.eq_zero_or_pos heap.curSize with hsize | hsize
  · simp [st.peek_empty hsize, hsize]
  · simp [st.peek hsize, hsize]

/-- A push of an element that belongs below the root keeps the root. -/
theorem Stores.peek_pushed {mem : ℕ → Option Addr} {y : α} (st : Stores cb q heap slot)
    (le : TotalPreorder fun x y => cb x y = true)
    (hpeek : priQueuePeek q = some (.ok, some x)) (hbelow : cb x y = true)
    (st' : Stores cb q' { heap with curSize := heap.curSize + 1, heapMem := mem }
      (rise (elemAbove cb) (Function.update slot (heap.curSize + 1) (a, y)) (heap.curSize + 1))) :
    priQueuePeek q' = some (.ok, some x) := by
  obtain ⟨hpos, rfl⟩ := st.peek_eq_some_iff.mp hpeek
  have hfirst : Function.update slot (heap.curSize + 1) (a, y) 1 = slot 1 :=
    Function.update_of_ne (by omega) _ _
  have hroot : elemAbove cb (Function.update slot (heap.curSize + 1) (a, y) 1)
      (Function.update slot (heap.curSize + 1) (a, y) (heap.curSize + 1)) = true := by
    rw [hfirst, Function.update_self]
    exact hbelow
  rw [st'.peek_eq_some_iff, rise_root (TotalPreorder.elemAbove le) (by omega) hroot, hfirst]
  exact ⟨Nat.succ_pos _, rfl⟩

/-! ### Calls -/

/-- What a call on a queue that stores an array does when it does not exceed the
capacity: one case for each path of the source. -/
inductive Outcome (cb : α → α → Bool) (q : PriQueueT α) (heap : InnHeap α)
    (slot : ℕ → Addr × α) : PriQueueCall α → BliveErrno → Option α → PriQueueT α → Prop
  | invalid {mem : Option Addr} {remem : Bool} :
      Outcome cb q heap slot (.push none mem remem) .invalid none q
  | refused {x : α} {mem : Option Addr} {remem : Bool} (full : heap.curSize = heap.maxSize)
      (fixed : q.adaption = false) :
      Outcome cb q heap slot (.push (some x) mem remem) .resource none q
  | outOfMem {x : α} {remem : Bool} (below : heap.curSize < heap.maxSize) :
      Outcome cb q heap slot (.push (some x) none remem) .outOfMem none q
  | pushed {x : α} {a : Addr} {remem : Bool} {q' : PriQueueT α} {mem : ℕ → Option Addr}
      (below : heap.curSize < heap.maxSize) (adaption : q'.adaption = q.adaption)
      (stores : Stores cb q' { heap with curSize := heap.curSize + 1, heapMem := mem }
        (rise (elemAbove cb) (Function.update slot (heap.curSize + 1) (a, x))
          (heap.curSize + 1))) :
      Outcome cb q heap slot (.push (some x) (some a) remem) .ok none q'
  | popEmpty (empty : heap.curSize = 0) :
      Outcome cb q heap slot .popTrywait .resource none q
  | popped {n : ℕ} {q' : PriQueueT α} {mem : ℕ → Option Addr} (size : heap.curSize = n + 1)
      (adaption : q'.adaption = q.adaption)
      (stores : Stores cb q' { heap with curSize := n, heapMem := mem }
        (removeRoot (elemAbove cb) n slot)) :
      Outcome cb q heap slot .popTrywait .ok (some (slot 1).2) q'
  | peekEmpty (empty : heap.curSize = 0) : Outcome cb q heap slot .peek .resource none q
  | peeked (nonempty : 0 < heap.curSize) :
      Outcome cb q heap slot .peek .ok (some (slot 1).2) q

/-- The call does not try to store more than `max_size` elements, or the queue is of
fixed size and may refuse it. -/
def NeverExceeds (q : PriQueueT α) : PriQueueCall α → Prop
  | .push (some _) _ _ => q.size < q.capacity ∨ q.adaption = false
  | _ => True

instance (q : PriQueueT α) : (c : PriQueueCall α) → Decidable (NeverExceeds q c)
  | .push (some _) _ _ => inferInstanceAs (Decidable (_ ∨ _))
  | .push none _ _ | .popTrywait | .peek => inferInstanceAs (Decidable True)

/-- Such a call stays in memory and does one of these things. -/
theorem Stores.exists_outcome (st : Stores cb q heap slot) {c : PriQueueCall α}
    (hmalloc : c.MallocContract q) (hfits : NeverExceeds q c) :
    ∃ code data q', call q c = some ((code, data), q') ∧ Outcome cb q heap slot c code data q' := by
  cases c with
  | push data mem remem =>
      cases data with
      | none => exact ⟨_, _, _, rfl, .invalid⟩
      | some x =>
          simp only [NeverExceeds, st.size_eq, st.capacity_eq] at hfits
          rcases st.fits.lt_or_eq with hbelow | hfull
          · cases mem with
            | none =>
                refine ⟨_, _, _, ?_, .outOfMem hbelow⟩
                rw [call, st.push_outOfMem hbelow]
                rfl
            | some a =>
                obtain ⟨q', slots, hpush, hadaption, hstores⟩ := st.push hbelow hmalloc remem
                refine ⟨_, _, _, ?_, .pushed hbelow hadaption hstores⟩
                rw [call, hpush]
                rfl
          · have hfixed := hfits.resolve_left hfull.not_lt
            refine ⟨_, _, _, ?_, .refused hfull hfixed⟩
            rw [call, st.push_full hfull hfixed]
            rfl
  | popTrywait =>
      cases hsize : heap.curSize with
      | zero =>
          refine ⟨_, _, _, ?_, .popEmpty hsize⟩
          rw [call, st.pop_empty hsize]
          rfl
      | succ n =>
          obtain ⟨q', slots, hpop, hadaption, hstores⟩ := st.pop hsize none
          refine ⟨_, _, _, ?_, .popped hsize hadaption hstores⟩
          rw [call, hpop]
          rfl
  | peek =>
      rcases Nat.eq_zero_or_pos heap.curSize with hsize | hsize
      · refine ⟨_, _, _, ?_, .peekEmpty hsize⟩
        rw [call, st.peek_empty hsize]
        rfl
      · refine ⟨_, _, _, ?_, .peeked hsize⟩
        rw [call, st.peek hsize]
        rfl

/-- The outcome of a call that was made. -/
theorem Stores.outcome (st : Stores cb q heap slot) {c : PriQueueCall α}
    (hmalloc : c.MallocContract q) (hfits : NeverExceeds q c) {out : BliveErrno × Option α}
    {q' : PriQueueT α} (hcall : call q c = some (out, q')) :
    Outcome cb q heap slot c out.1 out.2 q' := by
  obtain ⟨code, data, q'', hdone, hout⟩ := st.exists_outcome hmalloc hfits
  obtain ⟨rfl, rfl⟩ := Prod.mk.inj (Option.some.inj (hcall.symm.trans hdone))
  exact hout

/-! ## Executions -/

instance (q : PriQueueT α) : (c : PriQueueCall α) → Decidable (c.MallocContract q)
  | .push _ (some a) _ => inferInstanceAs (Decidable (q.cell a = none))
  | .push _ none _ | .popTrywait | .peek => inferInstanceAs (Decidable True)

/-- A test passed by an execution of the model is passed at the end of a run. -/
theorem exists_run (cb : α → α → Bool)
    (guard : PriQueueT α → PriQueueCall α × BliveErrno × Option α → Prop)
    [∀ q label, Decidable (guard q label)] {initialSize : ℤ} (hpos : 0 < initialSize)
    (hint : initialSize < 2 ^ 31) (sizeAdaption : Bool) (calls : List (PriQueueCall α))
    (test : List (PriQueueCall α × BliveErrno × Option α) × PriQueueT α → Bool)
    (h : (System.execute (System.callNext (fun q c => c.MallocContract q) PriQueue.call guard)
      (newQueue cb initialSize sizeAdaption) calls).any test = true) :
    ∃ history q, (priQueueSystem cb).Run guard history q ∧ test (history, q) = true :=
  have hinit : (priQueueSystem cb).init (newQueue cb initialSize sizeAdaption) :=
    ⟨initialSize, sizeAdaption, hpos, hint, priQueueCreate_eq hpos sizeAdaption⟩
  System.Run.exists_of_execute System.callNext_sound hinit _ _ h

end BliveQueue.PriQueue
