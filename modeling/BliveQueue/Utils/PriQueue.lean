/-
# `pri_queue.c`: the priority queue

A binary heap in one malloc'd block: a header, followed by the slots `heap_mem[0]`,
`heap_mem[1]`, ... of which slot 0 is unused. Every slot points to a separately
allocated cell that holds the data. The block keeps its size in bytes and every
access checks that the slot lies in the block and that the cell is allocated, so
a computation that leaves the block or follows a null or freed pointer has no
result. The comparison callback is a field of the block, as in the source. The
mutex makes each entry point one atomic step.
-/

import Mathlib.Data.Multiset.Filter
import Mathlib.Order.Interval.Finset.Nat
import Mathlib.Data.Int.Order.Basic
import Mathlib.Logic.Function.Basic
import BliveQueue.Math.System
import BliveQueue.Utils.Errno

namespace BliveQueue.Utils.PriQueue

variable {α : Type}

/-- The address of an allocated `heap_element_t`. -/
abbrev Addr := ℕ

/-- `sizeof(inn_heap_t)`: two 32-bit sizes and the callback. -/
def sizeofInnHeap : ℕ := 16

/-- `sizeof(heap_element_t)`, which is also the size of a pointer to one. -/
def sizeofHeapElement : ℕ := 8

/-- Conversion to `int32_t`. -/
def toInt32 (i : ℤ) : ℤ := i.bmod (2 ^ 32)

/-- Conversion to `size_t`. -/
def toSizeT (i : ℤ) : ℕ := (i % 2 ^ 64).toNat

/-- `inn_heap_t`; `bytes` is the size of its block. -/
structure InnHeap (α : Type) where
  curSize : ℕ
  maxSize : ℕ
  elemCompareCb : α → α → Bool
  heapMem : ℕ → Option Addr
  bytes : ℕ

/-- `pri_queue_t`; `cell` holds the data of the allocated elements. -/
structure PriQueueT (α : Type) where
  adaption : Bool
  heap : Option (InnHeap α)
  cell : Addr → Option α

/-! ## Checked memory accesses -/

/-- The slot lies in the block. -/
def InnHeap.InBlock (heap : InnHeap α) (i : ℕ) : Prop :=
  sizeofInnHeap + (i + 1) * sizeofHeapElement ≤ heap.bytes

instance (heap : InnHeap α) (i : ℕ) : Decidable (heap.InBlock i) :=
  inferInstanceAs (Decidable (_ ≤ _))

/-- The block with other slots. -/
def InnHeap.setMem (heap : InnHeap α) (mem : ℕ → Option Addr) : InnHeap α :=
  { heap with heapMem := mem }

/-- The block with one slot overwritten. -/
def InnHeap.setSlot (heap : InnHeap α) (i : ℕ) (p : Option Addr) : InnHeap α :=
  heap.setMem (Function.update heap.heapMem i p)

@[simp] theorem InnHeap.setSlot_curSize (heap : InnHeap α) (i : ℕ) (p : Option Addr) :
    (heap.setSlot i p).curSize = heap.curSize := rfl

@[simp] theorem InnHeap.setSlot_heapMem (heap : InnHeap α) (i : ℕ) (p : Option Addr) :
    (heap.setSlot i p).heapMem = Function.update heap.heapMem i p := rfl

def readSlot (heap : InnHeap α) (i : ℕ) : Option (Option Addr) :=
  if heap.InBlock i then some (heap.heapMem i) else none

def writeSlot (heap : InnHeap α) (i : ℕ) (p : Option Addr) : Option (InnHeap α) :=
  if heap.InBlock i then some (heap.setSlot i p) else none

/-- `heap_mem[i]->data`. -/
def readData (cell : Addr → Option α) (heap : InnHeap α) (i : ℕ) : Option α := do
  let p ← readSlot heap i
  let a ← p
  cell a

/-! ## The heap -/

/-- The loop of `__heap_sort`. It compares the parent with what `heap_mem[index]`
holds, which after the first round is the former parent and not the element under
way. `fuel` bounds the number of rounds. -/
def heapSortLoop (cell : Addr → Option α) : ℕ → InnHeap α → ℕ → Option (InnHeap α × ℕ)
  | fuel, heap, index =>
    if 1 < index then
      match fuel with
      | 0 => none
      | fuel + 1 => do
        let parentIndex := index / 2
        let parent ← readData cell heap parentIndex
        let elem ← readData cell heap index
        if heap.elemCompareCb parent elem then some (heap, index)
        else do
          let p ← readSlot heap parentIndex
          let heap ← writeSlot heap index p
          heapSortLoop cell fuel heap parentIndex
    else some (heap, index)

/-- `__heap_sort`. -/
def heapSort (cell : Addr → Option α) (heap : InnHeap α) (index : ℕ) : Option (InnHeap α) := do
  let tmpElement ← readSlot heap index
  let (heap, index) ← heapSortLoop cell index heap index
  writeSlot heap index tmpElement

/-- `__heap_push`; `mem` is what `zero_alloc` answers if it is asked. -/
def heapPush (cell : Addr → Option α) (heap : InnHeap α) (data : α) (mem : Option Addr) :
    Option (BliveErrno × InnHeap α × (Addr → Option α)) :=
  if heap.curSize ≥ heap.maxSize then some (.resource, heap, cell)
  else
    match mem with
    | none => some (.outOfMem, heap, cell)
    | some a => do
      let cell := Function.update cell a (some data)
      let heap := { heap with curSize := heap.curSize + 1 }
      let heap ← writeSlot heap heap.curSize (some a)
      let heap ← heapSort cell heap heap.curSize
      some (.ok, heap, cell)

/-- `__heap_peek`. -/
def heapPeek (heap : InnHeap α) : Option (Option Addr) := readSlot heap 1

/-- The winner of the two children of `pos`. -/
def winnerIndex (cell : Addr → Option α) (heap : InnHeap α) (pos : ℕ) : Option ℕ :=
  let left := pos * 2
  let right := left + 1
  if left ≠ heap.curSize then do
    let r ← readData cell heap right
    let l ← readData cell heap left
    some (if heap.elemCompareCb r l then right else left)
  else some left

/-- The loop of `__heap_remove`: the hole at `pos` sinks until the tail element fits. -/
def heapRemoveLoop (cell : Addr → Option α) (tailElem : Option Addr) (tailParentIndex : ℕ) :
    ℕ → InnHeap α → ℕ → Option (InnHeap α × ℕ)
  | fuel, heap, pos =>
    if pos ≤ tailParentIndex then
      match fuel with
      | 0 => none
      | fuel + 1 => do
        let winner ← winnerIndex cell heap pos
        let tail ← tailElem.bind cell
        let child ← readData cell heap winner
        if heap.elemCompareCb tail child then some (heap, pos)
        else do
          let p ← readSlot heap winner
          let heap ← writeSlot heap pos p
          heapRemoveLoop cell tailElem tailParentIndex fuel heap winner
    else some (heap, pos)

/-- `__heap_remove`. -/
def heapRemove (cell : Addr → Option α) (heap : InnHeap α) (index : ℕ) :
    Option (Option α × InnHeap α × (Addr → Option α)) :=
  if heap.curSize = 0 ∨ index > heap.curSize ∨ index ≤ 0 then some (none, heap, cell)
  else do
    let removedElem ← readSlot heap index
    let tailElem ← readSlot heap heap.curSize
    let heap ← writeSlot heap heap.curSize none
    let heap := { heap with curSize := heap.curSize - 1 }
    let (heap, pos) ←
      heapRemoveLoop cell tailElem (heap.curSize / 2) heap.curSize heap index
    let heap ← writeSlot heap pos tailElem
    let heap ← heapSort cell heap pos
    let a ← removedElem
    let data ← cell a
    some (some data, heap, Function.update cell a none)

/-- `__heap_pop`. -/
def heapPop (cell : Addr → Option α) (heap : InnHeap α) :
    Option (Option α × InnHeap α × (Addr → Option α)) :=
  heapRemove cell heap 1

/-! ## The entry points -/

/-- `pri_queue_create`; `mem` and `heapMem` tell whether the two allocations succeed.
The second one is not checked, so its failure is a write through a null pointer. -/
def priQueueCreate (initialSize : ℤ) (sizeAdaption : Bool) (cb : α → α → Bool)
    (mem heapMem : Bool) : Option (Option (PriQueueT α)) :=
  if initialSize ≤ 0 ∨ mem = false then some none
  else if heapMem then
    some (some
      { adaption := sizeAdaption
        heap := some
          { curSize := 0
            maxSize := (initialSize % 2 ^ 32).toNat
            elemCompareCb := cb
            heapMem := fun _ => none
            bytes := (sizeofInnHeap +
              toSizeT (toInt32 (initialSize + 1)) * sizeofHeapElement) % 2 ^ 64 }
        cell := fun _ => none })
  else none

/-- `pri_queue_peek`: its code, and what `*pdata` holds afterwards. -/
def priQueuePeek (q : PriQueueT α) : Option (BliveErrno × Option α) := do
  let heap ← q.heap
  if heap.curSize > 0 then do
    let elem ← heapPeek heap
    let a ← elem
    let data ← q.cell a
    some (.ok, some data)
  else some (.resource, none)

/-- `realloc_size` of `pri_queue_push`. -/
def reallocSize (maxSize : ℕ) : ℤ :=
  toInt32 (sizeofInnHeap + ((maxSize * 2) % 2 ^ 32 : ℕ) + 1)

/-- `realloc` of the block to that size: slots outside either block are lost. -/
def reallocHeap (heap : InnHeap α) (mem : Bool) : Option (InnHeap α) :=
  if mem then
    let bytes := toSizeT (reallocSize heap.maxSize)
    some { heap with
      bytes := bytes
      heapMem := fun i =>
        if sizeofInnHeap + (i + 1) * sizeofHeapElement ≤ min bytes heap.bytes then heap.heapMem i
        else none }
  else none

/-- `pri_queue_push`; `mem` answers `zero_alloc` and `remem` answers `realloc`. -/
def priQueuePush (q : PriQueueT α) (data : Option α) (mem : Option Addr) (remem : Bool) :
    Option (BliveErrno × PriQueueT α) :=
  match data with
  | none => some (.invalid, q)
  | some data => do
    let heap ← q.heap
    let (retval, heap, cell) ← heapPush q.cell heap data mem
    if retval = .resource then do
      let heap ← if q.adaption then reallocHeap heap remem else some heap
      let (retval, heap, cell) ← heapPush cell heap data mem
      some (retval, { q with heap := some heap, cell := cell })
    else some (retval, { q with heap := some heap, cell := cell })

/-- `pri_queue_pop_trywait`; `pdata` is what the caller's pointer holds before. -/
def priQueuePopTrywait (q : PriQueueT α) (pdata : Option α) :
    Option (BliveErrno × Option α × PriQueueT α) := do
  let heap ← q.heap
  if heap.curSize = 0 then some (.resource, pdata, q)
  else do
    let (data, heap, cell) ← heapPop q.cell heap
    some (.ok, data, { q with heap := some heap, cell := cell })

/-- `free(heap_mem[i])` for the slots `1..n`, in order. A null pointer is passed over, and
any other one must be that of an allocated cell. -/
def freeSlots (heap : InnHeap α) (cell : Addr → Option α) : ℕ → Option (Addr → Option α)
  | 0 => some cell
  | n + 1 => do
    let cell ← freeSlots heap cell n
    match ← readSlot heap (n + 1) with
    | none => some cell
    | some a => (cell a).map fun _ => Function.update cell a none

/-- `pri_queue_destroy`: its code, and the cells that are still allocated behind it. The
data of the elements is not freed. -/
def priQueueDestroy (priQueue : Option (PriQueueT α)) : Option (BliveErrno × (Addr → Option α)) :=
  match priQueue with
  | none => some (.invalid, fun _ => none)
  | some q =>
    match q.heap with
    | none => some (.ok, q.cell)
    | some heap => (freeSlots heap q.cell heap.curSize).map fun cell => (.ok, cell)

/-! ## Observations and runs -/

/-- The data in the slots `1..cur_size`. -/
def PriQueueT.contents (q : PriQueueT α) : Multiset α :=
  match q.heap with
  | none => 0
  | some heap =>
    (Finset.Icc 1 heap.curSize).val.filterMap fun i => (heap.heapMem i).bind q.cell

/-- The data in slot `i`. -/
def PriQueueT.entry (q : PriQueueT α) (i : ℕ) : Option α :=
  q.heap.bind fun heap => (heap.heapMem i).bind q.cell

/-- The number of stored elements, `pri_queue_get_size`. -/
def PriQueueT.size (q : PriQueueT α) : ℕ := (q.heap.map InnHeap.curSize).getD 0

/-- The capacity of the heap. -/
def PriQueueT.capacity (q : PriQueueT α) : ℕ := (q.heap.map InnHeap.maxSize).getD 0

/-- The calls of a client; `mem` and `remem` are the answers of the allocator. -/
inductive PriQueueCall (α : Type)
  | push (data : Option α) (mem : Option Addr) (remem : Bool)
  | popTrywait
  | peek

/-- `malloc` never hands out a cell that is still allocated. -/
def PriQueueCall.MallocContract (q : PriQueueT α) : PriQueueCall α → Prop
  | .push _ (some a) _ => q.cell a = none
  | _ => True

/-- The execution of one call: its code, what `*pdata` holds afterwards, and the queue.
The caller's pointer is null before the call. -/
def call (q : PriQueueT α) : PriQueueCall α → Option ((BliveErrno × Option α) × PriQueueT α)
  | .push data mem remem => (priQueuePush q data mem remem).map fun r => ((r.1, none), r.2)
  | .popTrywait => (priQueuePopTrywait q none).map fun r => ((r.1, r.2.1), r.2.2)
  | .peek => (priQueuePeek q).map fun r => (r, q)

/-- The queue under arbitrary sequences of calls, from `pri_queue_create` on. -/
def priQueueSystem (cb : α → α → Bool) :
    Math.System (PriQueueT α) (PriQueueCall α × BliveErrno × Option α) where
  init q := ∃ (initialSize : ℤ) (sizeAdaption : Bool), 0 < initialSize ∧ initialSize < 2 ^ 31 ∧
    priQueueCreate initialSize sizeAdaption cb true true = some (some q)
  step q label q' := label.1.MallocContract q ∧ call q label.1 = some (label.2, q')

end BliveQueue.Utils.PriQueue
