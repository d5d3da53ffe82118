/-
# Failing allocations

Four allocations can fail: the queue and its block in `pri_queue_create`, the cell of
an element and the larger block in `pri_queue_push`. The failures of the first and the
third are undone. The second one is not noticed, because `pri_queue_create` tests
`new_queue` again where it means the block, and the fourth overwrites the only pointer
to the block, so the retry follows a null pointer.
-/

import BliveQueue.PriQueue.Blocking

namespace BliveQueue.PriQueue

open BliveQueue.Math BliveQueue.Math.BinaryHeap BliveQueue.Utils BliveQueue.Utils.PriQueue

variable {α : Type} {cb : α → α → Bool} {q q' : PriQueueT α} {heap : InnHeap α}
variable {slot : ℕ → Addr × α} {x : α} {mem : Option Addr} {remem : Bool}

/-! ## Usable queues -/

/-- Pop `n` times; each pop has to answer an element. -/
def drain : ℕ → PriQueueT α → Option (List α × PriQueueT α)
  | 0, q => some ([], q)
  | n + 1, q =>
    match priQueuePopTrywait q none with
    | some (.ok, some x, q) => (drain n q).map fun r => (x :: r.1, r.2)
    | _ => none

/-- All elements can be popped, and nothing else is. -/
def Drains (q : PriQueueT α) : Prop :=
  ∃ xs q', drain q.size q = some (xs, q') ∧ (xs : Multiset α) = q.contents ∧ q'.size = 0

/-- Push data whose cells `zero_alloc` answers; each push has to succeed. -/
def pushAll : PriQueueT α → List (α × Addr) → Option (PriQueueT α)
  | q, [] => some q
  | q, (x, a) :: items =>
    match priQueuePush q (some x) (some a) true with
    | some (.ok, q) => pushAll q items
    | _ => none

/-- An empty queue that takes up to `capacity` elements and gives them back. -/
def FullyUsable (q : PriQueueT α) (capacity : ℕ) : Prop :=
  q.size = 0 ∧ q.contents = 0 ∧
    ∀ items : List (α × Addr), items.length ≤ capacity → (items.map Prod.snd).Nodup →
      ∃ q', pushAll q items = some q' ∧ q'.contents = items.map Prod.fst ∧ Drains q'

/-- `pri_queue_create` answers `NULL` or a fully usable queue, and touches no block that
it did not get. -/
def CreatesUsable (cb : α → α → Bool) (initialSize : Int32) (sizeAdaption mem heapMem : Bool) :
    Prop :=
  ∃ r, priQueueCreate initialSize.toInt sizeAdaption cb mem heapMem = some r ∧
    ∀ q ∈ r, FullyUsable q initialSize.toInt.toNat

/-- The push asks for memory and gets none: for the element's cell, or for the larger
block of a full adaptive queue. -/
def HitsFailure (q : PriQueueT α) (mem : Option Addr) (remem : Bool) : Prop :=
  (q.size < q.capacity ∧ mem = none) ∨
    (q.capacity ≤ q.size ∧ q.adaption = true ∧ remem = false)

/-- The push returns an error and every element is still there, in its slot, and can be
popped. -/
def KeepsElements (q : PriQueueT α) (x : α) (mem : Option Addr) (remem : Bool) : Prop :=
  ∃ code q', priQueuePush q (some x) mem remem = some (code, q') ∧ code ≠ .ok ∧
    (∀ i, q'.entry i = q.entry i) ∧ q'.size = q.size ∧ q'.contents = q.contents ∧ Drains q'

/-! ## Storing queues -/

theorem Stores.exists_drain (st : Stores cb q heap slot) :
    ∃ xs q', drain heap.curSize q = some (xs, q') ∧ (xs : Multiset α) = q.contents ∧
      q'.size = 0 := by
  induction hsize : heap.curSize generalizing q heap slot with
  | zero =>
      refine ⟨[], q, rfl, ?_, st.size_eq.trans hsize⟩
      rw [st.contents_eq, hsize]
      rfl
  | succ n ih =>
      obtain ⟨q₁, slots, hpop, -, st₁⟩ := st.pop hsize none
      obtain ⟨xs, q', hdrain, hcontents, hempty⟩ := ih st₁ rfl
      refine ⟨(slot 1).2 :: xs, q', ?_, ?_, hempty⟩
      · rw [drain, hpop]
        simp only [hdrain, Option.map_some]
      · rw [← Multiset.cons_coe, hcontents, st.contents_popped hsize st₁]

/-- A queue that stores an array can be drained. -/
theorem Stores.drains (st : Stores cb q heap slot) : Drains q := by
  obtain ⟨xs, q', hdrain, hrest⟩ := st.exists_drain
  exact ⟨xs, q', st.size_eq ▸ hdrain, hrest⟩

/-- Pushes within the capacity succeed and add their data. -/
theorem Stores.exists_pushAll (st : Stores cb q heap slot) (items : List (α × Addr))
    (hfits : heap.curSize + items.length ≤ heap.maxSize)
    (hfree : ∀ item ∈ items, q.cell item.2 = none) (hnodup : (items.map Prod.snd).Nodup) :
    ∃ q' heap' slot', pushAll q items = some q' ∧ Stores cb q' heap' slot' ∧
      q'.contents = (items.map Prod.fst : Multiset α) + q.contents := by
  induction items generalizing q heap slot with
  | nil => exact ⟨q, heap, slot, rfl, st, (zero_add _).symm⟩
  | cons item items ih =>
      obtain ⟨x, a⟩ := item
      rw [List.length_cons] at hfits
      obtain ⟨hnew, hnodup'⟩ := List.nodup_cons.mp hnodup
      obtain ⟨heap₁, cell₁, hpush, ⟨mem, rfl⟩, rfl, st₁⟩ :=
        st.of_heapPush (show heap.curSize < heap.maxSize by omega) (hfree _ List.mem_cons_self)
          (x := x)
      have hfree' : ∀ item ∈ items, Function.update q.cell a (some x) item.2 = none := by
        intro item hitem
        have hne : item.2 ≠ a := fun heq => hnew (List.mem_map.mpr ⟨item, hitem, heq⟩)
        rw [Function.update_of_ne hne]
        exact hfree item (List.mem_cons_of_mem _ hitem)
      have hfits' : heap.curSize + 1 + items.length ≤ heap.maxSize := by omega
      obtain ⟨q', heap', slot', hall, st', hcontents⟩ := ih st₁ hfits' hfree' hnodup'
      refine ⟨q', heap', slot', ?_, st', ?_⟩
      · rw [pushAll, priQueuePush_of_heapPush st.heap_eq hpush true]
        exact hall
      · rw [hcontents, st.contents_pushed st₁, List.map_cons, ← Multiset.cons_coe,
          Multiset.cons_add, Multiset.add_cons]

/-! ## Creation -/

theorem capacity_newQueue (cb : α → α → Bool) {initialSize : ℤ} (hpos : 0 < initialSize)
    (hint : initialSize < 2 ^ 31) (sizeAdaption : Bool) :
    (newQueue cb initialSize sizeAdaption).capacity = initialSize.toNat := by
  show (initialSize % 2 ^ 32).toNat = initialSize.toNat
  omega

/-- A new queue is fully usable. -/
theorem fullyUsable_newQueue (cb : α → α → Bool) {initialSize : ℤ} (hpos : 0 < initialSize)
    (hint : initialSize < 2 ^ 31) (sizeAdaption : Bool) :
    FullyUsable (newQueue cb initialSize sizeAdaption) initialSize.toNat := by
  refine ⟨rfl, rfl, fun items hlength hnodup => ?_⟩
  cases items with
  | nil => exact ⟨_, rfl, rfl, [], _, rfl, rfl, rfl⟩
  | cons item items =>
      have hdata : Nonempty α := ⟨item.1⟩
      obtain ⟨heap, slot, st, hempty⟩ := exists_stores_newQueue cb hpos hint sizeAdaption
      have hcapacity := capacity_newQueue cb hpos hint sizeAdaption
      rw [st.capacity_eq] at hcapacity
      obtain ⟨q', heap', slot', hall, st', hcontents⟩ :=
        st.exists_pushAll (item :: items) (by omega) (fun _ _ => rfl) hnodup
      exact ⟨q', hall, hcontents.trans (add_zero _), st'.drains⟩

/-- Creation is safe exactly when it does not have to notice that the block is missing. -/
theorem createsUsable_iff (cb : α → α → Bool) (initialSize : Int32)
    (sizeAdaption mem heapMem : Bool) :
    CreatesUsable cb initialSize sizeAdaption mem heapMem ↔
      ¬ (0 < initialSize.toInt ∧ mem = true ∧ heapMem = false) := by
  by_cases hnull : initialSize.toInt ≤ 0 ∨ mem = false
  · have hnot : ¬ (0 < initialSize.toInt ∧ mem = true ∧ heapMem = false) := by
      rintro ⟨hpos, rfl, -⟩
      exact hnull.elim hpos.not_ge (absurd · Bool.noConfusion)
    refine iff_of_true ⟨none, ?_, fun q hq => absurd hq (Option.not_mem_none q)⟩ hnot
    exact if_pos hnull
  · have hpos : 0 < initialSize.toInt := not_le.mp fun hle => hnull (Or.inl hle)
    have hmem : mem = true := Bool.eq_true_of_not_eq_false fun heq => hnull (Or.inr heq)
    subst hmem
    cases heapMem with
    | true =>
        have husable := fullyUsable_newQueue cb hpos initialSize.toInt_lt sizeAdaption
        refine iff_of_true ⟨_, priQueueCreate_eq hpos sizeAdaption, ?_⟩ (by simp)
        intro q hq
        rwa [← Option.some.inj hq]
    | false =>
        refine iff_of_false ?_ (not_not_intro ⟨hpos, rfl, rfl⟩)
        rintro ⟨r, hcreate, -⟩
        rw [priQueueCreate, if_neg hnull, if_neg Bool.false_ne_true] at hcreate
        exact Option.some_ne_none r hcreate.symm

/-! ## Pushes -/

theorem Sane.popTrywait (h : Sane cb q) {pdata data : Option α} {code : BliveErrno}
    (hpop : priQueuePopTrywait q pdata = some (code, data, q')) : Sane cb q' := by
  rcases h with ⟨heap, slot, st⟩ | ⟨heap, hshrunk⟩
  · cases hsize : heap.curSize with
    | zero =>
        rw [st.pop_empty hsize] at hpop
        cases hpop
        exact Or.inl ⟨heap, slot, st⟩
    | succ n =>
        obtain ⟨q'', slots, htry, -, st'⟩ := st.pop hsize pdata
        rw [htry] at hpop
        cases hpop
        exact Or.inl ⟨_, _, st'⟩
  · rw [hshrunk.popTrywait_eq] at hpop
    cases hpop

theorem Sane.call (h : Sane cb q) {c : PriQueueCall α} (hmalloc : c.MallocContract q)
    {out : BliveErrno × Option α} (hcall : PriQueue.call q c = some (out, q')) : Sane cb q' := by
  cases c with
  | push data mem remem =>
      obtain ⟨⟨code, q''⟩, hpush, heq⟩ := Option.map_eq_some_iff.mp hcall
      cases heq
      exact h.push hmalloc hpush
  | popTrywait =>
      obtain ⟨⟨code, data, q''⟩, hpop, heq⟩ := Option.map_eq_some_iff.mp hcall
      cases heq
      exact h.popTrywait hpop
  | peek =>
      obtain ⟨answer, -, heq⟩ := Option.map_eq_some_iff.mp hcall
      cases heq
      exact h

/-- Every queue that calls can reach is sane, whichever allocations failed. -/
theorem sane_of_calls [Nonempty α] {history : List (PriQueueCall α × BliveErrno × Option α)}
    (run : (priQueueSystem cb).Trace history q) : Sane cb q := by
  apply run.invariant (I := fun _ q => Sane cb q)
  · intro q hinit
    obtain ⟨initialSize, sizeAdaption, hpos, hint, rfl⟩ := exists_eq_newQueue_of_init hinit
    obtain ⟨heap, slot, st, -⟩ := exists_stores_newQueue cb hpos hint sizeAdaption
    exact Or.inl ⟨heap, slot, st⟩
  · rintro history q label q' - hsane - ⟨hmalloc, hcall⟩
    exact hsane.call hmalloc hcall

/-- A shrunk queue is full. -/
theorem Shrunk.size_eq_capacity (h : Shrunk q heap) : q.size = q.capacity := by
  simp only [PriQueueT.size, PriQueueT.capacity, h.heap_eq, Option.map_some, Option.getD_some,
    h.full]

theorem Stores.keepsElements (st : Stores cb q heap slot) (hbelow : heap.curSize < heap.maxSize)
    (x : α) (remem : Bool) : KeepsElements q x none remem :=
  ⟨.outOfMem, q, st.push_outOfMem hbelow remem, by decide, fun _ => rfl, rfl, rfl, st.drains⟩

/-- A full adaptive queue does not survive the failure of `realloc`. -/
theorem priQueuePush_of_realloc_failed (hheap : q.heap = some heap)
    (hfull : heap.curSize = heap.maxSize) (hadapt : q.adaption = true) :
    priQueuePush q (some x) mem false = none :=
  priQueuePush_adaptive hheap hfull hadapt mem false

theorem Sane.exists_heap (h : Sane cb q) :
    ∃ heap, q.heap = some heap ∧ heap.curSize ≤ heap.maxSize := by
  rcases h with ⟨heap, slot, st⟩ | ⟨heap, hshrunk⟩
  · exact ⟨heap, st.heap_eq, st.fits⟩
  · exact ⟨heap, hshrunk.heap_eq, hshrunk.full.le⟩

theorem Sane.keepsElements_iff (h : Sane cb q) (hfails : HitsFailure q mem remem) :
    KeepsElements q x mem remem ↔ q.size < q.capacity := by
  rcases hfails with ⟨hbelow, rfl⟩ | ⟨hfull, hadapt, rfl⟩
  · refine iff_of_true ?_ hbelow
    rcases h with ⟨heap, slot, st⟩ | ⟨heap, hshrunk⟩
    · rw [st.size_eq, st.capacity_eq] at hbelow
      exact st.keepsElements hbelow x remem
    · exact absurd hshrunk.size_eq_capacity hbelow.ne
  · refine iff_of_false ?_ hfull.not_gt
    rintro ⟨code, q', hpush, -⟩
    obtain ⟨heap, hheap, hle⟩ := h.exists_heap
    simp only [PriQueueT.size, PriQueueT.capacity, hheap, Option.map_some, Option.getD_some]
      at hfull
    rw [priQueuePush_of_realloc_failed hheap (hle.antisymm hfull) hadapt] at hpush
    exact Option.some_ne_none _ hpush.symm

/-- Failing allocations leave a usable queue or none, exactly when neither the block of a
new queue fails nor the larger block of a full one. -/
theorem failures_survived_iff {history : List (PriQueueCall α × BliveErrno × Option α)}
    (run : (priQueueSystem cb).Trace history q) (hfails : HitsFailure q mem remem) (x : α)
    (initialSize : Int32) (sizeAdaption queueMem heapMem : Bool) :
    (CreatesUsable cb initialSize sizeAdaption queueMem heapMem ↔
      ¬ (0 < initialSize.toInt ∧ queueMem = true ∧ heapMem = false)) ∧
    (KeepsElements q x mem remem ↔ q.size < q.capacity) := by
  have hdata : Nonempty α := ⟨x⟩
  exact ⟨createsUsable_iff cb initialSize sizeAdaption queueMem heapMem,
    (sane_of_calls run).keepsElements_iff hfails⟩

/-- A queue for two elements is created, and a push for which there is no cell leaves the
stored element alone. -/
theorem failures_survived_of_room :
    ∃ history q, (priQueueSystem Nat.ble).Trace history q ∧ q.contents = {9} ∧
      HitsFailure q none false ∧ CreatesUsable Nat.ble 2 false true true ∧
      KeepsElements q 7 none false := by
  obtain ⟨history, q, run, htest⟩ := exists_run Nat.ble System.anyStep
    (show (0 : ℤ) < 2 by decide) (by decide) false [.push (some 9) (some 0) true]
    (fun r => r.2.contents = {9} ∧ r.2.size < r.2.capacity) (by decide +kernel)
  obtain ⟨hcontents, hbelow⟩ := of_decide_eq_true htest
  have hfails : HitsFailure q none false := Or.inl ⟨hbelow, rfl⟩
  obtain ⟨hcreates, hkeeps⟩ := failures_survived_iff run hfails 7 2 false true true
  exact ⟨history, q, run, hcontents, hfails, hcreates.mpr (by decide), hkeeps.mpr hbelow⟩

/-- The block of a new queue fails: the source writes to it all the same. The larger block
of a full adaptive queue fails: the stored element is lost. -/
theorem exists_failure_not_survived :
    ¬ CreatesUsable Nat.ble 1 false true false ∧
      ∃ history q, (priQueueSystem Nat.ble).Trace history q ∧ q.contents = {9} ∧
        HitsFailure q (some 1) false ∧ ¬ KeepsElements q 7 (some 1) false := by
  refine ⟨?_, ?_⟩
  · rintro ⟨r, hcreate, -⟩
    exact Option.some_ne_none r hcreate.symm
  · obtain ⟨history, q, run, htest⟩ := exists_run Nat.ble System.anyStep
      (show (0 : ℤ) < 1 by decide) (by decide) true [.push (some 9) (some 0) true]
      (fun r => r.2.contents = {9} ∧ r.2.capacity ≤ r.2.size ∧ r.2.adaption = true ∧
        (priQueuePush r.2 (some 7) (some 1) false).isNone = true) (by decide +kernel)
    obtain ⟨hcontents, hfull, hadapt, hcrash⟩ := of_decide_eq_true htest
    refine ⟨history, q, run, hcontents, Or.inr ⟨hfull, hadapt, rfl⟩, ?_⟩
    rintro ⟨code, q', hpush, -⟩
    rw [Option.isNone_iff_eq_none.mp hcrash] at hpush
    exact Option.some_ne_none _ hpush.symm

end BliveQueue.PriQueue
