/-
# The adaptive queue

A push on a full adaptive queue reallocates the block to twice the number of slots
in bytes, which is smaller than before, and leaves `max_size` alone, so the retry
is refused. As long as no push finds the queue full, every push succeeds and adds
its element, and the block has room for all slots in use.
-/

import BliveQueue.PriQueue.Refinement

namespace BliveQueue.PriQueue

open BliveQueue.Math BliveQueue.Math.BinaryHeap BliveQueue.Utils BliveQueue.Utils.PriQueue

variable {α : Type} {cb : α → α → Bool} {q q' : PriQueueT α} {heap : InnHeap α}
variable {slot : ℕ → Addr × α} {x : α}

/-- The queue under the calls of a client who created it with adaption. -/
def adaptiveSystem (cb : α → α → Bool) :
    System (PriQueueT α) (PriQueueCall α × BliveErrno × Option α) where
  init q := (priQueueSystem cb).init q ∧ q.adaption = true
  step := (priQueueSystem cb).step

/-- The call is a push. -/
def IsPush : PriQueueCall α → Prop
  | .push _ _ _ => True
  | _ => False

instance : (c : PriQueueCall α) → Decidable (IsPush c)
  | .push _ _ _ => inferInstanceAs (Decidable True)
  | .popTrywait | .peek => inferInstanceAs (Decidable False)

/-- A push of data for which both allocations succeed. -/
def Granted : PriQueueCall α → Prop
  | .push data mem remem => data.isSome ∧ mem.isSome ∧ remem = true
  | _ => True

instance : (c : PriQueueCall α) → Decidable (Granted c)
  | .push _ _ _ => inferInstanceAs (Decidable (_ ∧ _ ∧ _))
  | .popTrywait | .peek => inferInstanceAs (Decidable True)

/-- A granted call; no push finds the queue full. -/
def WithinCapacity (q : PriQueueT α) (label : PriQueueCall α × BliveErrno × Option α) : Prop :=
  Granted label.1 ∧ (IsPush label.1 → q.size < q.capacity)

instance (q : PriQueueT α) (label : PriQueueCall α × BliveErrno × Option α) :
    Decidable (WithinCapacity q label) := inferInstanceAs (Decidable (_ ∧ (_ → _)))

/-- The block has room for the slots in use, and each of them points to allocated data. -/
def Roomy (q : PriQueueT α) : Prop :=
  ∃ heap, q.heap = some heap ∧
    sizeofInnHeap + (heap.curSize + 1) * sizeofHeapElement ≤ heap.bytes ∧
    ∀ i, 1 ≤ i → i ≤ heap.curSize → (q.entry i).isSome = true

theorem Stores.roomy (st : Stores cb q heap slot) : Roomy q := by
  refine ⟨heap, st.heap_eq, InBlock.mono st.room st.fits, fun i h1 hi => ?_⟩
  obtain ⟨hslot, hcell⟩ := st.holds i h1 hi
  simp [PriQueueT.entry, st.heap_eq, hslot, hcell]

/-! ## The full queue -/

/-- A granted push on an adaptive queue succeeds exactly below capacity. -/
theorem Stores.push_ok_iff (st : Stores cb q heap slot) (hadapt : q.adaption = true) {a : Addr}
    (hmalloc : q.cell a = none) :
    (∃ q', call q (.push (some x) (some a) true) = some ((.ok, none), q') ∧
      q'.contents = x ::ₘ q.contents) ↔ q.size < q.capacity := by
  rw [st.size_eq, st.capacity_eq]
  constructor
  · rintro ⟨q', hcall, -⟩
    by_contra hfull
    have hfull : heap.curSize = heap.maxSize := by
      have hfits := st.fits
      omega
    rw [call, priQueuePush_adaptive st.heap_eq hfull hadapt] at hcall
    exact absurd (congrArg (Option.map fun r => r.1.1) hcall) (by simp [reallocHeap])
  · intro hbelow
    obtain ⟨q', mem, hpush, -, hstores⟩ := st.push hbelow hmalloc true (x := x)
    refine ⟨q', ?_, st.contents_pushed hstores⟩
    rw [call, hpush]
    rfl

/-! ## Runs -/

/-- A step within capacity keeps the queue storing; a push answers `BLIVE_ERR_OK`. -/
theorem Outcome.stores {c : PriQueueCall α} {code : BliveErrno} {data : Option α}
    (st : Stores cb q heap slot) (hgranted : Granted c) (hadapt : q.adaption = true)
    (out : Outcome cb q heap slot c code data q') :
    (∃ heap' slot', Stores cb q' heap' slot') ∧ q'.adaption = true ∧ (IsPush c → code = .ok) := by
  cases out with
  | invalid => exact absurd hgranted.1 nofun
  | outOfMem => exact absurd hgranted.2.1 nofun
  | refused _ fixed => exact absurd (hadapt.symm.trans fixed) nofun
  | pushed _ adaption stores =>
      exact ⟨⟨_, _, stores⟩, adaption.trans hadapt, fun _ => rfl⟩
  | popped _ adaption stores => exact ⟨⟨_, _, stores⟩, adaption.trans hadapt, nofun⟩
  | popEmpty => exact ⟨⟨heap, slot, st⟩, hadapt, nofun⟩
  | peekEmpty => exact ⟨⟨heap, slot, st⟩, hadapt, nofun⟩
  | peeked => exact ⟨⟨heap, slot, st⟩, hadapt, nofun⟩

/-- A call within capacity does not exceed it. -/
theorem WithinCapacity.neverExceeds {label : PriQueueCall α × BliveErrno × Option α}
    (h : WithinCapacity q label) : NeverExceeds q label.1 := by
  obtain ⟨c, out⟩ := label
  cases c with
  | push data mem remem =>
      cases data with
      | none => trivial
      | some x => exact Or.inl (h.2 trivial)
  | popTrywait => trivial
  | peek => trivial

theorem Run.stores [Nonempty α] {history : List (PriQueueCall α × BliveErrno × Option α)}
    (run : (adaptiveSystem cb).Run WithinCapacity history q) :
    (∃ heap slot, Stores cb q heap slot) ∧ q.adaption = true ∧
      ∀ label ∈ history, IsPush label.1 → label.2.1 = .ok := by
  refine run.invariant (I := fun history q => (∃ heap slot, Stores cb q heap slot) ∧
    q.adaption = true ∧ ∀ label ∈ history, IsPush label.1 → label.2.1 = .ok) ?_ ?_
  · rintro q ⟨hinit, hadapt⟩
    obtain ⟨initialSize, sizeAdaption, hpos, hint, rfl⟩ := exists_eq_newQueue_of_init hinit
    obtain ⟨heap, slot, hstores, -⟩ := exists_stores_newQueue cb hpos hint sizeAdaption
    exact ⟨⟨heap, slot, hstores⟩, hadapt, nofun⟩
  · rintro history q ⟨c, out⟩ q' - ⟨⟨heap, slot, hstores⟩, hadapt, hok⟩ hwithin ⟨hmalloc, hcall⟩
    have hout := hstores.outcome hmalloc hwithin.neverExceeds hcall
    obtain ⟨hstores', hadapt', hcode⟩ := hout.stores hstores hwithin.1 hadapt
    refine ⟨hstores', hadapt', fun label hlabel => ?_⟩
    rcases List.mem_append.mp hlabel with hold | hnew
    · exact hok label hold
    · obtain rfl := List.mem_singleton.mp hnew
      exact hcode

/-- As long as no push finds the queue full, an adaptive queue refuses and loses
nothing. The next push succeeds exactly when the queue is not full. -/
theorem adaptive_never_refuses [Nonempty α]
    {history : List (PriQueueCall α × BliveErrno × Option α)}
    (run : (adaptiveSystem cb).Run WithinCapacity history q) :
    (∀ label ∈ history, IsPush label.1 → label.2.1 = .ok) ∧ Roomy q ∧
      (∀ x a, q.cell a = none →
        ((∃ q', call q (.push (some x) (some a) true) = some ((.ok, none), q') ∧
          q'.contents = x ::ₘ q.contents) ↔ q.size < q.capacity)) ∧
      ∀ e q', call q .popTrywait = some ((.ok, some e), q') →
        e ::ₘ q'.contents = q.contents := by
  obtain ⟨⟨heap, slot, hstores⟩, hadapt, hok⟩ := Run.stores run
  refine ⟨hok, hstores.roomy, fun x a => hstores.push_ok_iff hadapt, fun e q' hcall => ?_⟩
  have hout := hstores.outcome (c := .popTrywait) trivial trivial hcall
  generalize hdata : ((BliveErrno.ok, some e) : BliveErrno × Option α).2 = data at hout
  cases hout with
  | popped size _ stores =>
      obtain rfl := Option.some.inj hdata
      exact hstores.contents_popped size stores

/-- A test passed by an execution of an adaptive queue is passed at the end of a run. -/
theorem exists_adaptive_run (cb : α → α → Bool)
    (guard : PriQueueT α → PriQueueCall α × BliveErrno × Option α → Prop)
    [∀ q label, Decidable (guard q label)] {initialSize : ℤ} (hpos : 0 < initialSize)
    (hint : initialSize < 2 ^ 31) (calls : List (PriQueueCall α))
    (test : List (PriQueueCall α × BliveErrno × Option α) × PriQueueT α → Bool)
    (h : (System.execute (System.callNext (fun q c => c.MallocContract q) PriQueue.call guard)
      (newQueue cb initialSize true) calls).any test = true) :
    ∃ history q, (adaptiveSystem cb).Run guard history q ∧ test (history, q) = true :=
  have hinit : (adaptiveSystem cb).init (newQueue cb initialSize true) :=
    ⟨⟨initialSize, true, hpos, hint, priQueueCreate_eq hpos true⟩, rfl⟩
  System.Run.exists_of_execute System.callNext_sound hinit _ _ h

/-- A queue of two, filled: the block has room and the next push is refused. -/
theorem adaptive_never_refuses_below_capacity :
    ∃ history q, (adaptiveSystem Nat.ble).Run WithinCapacity history q ∧
      q.contents = {8, 9} ∧ q.size = q.capacity ∧
      (∀ label ∈ history, IsPush label.1 → label.2.1 = .ok) ∧ Roomy q ∧
      (∀ x a, q.cell a = none →
        ((∃ q', call q (.push (some x) (some a) true) = some ((.ok, none), q') ∧
          q'.contents = x ::ₘ q.contents) ↔ q.size < q.capacity)) ∧
      ∀ e q', call q .popTrywait = some ((.ok, some e), q') →
        e ::ₘ q'.contents = q.contents := by
  obtain ⟨history, q, run, htest⟩ := exists_adaptive_run Nat.ble WithinCapacity
    (show (0 : ℤ) < 2 by decide) (by decide)
    [.push (some 9) (some 0) true, .push (some 7) (some 1) true, .popTrywait,
      .push (some 8) (some 1) true]
    (fun r => r.2.contents = {8, 9} ∧ r.2.size = r.2.capacity) (by decide +kernel)
  obtain ⟨hcontents, hfull⟩ := of_decide_eq_true htest
  exact ⟨history, q, run, hcontents, hfull, adaptive_never_refuses run⟩

/-- The second push on an adaptive queue of initial size 1 is refused, and the block
has shrunk below slot 1: the first element is out of reach. -/
theorem exists_run_refused :
    ∃ (history : List (PriQueueCall ℕ × BliveErrno × Option ℕ)) (q : PriQueueT ℕ),
      (adaptiveSystem Nat.ble).Run (fun _ label => Granted label.1) history q ∧
      (∃ label ∈ history, IsPush label.1 ∧ label.2.1 = .resource) ∧ q.size = 1 ∧
      q.contents = 0 ∧ ¬ Roomy q := by
  obtain ⟨history, q, run, htest⟩ := exists_adaptive_run Nat.ble (fun _ label => Granted label.1)
    (show (0 : ℤ) < 1 by decide) (by decide)
    [.push (some 9) (some 0) true, .push (some 7) (some 1) true]
    (fun r => (∃ label ∈ r.1, IsPush label.1 ∧ label.2.1 = .resource) ∧ r.2.size = 1 ∧
      r.2.contents = 0 ∧ r.2.heap.all fun heap => ¬ heap.InBlock (heap.curSize))
    (by decide +kernel)
  obtain ⟨hrefused, hsize, hcontents, hshrunk⟩ := of_decide_eq_true htest
  refine ⟨history, q, run, hrefused, hsize, hcontents, ?_⟩
  rintro ⟨heap, hheap, hroom, -⟩
  rw [hheap] at hshrunk
  exact of_decide_eq_true hshrunk hroom

end BliveQueue.PriQueue
