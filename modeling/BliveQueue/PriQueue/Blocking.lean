/-
# Blocking pops

A pop that finds the queue empty and may wait does so once, and then answers
`BLIVE_ERR_OK` without looking at the queue again. All other pops deliver: they answer
`BLIVE_ERR_OK` exactly when they have removed the root and stored it. This holds in
every state that pushes and pops can reach, also when a push on a full adaptive queue
has shrunk the block: from such a queue no pop returns.
-/

import Mathlib.Logic.Relation
import BliveQueue.PriQueue.Refinement
import BliveQueue.Utils.PriQueuePop

namespace BliveQueue.PriQueue

open BliveQueue.Math BliveQueue.Math.BinaryHeap BliveQueue.Utils BliveQueue.Utils.PriQueue
open BliveQueue.Utils.PriQueue.Shared

variable {α : Type} {cb : α → α → Bool} {q q' : PriQueueT α} {heap : InnHeap α}
variable {slot : ℕ → Addr × α} {x : α} {s s' : Shared α} {t : ℕ} {c : PopCall}
variable {dest : Option (Option α)} {pdata : Option α} {code : BliveErrno}
variable {mem : Option Addr} {remem : Bool}

/-! ## The queue after any pushes -/

/-- A full adaptive queue whose block has been reallocated below its last slot. -/
structure Shrunk (q : PriQueueT α) (heap : InnHeap α) : Prop where
  heap_eq : q.heap = some heap
  full : heap.curSize = heap.maxSize
  pos : 1 ≤ heap.maxSize
  adaption : q.adaption = true
  bytes : heap.bytes = toSizeT (reallocSize heap.maxSize)
  out : ¬ heap.InBlock heap.maxSize

/-- What a run can make of a queue. -/
def Sane (cb : α → α → Bool) (q : PriQueueT α) : Prop :=
  (∃ heap slot, Stores cb q heap slot) ∨ ∃ heap, Shrunk q heap

/-- What reallocation of the block keeps. -/
structure Reallocated (heap heap' : InnHeap α) : Prop where
  curSize : heap'.curSize = heap.curSize
  maxSize : heap'.maxSize = heap.maxSize
  cb : heap'.elemCompareCb = heap.elemCompareCb
  bytes : heap'.bytes = toSizeT (reallocSize heap.maxSize)
  slots : ∀ i, heap.InBlock i → heap'.InBlock i → heap'.heapMem i = heap.heapMem i

theorem exists_reallocated (heap : InnHeap α) :
    ∃ heap', reallocHeap heap true = some heap' ∧ Reallocated heap heap' := by
  have hrealloc : (reallocHeap heap true).isSome = true := rfl
  obtain ⟨heap', heq⟩ := Option.isSome_iff_exists.mp hrealloc
  refine ⟨heap', heq, ?_⟩
  simp only [reallocHeap, if_true, Option.some.injEq] at heq
  subst heq
  refine ⟨rfl, rfl, rfl, by simp only, fun i hold hnew => ?_⟩
  simp only [InnHeap.InBlock] at hold hnew
  simp only [le_min_iff, hold, hnew, and_self, if_true]

/-- A push on a full adaptive queue that returns has reallocated the block. -/
theorem push_full_adaptive (hheap : q.heap = some heap) (hfull : heap.curSize = heap.maxSize)
    (hadapt : q.adaption = true)
    (hpush : priQueuePush q (some x) mem remem = some (code, q')) :
    code = .resource ∧ ∃ heap', Reallocated heap heap' ∧ q' = { q with heap := some heap' } := by
  rw [priQueuePush_adaptive hheap hfull hadapt] at hpush
  cases remem with
  | false => cases hpush
  | true =>
      obtain ⟨heap', hrealloc, hkept⟩ := exists_reallocated heap
      rw [hrealloc, Option.map_some, Option.some.injEq, Prod.mk.injEq] at hpush
      obtain ⟨rfl, rfl⟩ := hpush
      exact ⟨rfl, heap', hkept, rfl⟩

/-- A reallocated block that still has room stores the same array. -/
theorem Stores.realloc_room (st : Stores cb q heap slot) (hfull : heap.curSize = heap.maxSize)
    {heap' : InnHeap α} (hkept : Reallocated heap heap') (hroom : heap'.InBlock heap'.maxSize) :
    Stores cb { q with heap := some heap' } heap' slot := by
  have hfull' : heap'.curSize = heap'.maxSize := by rw [hkept.curSize, hkept.maxSize, hfull]
  have hpos : 1 ≤ heap'.maxSize := hkept.maxSize ▸ st.pos
  refine ⟨rfl, hkept.cb.trans st.cb_eq, hfull'.le, hpos, hroom, fun i h1 hi => ?_, ?_⟩
  · rw [hkept.curSize] at hi
    obtain ⟨hslot, hcell⟩ := st.holds i h1 hi
    have hnew : heap'.InBlock i := InBlock.mono hroom (by rw [hkept.maxSize]; omega)
    exact ⟨(hkept.slots i (InBlock.mono st.room (by omega)) hnew).trans hslot, hcell⟩
  · rw [hkept.curSize]
    exact st.distinct

/-- A reallocated block without room is shrunk. -/
theorem Stores.realloc_shrunk (st : Stores cb q heap slot) (hfull : heap.curSize = heap.maxSize)
    (hadapt : q.adaption = true) {heap' : InnHeap α} (hkept : Reallocated heap heap')
    (hroom : ¬ heap'.InBlock heap'.maxSize) : Shrunk { q with heap := some heap' } heap' := by
  refine ⟨rfl, by rw [hkept.curSize, hkept.maxSize, hfull], hkept.maxSize ▸ st.pos, hadapt, ?_,
    hroom⟩
  rw [hkept.bytes, hkept.maxSize]

/-- Reallocation either keeps all slots in use or shrinks the block below the last one. -/
theorem Stores.realloc (st : Stores cb q heap slot) (hfull : heap.curSize = heap.maxSize)
    (hadapt : q.adaption = true) {heap' : InnHeap α} (hkept : Reallocated heap heap') :
    Sane cb { q with heap := some heap' } := by
  by_cases hroom : heap'.InBlock heap'.maxSize
  · exact Or.inl ⟨heap', slot, st.realloc_room hfull hkept hroom⟩
  · exact Or.inr ⟨heap', st.realloc_shrunk hfull hadapt hkept hroom⟩

theorem Shrunk.realloc (h : Shrunk q heap) {heap' : InnHeap α} (hkept : Reallocated heap heap') :
    Shrunk { q with heap := some heap' } heap' := by
  have hbytes : heap'.bytes = heap.bytes := by rw [hkept.bytes, h.bytes]
  refine ⟨rfl, ?_, ?_, h.adaption, ?_, ?_⟩
  · rw [hkept.curSize, hkept.maxSize, h.full]
  · rw [hkept.maxSize]
    exact h.pos
  · rw [hkept.bytes, hkept.maxSize]
  · have hout := h.out
    rwa [InnHeap.InBlock, ← hbytes, ← hkept.maxSize] at hout

/-- Every push keeps the queue sane. -/
theorem Sane.push (h : Sane cb q) {data : Option α}
    (hmalloc : PriQueueCall.MallocContract q (.push data mem remem))
    (hpush : priQueuePush q data mem remem = some (code, q')) : Sane cb q' := by
  cases data with
  | none =>
      cases hpush
      exact h
  | some x =>
      rcases h with ⟨heap, slot, st⟩ | ⟨heap, hshrunk⟩
      · by_cases hfits : NeverExceeds q (.push (some x) mem remem)
        · have hcall : PriQueue.call q (.push (some x) mem remem) = some ((code, none), q') := by
            rw [PriQueue.call, hpush]
            rfl
          cases st.outcome hmalloc hfits hcall with
          | refused _ _ => exact Or.inl ⟨_, _, st⟩
          | outOfMem _ => exact Or.inl ⟨_, _, st⟩
          | pushed _ _ stores => exact Or.inl ⟨_, _, stores⟩
        · simp only [NeverExceeds, st.size_eq, st.capacity_eq, not_or, not_lt,
            Bool.not_eq_false] at hfits
          have hfull := st.fits.antisymm hfits.1
          obtain ⟨-, heap', hkept, rfl⟩ := push_full_adaptive st.heap_eq hfull hfits.2 hpush
          exact st.realloc hfull hfits.2 hkept
      · obtain ⟨-, heap', hkept, rfl⟩ :=
          push_full_adaptive hshrunk.heap_eq hshrunk.full hshrunk.adaption hpush
        exact Or.inr ⟨heap', hshrunk.realloc hkept⟩

/-! ## Pops -/

/-- The step removed the root `x` of the queue and nothing else. -/
def RemovesRoot (x : α) (q q' : PriQueueT α) : Prop :=
  q.entry 1 = some x ∧ x ::ₘ q'.contents = q.contents

/-- No pop of a shrunk queue returns: it reads the slot that was cut off. -/
theorem Shrunk.heapPop_eq (h : Shrunk q heap) : heapPop q.cell heap = none := by
  have hread : readSlot heap heap.curSize = none := by
    rw [h.full]
    exact if_neg h.out
  have hpos := h.pos
  have hfull := h.full
  rw [heapPop, heapRemove, if_neg (by omega), hread]
  cases readSlot heap 1 <;> rfl

/-- A pop of a queue that is not empty does not depend on the timeout. -/
theorem queuePop_eq_popTrywait (hsize : q.size ≠ 0) (pdata : Option α) (timeout : ℤ) :
    queuePop q pdata timeout =
      (priQueuePopTrywait q pdata).map fun r => (.returned r.1 r.2.1, r.2.2) := by
  cases hheap : q.heap with
  | none => simp [queuePop, priQueuePopTrywait, hheap]
  | some heap =>
      have hnot : heap.curSize ≠ 0 := by simpa [PriQueueT.size, hheap] using hsize
      simp only [queuePop, priQueuePopTrywait, hheap, if_neg hnot, Option.bind_eq_bind,
        Option.bind_some]
      cases heapPop q.cell heap <;> rfl

theorem Shrunk.size_ne_zero (h : Shrunk q heap) : q.size ≠ 0 := by
  have hpos := h.pos
  have hfull := h.full
  have hsize : q.size = heap.curSize := by simp [PriQueueT.size, h.heap_eq]
  omega

theorem Shrunk.popTrywait_eq (h : Shrunk q heap) : priQueuePopTrywait q pdata = none := by
  have hsize := h.size_ne_zero
  simp only [PriQueueT.size, h.heap_eq, Option.map_some, Option.getD_some] at hsize
  simp [priQueuePopTrywait, h.heap_eq, hsize, h.heapPop_eq]

/-- A pop of a queue that is not empty removes the root, if it returns. -/
theorem Sane.pop (h : Sane cb q) (hsize : q.size ≠ 0) {timeout : ℤ} {result : PopResult α}
    (hpop : queuePop q pdata timeout = some (result, q')) :
    Sane cb q' ∧ ∃ x, result = .returned .ok (some x) ∧ RemovesRoot x q q' := by
  rw [queuePop_eq_popTrywait hsize] at hpop
  rcases h with ⟨heap, slot, st⟩ | ⟨heap, hshrunk⟩
  · rw [st.size_eq] at hsize
    obtain ⟨n, hn⟩ := Nat.exists_eq_succ_of_ne_zero hsize
    obtain ⟨q'', slots, htry, -, st'⟩ := st.pop hn pdata
    rw [htry] at hpop
    cases hpop
    obtain ⟨hslot, hcell⟩ := st.holds 1 le_rfl (by omega)
    refine ⟨Or.inl ⟨_, _, st'⟩, (slot 1).2, rfl, ?_, st.contents_popped hn st'⟩
    simp [PriQueueT.entry, st.heap_eq, hslot, hcell]
  · rw [hshrunk.popTrywait_eq] at hpop
    cases hpop

/-- The pop may wait. -/
def Blocking : PopCall → Prop
  | .wait => True
  | .trywait => False
  | .timedwait timeout => 0 < timeout

/-- The pop finds the queue empty and waits. -/
def Waits (q : PriQueueT α) (dest : Option (Option α)) (c : PopCall) : Prop :=
  q.size = 0 ∧ dest.isSome = true ∧ Blocking c

/-- The pop reads the last slot in use, and a reallocation has cut it off. -/
def ReadsCutOff (q : PriQueueT α) (dest : Option (Option α)) (c : PopCall) : Prop :=
  q.size ≠ 0 ∧ dest.isSome = true ∧ c.timeout.isSome = true ∧
    ∃ heap, q.heap = some heap ∧ ¬ heap.InBlock heap.curSize

/-- What the first section of a pop does: one case for each path of the source. -/
inductive PopOutcome (q : PriQueueT α) (dest : Option (Option α)) (c : PopCall) :
    PopResult α → PriQueueT α → Prop
  | blocked (waits : Waits q dest c) : PopOutcome q dest c .blocked q
  | refused {code : BliveErrno} {pdata : Option α} (stays : ¬ Waits q dest c)
      (failed : code ≠ .ok) : PopOutcome q dest c (.returned code pdata) q
  | delivered {q' : PriQueueT α} {x : α} (stays : ¬ Waits q dest c)
      (removes : RemovesRoot x q q') : PopOutcome q dest c (.returned .ok (some x)) q'

/-- The timeout that makes `__queue_pop` wait. -/
theorem blocking_iff {timeout : ℤ} (h : c.timeout = some timeout) :
    Blocking c ↔ timeout = -1 ∨ timeout > 0 := by
  cases c with
  | wait =>
      obtain rfl := Option.some.inj h
      simp [Blocking]
  | trywait =>
      obtain rfl := Option.some.inj h
      simp [Blocking]
  | timedwait tm =>
      simp only [PopCall.timeout] at h
      split at h
      · cases h
      · obtain rfl := Option.some.inj h
        simp only [Blocking]
        omega

theorem not_blocking_of_refused (h : c.timeout = none) : ¬ Blocking c := by
  cases c with
  | wait => simp [PopCall.timeout] at h
  | trywait => simp [PopCall.timeout] at h
  | timedwait tm =>
      simp only [PopCall.timeout] at h
      split at h
      · simp only [Blocking]
        omega
      · cases h

theorem Sane.outcome (h : Sane cb q) {result : PopResult α}
    (hpop : priQueuePop q dest c = some (result, q')) :
    Sane cb q' ∧ PopOutcome q dest c result q' := by
  cases dest with
  | none =>
      cases hpop
      exact ⟨h, .refused (fun hwaits => absurd hwaits.2.1 (by simp)) (by decide)⟩
  | some pdata =>
      cases htimeout : c.timeout with
      | none =>
          simp only [priQueuePop, htimeout] at hpop
          cases hpop
          exact ⟨h, .refused (fun hwaits => not_blocking_of_refused htimeout hwaits.2.2)
            (by decide)⟩
      | some timeout =>
          simp only [priQueuePop, htimeout] at hpop
          by_cases hsize : q.size = 0
          · cases hheap : q.heap with
            | none => simp [queuePop, hheap] at hpop
            | some heap =>
                have hempty : heap.curSize = 0 := by simpa [PriQueueT.size, hheap] using hsize
                simp only [queuePop, hheap, hempty, if_true, Option.bind_eq_bind,
                  Option.bind_some] at hpop
                split at hpop
                next hwait =>
                  cases hpop
                  exact ⟨h, .blocked ⟨hsize, rfl, (blocking_iff htimeout).mpr hwait⟩⟩
                next hstay =>
                  cases hpop
                  exact ⟨h, .refused (fun hwaits => hstay ((blocking_iff htimeout).mp hwaits.2.2))
                    (by decide)⟩
          · obtain ⟨hsane, x, rfl, hremoves⟩ := h.pop hsize hpop
            exact ⟨hsane, .delivered (fun hwaits => hsize hwaits.1) hremoves⟩

/-- A pop stays in memory exactly when it does not read what was cut off. -/
theorem Sane.exists_pop_iff (h : Sane cb q) :
    (∃ r, priQueuePop q dest c = some r) ↔ ¬ ReadsCutOff q dest c := by
  cases dest with
  | none => exact iff_of_true ⟨_, rfl⟩ fun hreads => absurd hreads.2.1 (by simp)
  | some pdata =>
      cases htimeout : c.timeout with
      | none =>
          refine iff_of_true ⟨(.returned .invalid pdata, q), ?_⟩ fun hreads => ?_
          · simp only [priQueuePop, htimeout]
          · have hasked := hreads.2.2.1
            rw [htimeout] at hasked
            cases hasked
      | some timeout =>
          simp only [priQueuePop, htimeout]
          rcases h with ⟨heap, slot, st⟩ | ⟨heap, hshrunk⟩
          · have hnot : ¬ ReadsCutOff q (some pdata) c := by
              rintro ⟨-, -, -, heap', hheap, hcut⟩
              obtain rfl := Option.some.inj (st.heap_eq.symm.trans hheap)
              exact hcut (InBlock.mono st.room st.fits)
            refine iff_of_true ?_ hnot
            cases hsize : heap.curSize with
            | zero =>
                simp only [queuePop, st.heap_eq, hsize, if_true, Option.bind_eq_bind,
                  Option.bind_some]
                split
                next => exact ⟨_, rfl⟩
                next => exact ⟨_, rfl⟩
            | succ n =>
                have hne : q.size ≠ 0 := by rw [st.size_eq]; omega
                obtain ⟨q', slots, htry, -⟩ := st.pop hsize pdata
                exact ⟨_, by rw [queuePop_eq_popTrywait hne, htry]; rfl⟩
          · have hcut : ¬ heap.InBlock heap.curSize := hshrunk.full ▸ hshrunk.out
            refine iff_of_false ?_ (not_not_intro
              ⟨hshrunk.size_ne_zero, rfl, by rw [htimeout]; rfl, heap, hshrunk.heap_eq, hcut⟩)
            rintro ⟨r, hpop⟩
            rw [queuePop_eq_popTrywait hshrunk.size_ne_zero, hshrunk.popTrywait_eq] at hpop
            cases hpop

/-! ## Runs -/

/-- Every reachable queue is sane. -/
theorem Run.sane [Nonempty α] {history : List (Shared.Action α × Shared.Observation α)}
    (run : (sharedSystem cb).Trace history s) : Sane cb s.queue := by
  refine run.invariant (I := fun _ s => Sane cb s.queue) ?_ ?_
  · rintro s ⟨hinit, -⟩
    obtain ⟨initialSize, sizeAdaption, hpos, hint, hqueue⟩ := exists_eq_newQueue_of_init hinit
    obtain ⟨heap, slot, hstores, -⟩ := exists_stores_newQueue cb hpos hint sizeAdaption
    exact Or.inl ⟨heap, slot, hqueue ▸ hstores⟩
  · rintro history s ⟨act, obs⟩ s' - hsane - ⟨hmalloc, hnext⟩
    cases act with
    | pop t c dest =>
        simp only [Shared.next] at hnext
        split at hnext
        · obtain ⟨⟨result, q'⟩, hpop, heq⟩ := Option.map_eq_some_iff.mp hnext
          cases heq
          exact (hsane.outcome hpop).1
        · cases hnext
    | wake t =>
        obtain ⟨pdata, -, heq⟩ := Option.map_eq_some_iff.mp hnext
        cases heq
        exact hsane
    | push data mem remem =>
        obtain ⟨⟨code, q'⟩, hpush, heq⟩ := Option.map_eq_some_iff.mp hnext
        cases heq
        refine hsane.push ?_ hpush
        cases data <;> cases mem <;> exact hmalloc

/-- The thread that makes a step, if it is in a pop. -/
def popper : Shared.Action α → Option ℕ
  | .pop t _ _ => some t
  | .wake t => some t
  | .push _ _ _ => none

/-- Steps of threads other than `t`. -/
def Others (cb : α → α → Bool) (t : ℕ) : Shared α → Shared α → Prop :=
  Relation.ReflTransGen fun s s' =>
    ∃ label, popper label.1 ≠ some t ∧ (sharedSystem cb).step s label s'

/-- A whole pop of thread `t`: its own steps, from state to state, the code that it returns
and what `*pdata` holds then. Others may do anything while it waits. -/
inductive Returns (cb : α → α → Bool) (s : Shared α) (t : ℕ) (c : PopCall)
    (dest : Option (Option α)) :
    List (Shared α × Shared α) → BliveErrno → Option α → Prop
  | atOnce {s' : Shared α} {code : BliveErrno} {pdata : Option α}
      (taken : (sharedSystem cb).step s (.pop t c dest, .popped (.returned code pdata)) s') :
      Returns cb s t c dest [(s, s')] code pdata
  | afterWait {s₁ s₂ s₃ : Shared α} {code : BliveErrno} {pdata : Option α}
      (blocked : (sharedSystem cb).step s (.pop t c dest, .popped .blocked) s₁)
      (others : Others cb t s₁ s₂)
      (woken : (sharedSystem cb).step s₂ (.wake t, .popped (.returned code pdata)) s₃) :
      Returns cb s t c dest [(s, s₁), (s₂, s₃)] code pdata

/-- The pop returns `BLIVE_ERR_OK`, and one of its steps removed the root, which `*pdata`
holds, and the others changed nothing; or it returns an error and changed nothing. -/
def Delivers (own : List (Shared α × Shared α)) (code : BliveErrno) (pdata : Option α) : Prop :=
  (code = .ok ∧ ∃ x before step after, own = before ++ step :: after ∧ pdata = some x ∧
    RemovesRoot x step.1.queue step.2.queue ∧
      ∀ other ∈ before ++ after, other.2.queue = other.1.queue) ∨
  (code ≠ .ok ∧ ∀ step ∈ own, step.2.queue = step.1.queue)

theorem not_removesRoot_self : ¬ RemovesRoot x q q := by
  rintro ⟨-, hcontents⟩
  have hcard := congrArg Multiset.card hcontents
  rw [Multiset.card_cons] at hcard
  omega

/-- A step that removed nothing delivered nothing. -/
theorem not_delivers_ok {own : List (Shared α × Shared α)}
    (hsame : ∀ step ∈ own, step.2.queue = step.1.queue) : ¬ Delivers own .ok pdata := by
  rintro (⟨-, x, before, step, after, rfl, -, hremoves, -⟩ | ⟨hok, -⟩)
  · rw [hsame step (by simp)] at hremoves
    exact not_removesRoot_self hremoves
  · exact hok rfl

/-- The first step of a pop. -/
theorem outcome_of_step [Nonempty α]
    {history : List (Shared.Action α × Shared.Observation α)}
    (run : (sharedSystem cb).Trace history s) {result : PopResult α}
    (hstep : (sharedSystem cb).step s (.pop t c dest, .popped result) s') :
    PopOutcome s.queue dest c result s'.queue := by
  obtain ⟨-, hnext⟩ := hstep
  simp only [Shared.next] at hnext
  split at hnext
  · obtain ⟨⟨result', q'⟩, hpop, heq⟩ := Option.map_eq_some_iff.mp hnext
    cases heq
    exact ((Run.sane run).outcome hpop).2
  · cases hnext

/-- The thread that starts a pop does not wait in another one. -/
theorem waiting_of_pop {obs : Shared.Observation α}
    (hstep : (sharedSystem cb).step s (.pop t c dest, obs) s') : s.waiting t = none := by
  obtain ⟨-, hnext⟩ := hstep
  simp only [Shared.next] at hnext
  split at hnext
  next hidle => exact hidle
  next => cases hnext

/-- A woken pop answers `BLIVE_ERR_OK` and leaves the queue alone. -/
theorem eq_of_wake (hstep : (sharedSystem cb).step s (.wake t, .popped (.returned code pdata)) s') :
    code = .ok ∧ s'.queue = s.queue := by
  obtain ⟨-, hnext⟩ := hstep
  obtain ⟨held, -, heq⟩ := Option.map_eq_some_iff.mp hnext
  cases heq
  exact ⟨rfl, rfl⟩

/-- A pop that waited delivers nothing. -/
theorem not_delivers_of_wait [Nonempty α] {s₁ s₂ s₃ : Shared α}
    {history : List (Shared.Action α × Shared.Observation α)}
    (run : (sharedSystem cb).Trace history s)
    (blocked : (sharedSystem cb).step s (.pop t c dest, .popped .blocked) s₁)
    (woken : (sharedSystem cb).step s₂ (.wake t, .popped (.returned code pdata)) s₃) :
    Waits s.queue dest c ∧ ¬ Delivers [(s, s₁), (s₂, s₃)] code pdata := by
  have hout := outcome_of_step run blocked
  obtain ⟨rfl, hsame⟩ := eq_of_wake woken
  generalize hafter : s₁.queue = q' at hout
  cases hout with
  | blocked waits =>
      refine ⟨waits, not_delivers_ok ?_⟩
      simp [hafter, hsame]

/-- A pop that returns has delivered exactly when it did not wait. -/
theorem Returns.delivers_iff [Nonempty α]
    {history : List (Shared.Action α × Shared.Observation α)}
    (run : (sharedSystem cb).Trace history s) {own : List (Shared α × Shared α)}
    (returns : Returns cb s t c dest own code pdata) :
    Delivers own code pdata ↔ ¬ Waits s.queue dest c := by
  cases returns with
  | atOnce taken =>
      have hout := outcome_of_step run taken
      generalize hresult : PopResult.returned code pdata = result at hout
      generalize hafter : Shared.queue _ = q' at hout
      cases hout with
      | blocked => cases hresult
      | refused stays failed =>
          cases hresult
          exact iff_of_true (Or.inr ⟨failed, by simp [hafter]⟩) stays
      | delivered stays removes =>
          cases hresult
          exact iff_of_true (Or.inl ⟨rfl, _, [], _, [], rfl, rfl, hafter ▸ removes, nofun⟩) stays
  | afterWait blocked others woken =>
      obtain ⟨waits, hnot⟩ := not_delivers_of_wait run blocked woken
      exact iff_of_false hnot (not_not_intro waits)

/-- A thread that waits can wake up. -/
theorem wake_step (hwaiting : s.waiting t = some pdata) :
    (sharedSystem cb).step s (.wake t, .popped (.returned .ok pdata)) (s.setWaiting t none) := by
  refine ⟨trivial, ?_⟩
  simp only [Shared.next, hwaiting, Option.map_some]
  rfl

/-- A pop that stays in memory can return. -/
theorem exists_returns (hidle : s.waiting t = none) {r : PopResult α × PriQueueT α}
    (hpop : priQueuePop s.queue dest c = some r) :
    ∃ own code pdata, Returns cb s t c dest own code pdata := by
  obtain ⟨result, q'⟩ := r
  have hstep : (sharedSystem cb).step s (.pop t c dest, .popped result)
      { s.setWaiting t (result.awaited dest) with queue := q' } := by
    refine ⟨trivial, ?_⟩
    simp only [Shared.next, if_pos hidle, hpop, Option.map_some]
  cases result with
  | returned code pdata => exact ⟨_, code, pdata, .atOnce hstep⟩
  | blocked =>
      cases dest with
      | none => cases hpop
      | some pdata =>
          have hwaiting : (s.setWaiting t (some pdata)).waiting t = some pdata := by
            simp [Shared.setWaiting]
          exact ⟨_, .ok, pdata, .afterWait hstep .refl (wake_step hwaiting)⟩

/-- The first step of a pop that returns stays in memory. -/
theorem Returns.exists_pop {own : List (Shared α × Shared α)}
    (returns : Returns cb s t c dest own code pdata) :
    ∃ r, priQueuePop s.queue dest c = some r := by
  have hfirst : ∀ {obs s₁}, (sharedSystem cb).step s (.pop t c dest, obs) s₁ →
      ∃ r, priQueuePop s.queue dest c = some r := by
    rintro obs s₁ ⟨-, hnext⟩
    simp only [Shared.next] at hnext
    split at hnext
    · obtain ⟨r, hpop, -⟩ := Option.map_eq_some_iff.mp hnext
      exact ⟨r, hpop⟩
    · cases hnext
  cases returns with
  | atOnce taken => exact hfirst taken
  | afterWait blocked others woken => exact hfirst blocked

/-- A pop returns, and whatever the others do it delivers exactly one element or fails
and changes nothing, exactly when it does not wait and does not read a slot that a
reallocation has cut off. -/
theorem pop_delivers_iff [Nonempty α]
    {history : List (Shared.Action α × Shared.Observation α)}
    (run : (sharedSystem cb).Trace history s) (hidle : s.waiting t = none) :
    ((∃ own code pdata, Returns cb s t c dest own code pdata) ∧
        ∀ own code pdata, Returns cb s t c dest own code pdata → Delivers own code pdata) ↔
      ¬ Waits s.queue dest c ∧ ¬ ReadsCutOff s.queue dest c := by
  constructor
  · rintro ⟨⟨own, code, pdata, returns⟩, hall⟩
    have hdelivers := hall own code pdata returns
    exact ⟨(returns.delivers_iff run).mp hdelivers,
      (Run.sane run).exists_pop_iff.mp returns.exists_pop⟩
  · rintro ⟨stays, hkept⟩
    obtain ⟨r, hpop⟩ := (Run.sane run).exists_pop_iff.mpr hkept
    exact ⟨exists_returns hidle hpop, fun _ _ _ returns => (returns.delivers_iff run).mpr stays⟩

/-! ## Executions -/

instance (s : Shared α) : (act : Shared.Action α) → Decidable (s.MallocContract act)
  | .push _ (some a) _ => inferInstanceAs (Decidable (s.queue.cell a = none))
  | .push _ none _ | .pop _ _ _ | .wake _ => inferInstanceAs (Decidable True)

/-- The labels of an execution from a fresh queue are the labels of a run. -/
theorem exists_shared_run (cb : α → α → Bool) [DecidableEq α]
    (labels : List (Shared.Action α × Shared.Observation α))
    (h : (System.execute
        (System.callNext Shared.MallocContract Shared.next System.anyStep)
        ⟨newQueue cb 16 false, fun _ => none⟩ (labels.map Prod.fst)).any
      (fun r => decide (r.1 = labels)) = true) :
    ∃ s, (sharedSystem cb).Trace labels s := by
  have hinit : (sharedSystem cb).init ⟨newQueue cb 16 false, fun _ => none⟩ :=
    ⟨⟨16, false, by decide, by decide, priQueueCreate_eq (by decide) false⟩, rfl⟩
  obtain ⟨history, s, run, htest⟩ :=
    System.Run.exists_of_execute System.callNext_sound hinit _ _ h
  obtain rfl : history = labels := of_decide_eq_true htest
  exact ⟨s, run⟩

/-- A push, and a pop of what it pushed: it need not wait, returns and delivers. -/
theorem pop_delivers_pushed :
    ∃ history s s', (sharedSystem Nat.ble).Trace history s ∧ s.waiting 0 = none ∧
      Returns Nat.ble s 0 .wait (some none) [(s, s')] .ok (some 9) ∧
      (∃ own code pdata, Returns Nat.ble s 0 .wait (some none) own code pdata) ∧
      ∀ own code pdata, Returns Nat.ble s 0 .wait (some none) own code pdata →
        Delivers own code pdata := by
  obtain ⟨s', run⟩ := exists_shared_run Nat.ble
    ([(.push (some 9) (some 0) true, .pushed .ok)] ++
      [(.pop 0 .wait (some none), .popped (.returned .ok (some 9)))])
    (by decide +kernel)
  obtain ⟨s, hrun, -, hstep⟩ := System.Run.exists_of_concat run
  have hidle : s.waiting 0 = none := waiting_of_pop hstep
  have returns := Returns.atOnce hstep
  have hstays : ¬ Waits s.queue (some none) .wait := by
    have hout := outcome_of_step hrun hstep
    generalize s'.queue = q' at hout
    cases hout with
    | refused stays failed => exact stays
    | delivered stays removes => exact stays
  have hkept := (Run.sane hrun).exists_pop_iff.mp returns.exists_pop
  exact ⟨_, s, s', hrun, hidle, returns, (pop_delivers_iff hrun hidle).mpr ⟨hstays, hkept⟩⟩

/-- A pop waits, a push comes, the pop wakes up and answers `BLIVE_ERR_OK`: it has
removed nothing. -/
theorem exists_wait_undelivered :
    ¬ ∀ history s t c dest own code pdata, (sharedSystem Nat.ble).Trace history s →
      Returns Nat.ble s t c dest own code pdata → Delivers own code pdata := by
  intro hevery
  obtain ⟨s₃, run₃⟩ := exists_shared_run Nat.ble
    ([] ++ [(.pop 0 .wait (some none), .popped .blocked)] ++
      [(.push (some 9) (some 0) true, .pushed .ok)] ++
      [(.wake 0, .popped (.returned .ok none))])
    (by decide +kernel)
  obtain ⟨s₂, run₂, -, woken⟩ := System.Run.exists_of_concat run₃
  obtain ⟨s₁, run₁, -, pushed⟩ := System.Run.exists_of_concat run₂
  obtain ⟨s, run, -, blocked⟩ := System.Run.exists_of_concat run₁
  have hothers : Others Nat.ble 0 s₁ s₂ := .single ⟨_, by simp [popper], pushed⟩
  have hdelivers := hevery _ s 0 .wait _ _ _ _ run (.afterWait blocked hothers woken)
  exact (not_delivers_of_wait run blocked woken).2 hdelivers

end BliveQueue.PriQueue
