/-
# The end of a queue

Popped to the end, a queue whose elements were stored in order gives them back sorted.
`pri_queue_destroy` instead frees the cells behind the slots in use. They are all the
cells that are allocated, so nothing is left, unless a push on a full adaptive queue has
cut off the last slot: then the walk reads behind the block.
-/

import Mathlib.Data.Set.Card
import BliveQueue.PriQueue.Failures
import BliveQueue.PriQueue.Growth
import BliveQueue.PriQueue.HeapCalls

namespace BliveQueue.PriQueue

open BliveQueue.Math BliveQueue.Math.BinaryHeap BliveQueue.Utils BliveQueue.Utils.PriQueue

variable {α : Type} {cb : α → α → Bool} {cell cell' : Addr → Option α} {heap heap' : InnHeap α}
variable {slot : ℕ → Addr × α} {n : ℕ} {q q' : PriQueueT α} {a : Addr} {x : α} {xs : List α}
variable {history : List (PriQueueCall α × BliveErrno × Option α)} {out : BliveErrno × Option α}

/-! ## Popping to the end -/

/-- An ordered heap is drained in its order. -/
theorem Stores.drain_pairwise (st : Stores cb q heap slot)
    (le : TotalPreorder fun x y => cb x y = true)
    (ord : Ordered (fun x y => elemAbove cb x y = true) heap.curSize slot)
    (hdrain : drain heap.curSize q = some (xs, q')) :
    xs.Pairwise fun x y => cb x y = true := by
  induction hsize : heap.curSize generalizing q heap slot xs with
  | zero =>
      rw [hsize] at hdrain
      obtain ⟨rfl, -⟩ := Prod.mk.inj (Option.some.inj hdrain)
      exact List.Pairwise.nil
  | succ n ih =>
      obtain ⟨q₁, slots, hpop, -, st₁⟩ := st.pop hsize none
      obtain ⟨ys, q₂, hrest, hcontents, -⟩ := st₁.exists_drain
      rw [hsize, drain, hpop] at hdrain
      change (drain n q₁).map _ = _ at hdrain
      change drain n q₁ = _ at hrest
      rw [hrest] at hdrain
      obtain ⟨rfl, rfl⟩ := Prod.mk.inj (Option.some.inj hdrain)
      have ord₁ : Ordered (fun x y => elemAbove cb x y = true) n
          (removeRoot (elemAbove cb) n slot) :=
        ordered_removeRoot (TotalPreorder.elemAbove le) (hsize ▸ ord)
      refine List.pairwise_cons.mpr ⟨fun y hy => st.root_above le ord y ?_, ih st₁ ord₁ hrest rfl⟩
      -- what the rest of the drain answers was stored below the root
      have hy' : y ∈ q₁.contents := by
        rw [← hcontents]
        exact hy
      rw [← st.contents_popped hsize st₁]
      exact Multiset.mem_cons_of_mem hy'

/-- In every orderly run, popping the queue to the end answers all its elements, sorted by
priority. -/
theorem drain_sorted [Nonempty α] (le : TotalPreorder fun x y => cb x y = true)
    (run : (priQueueSystem cb).Run (Orderly cb) history q) :
    ∃ xs q', drain q.size q = some (xs, q') ∧ xs.Pairwise (fun x y => cb x y = true) ∧
      (xs : Multiset α) = q.contents ∧ q'.size = 0 := by
  obtain ⟨heap, slot, st, ord⟩ := Run.heapOrder le run
  obtain ⟨xs, q', hdrain, hcontents, hempty⟩ := st.exists_drain
  rw [st.size_eq]
  exact ⟨xs, q', hdrain, st.drain_pairwise le ord hdrain, hcontents, hempty⟩

/-- Five elements on three levels are drained in their order. -/
theorem drain_sorted_of_five :
    ∃ history q, (priQueueSystem smallerFirst).Run (Orderly smallerFirst) history q ∧
      q.contents = {30, 20, 50, 40, 35} ∧
      ∃ xs q', drain q.size q = some (xs, q') ∧
        xs.Pairwise (fun x y => smallerFirst x y = true) ∧
        (xs : Multiset ℕ) = q.contents ∧ q'.size = 0 := by
  obtain ⟨history, q, run, htest⟩ := exists_run smallerFirst (Orderly smallerFirst)
    (show (0 : ℤ) < 8 by decide) (by decide) false (pushes [30, 20, 50, 40, 35])
    (fun r => r.2.contents = {30, 20, 50, 40, 35}) (by decide +kernel)
  exact ⟨history, q, run, of_decide_eq_true htest, drain_sorted smallerFirst_totalPreorder run⟩

/-! ## The cells of a queue -/

/-- What the functions on the heap do, `pri_queue_push` does below the capacity. -/
theorem Owns.pushed (st : Stores cb q heap slot) (hbelow : heap.curSize < heap.maxSize)
    (owned : ∀ b, q.cell b ≠ none → b ∈ (elements heap.curSize slot).map Prod.fst)
    {mem : Option Addr} {remem : Bool} (hmalloc : ∀ a, mem = some a → q.cell a = none)
    {code : BliveErrno} (hpush : priQueuePush q (some x) mem remem = some (code, q')) :
    Owns cb q' := by
  cases mem with
  | none =>
      rw [st.push_outOfMem hbelow] at hpush
      obtain ⟨-, rfl⟩ := Prod.mk.inj (Option.some.inj hpush)
      exact ⟨heap, slot, st, owned⟩
  | some a =>
      obtain ⟨heap₁, cell₁, hheap, ⟨mem, rfl⟩, hcell, st₁⟩ :=
        st.of_heapPush hbelow (hmalloc a rfl) (x := x)
      rw [priQueuePush_of_heapPush st.heap_eq hheap remem] at hpush
      obtain ⟨-, rfl⟩ := Prod.mk.inj (Option.some.inj hpush)
      refine ⟨_, _, st₁, fun b hb => ?_⟩
      exact owned_pushed (elemAbove cb) owned b (hcell ▸ hb)

theorem Owns.popped (st : Stores cb q heap slot)
    (owned : ∀ b, q.cell b ≠ none → b ∈ (elements heap.curSize slot).map Prod.fst)
    {code : BliveErrno} {data : Option α}
    (hpop : priQueuePopTrywait q none = some (code, data, q')) : Owns cb q' := by
  cases hsize : heap.curSize with
  | zero =>
      rw [st.pop_empty hsize] at hpop
      obtain ⟨-, heq⟩ := Prod.mk.inj (Option.some.inj hpop)
      obtain ⟨-, rfl⟩ := Prod.mk.inj heq
      exact ⟨heap, slot, st, owned⟩
  | succ n =>
      obtain ⟨heap₁, cell₁, hheap, ⟨mem, rfl⟩, hcell, st₁⟩ := st.of_heapPop hsize
      simp only [priQueuePopTrywait, st.heap_eq, hheap, hsize, Nat.succ_ne_zero, if_false,
        Option.bind_eq_bind, Option.bind_some, Option.some.injEq, Prod.mk.injEq] at hpop
      obtain ⟨-, -, rfl⟩ := hpop
      refine ⟨_, _, st₁, fun b hb => ?_⟩
      exact owned_popped (elemAbove cb) (hsize ▸ owned) b (hcell ▸ hb)

/-- The block keeps its room and owns all cells, or its last slot is cut off. -/
theorem Owns.call (owns : Owns cb q) {c : PriQueueCall α} (hmalloc : c.MallocContract q)
    (hcall : PriQueue.call q c = some (out, q')) : Owns cb q' ∨ ∃ heap, Shrunk q' heap := by
  have ⟨heap, slot, st, owned⟩ := owns
  cases c with
  | push data mem remem =>
      obtain ⟨⟨code, q''⟩, hpush, heq⟩ := Option.map_eq_some_iff.mp hcall
      obtain ⟨-, rfl⟩ := Prod.mk.inj heq
      cases data with
      | none =>
          obtain ⟨-, rfl⟩ := Prod.mk.inj (Option.some.inj hpush)
          exact Or.inl owns
      | some x =>
          rcases st.fits.lt_or_eq with hbelow | hfull
          · refine Or.inl (Owns.pushed st hbelow owned (fun a ha => ?_) hpush)
            subst ha
            exact hmalloc
          · cases hadapt : q.adaption with
            | false =>
                rw [st.push_full hfull hadapt] at hpush
                obtain ⟨-, rfl⟩ := Prod.mk.inj (Option.some.inj hpush)
                exact Or.inl owns
            | true =>
                obtain ⟨-, heap', hkept, rfl⟩ := push_full_adaptive st.heap_eq hfull hadapt hpush
                by_cases hroom : heap'.InBlock heap'.maxSize
                · refine Or.inl ⟨heap', slot, st.realloc_room hfull hkept hroom, ?_⟩
                  rw [hkept.curSize]
                  exact owned
                · exact Or.inr ⟨heap', st.realloc_shrunk hfull hadapt hkept hroom⟩
  | popTrywait =>
      obtain ⟨⟨code, data, q''⟩, hpop, heq⟩ := Option.map_eq_some_iff.mp hcall
      obtain ⟨-, rfl⟩ := Prod.mk.inj heq
      exact Or.inl (Owns.popped st owned hpop)
  | peek =>
      obtain ⟨_, -, heq⟩ := Option.map_eq_some_iff.mp hcall
      obtain ⟨-, rfl⟩ := Prod.mk.inj heq
      exact Or.inl owns

/-- A queue whose last slot is cut off stays so. -/
theorem Shrunk.call (hshrunk : Shrunk q heap) {c : PriQueueCall α}
    (hcall : PriQueue.call q c = some (out, q')) : ∃ heap, Shrunk q' heap := by
  cases c with
  | push data mem remem =>
      obtain ⟨⟨code, q''⟩, hpush, heq⟩ := Option.map_eq_some_iff.mp hcall
      obtain ⟨-, rfl⟩ := Prod.mk.inj heq
      cases data with
      | none =>
          obtain ⟨-, rfl⟩ := Prod.mk.inj (Option.some.inj hpush)
          exact ⟨heap, hshrunk⟩
      | some x =>
          obtain ⟨-, heap', hkept, rfl⟩ :=
            push_full_adaptive hshrunk.heap_eq hshrunk.full hshrunk.adaption hpush
          exact ⟨heap', hshrunk.realloc hkept⟩
  | popTrywait =>
      have hsize : heap.curSize ≠ 0 := by
        have hpos := hshrunk.pos
        rw [hshrunk.full]
        omega
      simp only [PriQueue.call, priQueuePopTrywait, hshrunk.heap_eq, hshrunk.heapPop_eq,
        if_neg hsize, Option.bind_eq_bind, Option.bind_some, Option.bind_none,
        Option.map_none] at hcall
      cases hcall
  | peek =>
      obtain ⟨_, -, heq⟩ := Option.map_eq_some_iff.mp hcall
      obtain ⟨-, rfl⟩ := Prod.mk.inj heq
      exact ⟨heap, hshrunk⟩

theorem Run.owns_or_shrunk [Nonempty α] (run : (priQueueSystem cb).Trace history q) :
    Owns cb q ∨ ∃ heap, Shrunk q heap := by
  apply run.invariant (I := fun _ q => Owns cb q ∨ ∃ heap, Shrunk q heap)
  · intro q hinit
    obtain ⟨initialSize, sizeAdaption, hpos, hint, rfl⟩ := exists_eq_newQueue_of_init hinit
    exact Or.inl (owns_newQueue hpos hint sizeAdaption)
  · rintro history q ⟨c, out⟩ q' - hq - ⟨hmalloc, hcall⟩
    rcases hq with howns | ⟨heap, hshrunk⟩
    · exact howns.call hmalloc hcall
    · exact Or.inr (hshrunk.call hcall)

/-! ## Destruction -/

/-- The cells behind the first slots are freed, and no others. -/
theorem freeSlots_eq (holds : Holds cell heap n slot) (room : heap.InBlock n)
    (distinct : ((elements n slot).map Prod.fst).Nodup) :
    ∃ cell', freeSlots heap cell n = some cell' ∧
      (∀ a ∈ (elements n slot).map Prod.fst, cell' a = none) ∧
      ∀ a, a ∉ (elements n slot).map Prod.fst → cell' a = cell a := by
  induction n with
  | zero => exact ⟨cell, rfl, fun a ha => absurd ha (Multiset.notMem_zero a), fun _ _ => rfl⟩
  | succ n ih =>
      rw [elements_succ, Multiset.map_cons, Multiset.nodup_cons] at distinct
      obtain ⟨hlast, hrest⟩ := distinct
      obtain ⟨cell', hfree, hfreed, hkept⟩ :=
        ih (holds.mono (Nat.le_succ n)) (InBlock.mono room (Nat.le_succ n)) hrest
      have hread := holds.readSlot_eq room (i := n + 1) (Nat.succ_pos n) le_rfl
      have hcell : cell' (slot (n + 1)).1 = some (slot (n + 1)).2 := by
        rw [hkept _ hlast, (holds (n + 1) (Nat.succ_pos n) le_rfl).2]
      refine ⟨Function.update cell' (slot (n + 1)).1 none, ?_, fun a ha => ?_, fun a ha => ?_⟩
      · simp only [freeSlots, hfree, hread, hcell, Option.bind_eq_bind, Option.bind_some,
          Option.map_some]
      · rcases eq_or_ne a (slot (n + 1)).1 with rfl | hne
        · exact Function.update_self _ _ _
        · rw [elements_succ, Multiset.map_cons, Multiset.mem_cons] at ha
          rw [Function.update_of_ne hne]
          exact hfreed a (ha.resolve_left hne)
      · rw [elements_succ, Multiset.map_cons, Multiset.mem_cons, not_or] at ha
        rw [Function.update_of_ne ha.1]
        exact hkept a ha.2

theorem Owns.priQueueDestroy_eq (owns : Owns cb q) :
    priQueueDestroy (some q) = some (.ok, fun _ => none) := by
  obtain ⟨heap, slot, st, owned⟩ := owns
  obtain ⟨cell', hfree, hfreed, hkept⟩ :=
    freeSlots_eq st.holds (InBlock.mono st.room st.fits) st.distinct
  have hnone : cell' = fun _ => none := by
    funext a
    by_cases ha : a ∈ (elements heap.curSize slot).map Prod.fst
    · exact hfreed a ha
    · rw [hkept a ha]
      exact not_not.mp (mt (owned a) ha)
  simp only [priQueueDestroy, st.heap_eq, hfree, hnone, Option.map_some]

/-- The cells in use are as many as the elements. -/
theorem Owns.ncard_cells (owns : Owns cb q) : {a | q.cell a ≠ none}.ncard = q.size := by
  obtain ⟨heap, slot, st, owned⟩ := owns
  have hset : {a | q.cell a ≠ none} = ↑((elements heap.curSize slot).map Prod.fst).toFinset := by
    ext a
    rw [Finset.mem_coe, Multiset.mem_toFinset]
    refine ⟨owned a, fun ha => ?_⟩
    obtain ⟨e, he, rfl⟩ := Multiset.mem_map.mp ha
    obtain ⟨i, h1, hi, rfl⟩ := mem_elements.mp he
    show q.cell (slot i).1 ≠ none
    rw [(st.holds i h1 hi).2]
    exact Option.some_ne_none _
  rw [hset, Set.ncard_coe_finset, Multiset.toFinset_card_of_nodup st.distinct,
    Multiset.card_map, elements, Multiset.card_map, st.size_eq]
  simp

theorem Shrunk.not_roomy (hshrunk : Shrunk q heap) : ¬ Roomy q := by
  rintro ⟨heap', hheap, hroom, -⟩
  obtain rfl := Option.some.inj (hshrunk.heap_eq.symm.trans hheap)
  rw [hshrunk.full] at hroom
  exact hshrunk.out hroom

/-- The walk over the slots reads behind a shrunk block. -/
theorem Shrunk.priQueueDestroy_eq (hshrunk : Shrunk q heap) : priQueueDestroy (some q) = none := by
  have hpos := hshrunk.pos
  obtain ⟨n, hn⟩ : ∃ n, heap.maxSize = n + 1 := ⟨heap.maxSize - 1, by omega⟩
  have hread : readSlot heap (n + 1) = none := if_neg (hn ▸ hshrunk.out)
  have hfree : freeSlots heap q.cell heap.curSize = none := by
    rw [hshrunk.full, hn]
    simp only [freeSlots, hread, Option.bind_eq_bind, Option.bind_none]
    exact Option.bind_fun_none _
  simp only [priQueueDestroy, hshrunk.heap_eq, hfree, Option.map_none]

/-- In every run a queue whose block has room owns one cell for each element, and
`pri_queue_destroy` frees them all, each of them once. On any other queue it leaves the
block. -/
theorem priQueueDestroy_frees [Nonempty α] (run : (priQueueSystem cb).Trace history q) :
    (Roomy q → {a | q.cell a ≠ none}.ncard = q.size ∧
      priQueueDestroy (some q) = some (.ok, fun _ => none)) ∧
    (¬ Roomy q → priQueueDestroy (some q) = none) := by
  rcases Run.owns_or_shrunk run with howns | ⟨heap, hshrunk⟩
  · have ⟨heap, slot, st, _⟩ := howns
    exact ⟨fun _ => ⟨howns.ncard_cells, howns.priQueueDestroy_eq⟩, fun h => absurd st.roomy h⟩
  · exact ⟨fun h => absurd h hshrunk.not_roomy, fun _ => hshrunk.priQueueDestroy_eq⟩

/-- A queue that was filled and popped once has one cell left, which is freed. -/
theorem priQueueDestroy_frees_after_pop :
    ∃ history q, (priQueueSystem Nat.ble).Trace history q ∧ q.contents = {9} ∧
      {a | q.cell a ≠ none}.ncard = 1 ∧ priQueueDestroy (some q) = some (.ok, fun _ => none) := by
  obtain ⟨history, q, run, htest⟩ := exists_run Nat.ble System.anyStep
    (show (0 : ℤ) < 2 by decide) (by decide) true
    [.push (some 9) (some 0) true, .push (some 7) (some 1) true, .popTrywait]
    (fun r => r.2.contents = {9} ∧ r.2.size = 1 ∧ r.2.capacity = 2) (by decide +kernel)
  obtain ⟨hcontents, hsize, hcapacity⟩ := of_decide_eq_true htest
  have hroomy : Roomy q := by
    rcases Run.owns_or_shrunk run with ⟨heap, slot, st, -⟩ | ⟨heap, hshrunk⟩
    · exact st.roomy
    · -- only a full queue can have been cut off
      have hfull : q.size = q.capacity := by
        simp [PriQueueT.size, PriQueueT.capacity, hshrunk.heap_eq, hshrunk.full]
      rw [hsize, hcapacity] at hfull
      exact absurd hfull (by decide)
  obtain ⟨hcard, hfreed⟩ := (priQueueDestroy_frees run).1 hroomy
  exact ⟨history, q, run, hcontents, hcard.trans hsize, hfreed⟩

end BliveQueue.PriQueue
