/-
# Growing the bucket array

`__expand_array` walks the old buckets and moves every entry to the front of its new
bucket, so the order inside a bucket is reversed. The loops keep two sorts of entries
apart: those already moved, which the new buckets hold, and the others, whose `next` is
still the old one. At the end the new buckets hold exactly the entries of the old ones.
-/

import Mathlib.Algebra.Order.Group.Nat
import BliveQueue.Hash.Chains

namespace BliveQueue.Hash

open BliveQueue.Math.LinkedChain BliveQueue.Utils.Hash BliveQueue.Utils.Hash.HashT

variable {β : Type} {t t' : HashT β} {chain chain' : ℕ → List EntryPtr}
variable {recycled cells : List EntryPtr} {i n : ℕ} {p : EntryPtr} {e : HashEntry β}
variable {newMax : UInt32} {newSlots : ℕ} {entry₀ : EntryPtr → Option (HashEntry β)}
variable {array : ℕ → Option EntryPtr} {entry : EntryPtr → Option (HashEntry β)}
variable {start : Option EntryPtr}

/-- The new array and the entries in the middle of the walk, with the new buckets. -/
structure Refiled (newMax : UInt32) (entry₀ : EntryPtr → Option (HashEntry β))
    (array : ℕ → Option EntryPtr) (entry : EntryPtr → Option (HashEntry β))
    (chain : ℕ → List EntryPtr) : Prop where
  bucket : ∀ j, Path (nextOf entry) (array j) (chain j) none
  data : dataOf entry = dataOf entry₀
  unmoved : ∀ p, (∀ j, p ∉ chain j) → nextOf entry p = nextOf entry₀ p
  filed : ∀ j, ∀ p ∈ chain j, ∃ d, dataOf entry₀ p = some d ∧ bucketIndex d.hash newMax = j
  nodup : ∀ j, (chain j).Nodup

theorem refiled_empty (newMax : UInt32) (entry₀ : EntryPtr → Option (HashEntry β)) :
    Refiled newMax entry₀ (fun _ => none) entry₀ fun _ => [] :=
  ⟨fun _ => rfl, rfl, fun _ _ => rfl, nofun, fun _ => List.nodup_nil⟩

/-- One round of the inner loop moves one entry. -/
theorem Refiled.move (h : Refiled newMax entry₀ array entry chain) (fresh : ∀ j, p ∉ chain j)
    (he : entry p = some e) :
    Refiled newMax entry₀ (Function.update array (bucketIndex e.hash newMax) (some p))
      (Function.update entry p (some { e with next := array (bucketIndex e.hash newMax) }))
      (Function.update chain (bucketIndex e.hash newMax)
        (p :: chain (bucketIndex e.hash newMax))) := by
  have hd : dataOf entry p = some (HashEntry.data e) := by simp [dataOf, he]
  refine ⟨fun j => ?_, ?_, fun q hq => ?_, fun j q hq => ?_, fun j => ?_⟩
  · rw [nextOf_update]
    rcases eq_or_ne j (bucketIndex e.hash newMax) with rfl | hne
    · rw [Function.update_self, Function.update_self, path_cons, Function.update_self]
      exact ⟨rfl, (h.bucket _).update (fresh _) _⟩
    · rw [Function.update_of_ne hne, Function.update_of_ne hne]
      exact (h.bucket j).update (fresh j) _
  · rw [dataOf_update, ← h.data]
    exact Function.update_eq_self_iff.mpr hd.symm
  · have hqp : q ≠ p := by
      rintro rfl
      exact hq (bucketIndex e.hash newMax) (by rw [Function.update_self]; exact List.mem_cons_self)
    have hold : ∀ j, q ∉ chain j := by
      intro j hj
      rcases eq_or_ne j (bucketIndex e.hash newMax) with rfl | hne
      · exact hq (bucketIndex e.hash newMax)
          (by rw [Function.update_self]; exact List.mem_cons_of_mem p hj)
      · exact hq j (by rwa [Function.update_of_ne hne])
    rw [nextOf_update, Function.update_of_ne hqp]
    exact h.unmoved q hold
  · rcases eq_or_ne j (bucketIndex e.hash newMax) with rfl | hne
    · rw [Function.update_self] at hq
      rcases List.mem_cons.mp hq with rfl | hold
      · exact ⟨_, h.data ▸ hd, rfl⟩
      · exact h.filed _ q hold
    · rw [Function.update_of_ne hne] at hq
      exact h.filed j q hq
  · rcases eq_or_ne j (bucketIndex e.hash newMax) with rfl | hne
    · rw [Function.update_self]
      exact List.nodup_cons.mpr ⟨fresh _, h.nodup _⟩
    · rw [Function.update_of_ne hne]
      exact h.nodup j

/-- The inner loop moves the entries of one old bucket. -/
theorem expandChain_eq (hslots : ∀ hash, bucketIndex hash newMax < newSlots) {fuel : ℕ}
    (h : Refiled newMax entry₀ array entry chain) (path : Path (nextOf entry₀) start cells none)
    (nodup : cells.Nodup) (fresh : ∀ p ∈ cells, ∀ j, p ∉ chain j)
    (live : ∀ p ∈ cells, ∃ d, dataOf entry₀ p = some d) (hfuel : cells.length ≤ fuel) :
    ∃ array' entry' chain',
      expandChain newMax newSlots fuel (array, entry) start = some (array', entry') ∧
      Refiled newMax entry₀ array' entry' chain' ∧
      ∀ p, (∃ j, p ∈ chain' j) ↔ (∃ j, p ∈ chain j) ∨ p ∈ cells := by
  induction cells generalizing array entry chain start fuel with
  | nil =>
      obtain rfl := path
      refine ⟨array, entry, chain, ?_, h, fun p => by simp⟩
      rw [expandChain]
  | cons p cells ih =>
      obtain ⟨rfl, hrest⟩ := path
      obtain ⟨hp, hnodup⟩ := List.nodup_cons.mp nodup
      have hfresh := fresh p List.mem_cons_self
      obtain ⟨d, hd⟩ := live p List.mem_cons_self
      rw [← h.data] at hd
      obtain ⟨e, he, -, hnext⟩ := exists_entry_of_dataOf hd
      rw [← h.unmoved p hfresh, hnext] at hrest
      obtain _ | fuel := fuel
      · simp at hfuel
      have hmem : ∀ q j, q ∈ Function.update chain (bucketIndex e.hash newMax)
          (p :: chain (bucketIndex e.hash newMax)) j ↔
            q ∈ chain j ∨ j = bucketIndex e.hash newMax ∧ q = p := by
        intro q j
        rcases eq_or_ne j (bucketIndex e.hash newMax) with rfl | hne
        · simp [or_comm]
        · simp [hne]
      obtain ⟨array', entry', chain', hloop, hrefiled, hall⟩ := ih (h.move hfresh he) hrest hnodup
        (fun q hq j hj => by
          rcases (hmem q j).mp hj with hold | ⟨-, rfl⟩
          · exact fresh q (List.mem_cons_of_mem p hq) j hold
          · exact hp hq)
        (fun q hq => live q (List.mem_cons_of_mem p hq)) (Nat.le_of_succ_le_succ hfuel)
      refine ⟨array', entry', chain', ?_, hrefiled, fun q => ?_⟩
      · simp only [expandChain, he, Option.bind_eq_bind, Option.bind_some, if_pos (hslots e.hash)]
        exact hloop
      · simp only [hall, hmem, exists_or, exists_eq_left, List.mem_cons, or_assoc]

/-- The outer loop moves the entries of the first old buckets. -/
theorem expandBuckets_eq (h : Chained t chain recycled)
    (hslots : ∀ hash, bucketIndex hash newMax < newSlots) (hn : n ≤ t.slots) :
    ∃ array entry chain', t.expandBuckets newMax newSlots n = some (array, entry) ∧
      Refiled newMax t.entry array entry chain' ∧
      ∀ p, (∃ j, p ∈ chain' j) ↔ ∃ i < n, p ∈ chain i := by
  induction n with
  | zero => exact ⟨_, _, _, rfl, refiled_empty newMax t.entry, fun p => by simp⟩
  | succ n ih =>
      obtain ⟨array, entry, chain', hloop, hrefiled, hmem⟩ := ih (Nat.le_of_succ_le hn)
      obtain ⟨array', entry', chain'', hchain, hrefiled', hmem'⟩ := expandChain_eq hslots hrefiled
        (h.bucket n hn) (h.nodup n)
        (fun p hp j hj => by
          obtain ⟨i, hi, hpi⟩ := (hmem p).mp ⟨j, hj⟩
          exact absurd (h.bucket_unique hpi hp) hi.ne)
        (fun p hp => (h.stored n p hp).imp fun _ hd => hd.1) (h.length_le n)
      refine ⟨array', entry', chain'', ?_, hrefiled', fun p => ?_⟩
      · simp only [expandBuckets, hloop, Option.bind_eq_bind, Option.bind_some]
        rw [if_pos (Nat.lt_of_succ_le hn)]
        exact hchain
      · rw [hmem', hmem]
        simp only [Nat.lt_succ_iff_lt_or_eq, or_and_right, exists_or, exists_eq_left]

/-- The table after it has grown. -/
structure Expands (t : HashT β) (chain : ℕ → List EntryPtr) (t' : HashT β)
    (chain' : ℕ → List EntryPtr) : Prop where
  max : t'.max = t.max * 2 + 1
  hashFunc : t'.hashFunc = t.hashFunc
  count : t'.count = t.count
  data : dataOf t'.entry = dataOf t.entry
  members : ∀ p, (∃ j, p ∈ chain' j) ↔ ∃ i, p ∈ chain i

/-- Growing keeps every entry and every value. -/
theorem Chained.expandArray (h : Chained t chain recycled)
    (hslots : allocSlots (t.max * 2 + 1) = (t.max * 2 + 1).toNat + 1) :
    ∃ t' chain', t.expandArray true = some t' ∧ Expands t chain t' chain' ∧
      Chained t' chain' recycled := by
  have hindex : ∀ hash, bucketIndex hash (t.max * 2 + 1) < allocSlots (t.max * 2 + 1) := by
    intro hash
    rw [hslots]
    exact Nat.lt_succ_of_le (bucketIndex_le _ _)
  have hn : t.max.toNat + 1 ≤ t.slots := h.slots.ge
  obtain ⟨array, entry, chain', hloop, hrefiled, hmem⟩ := expandBuckets_eq h hindex hn
  have hmembers : ∀ p, (∃ j, p ∈ chain' j) ↔ ∃ i, p ∈ chain i := by
    intro p
    rw [hmem]
    exact exists_congr fun i => and_iff_right_of_imp fun hp => h.slots ▸ h.lt_slots hp
  have hunmoved : ∀ p ∈ recycled, nextOf entry p = nextOf t.entry p := by
    intro p hp
    apply hrefiled.unmoved p
    intro j hj
    obtain ⟨i, hi⟩ := (hmembers p).mp ⟨j, hj⟩
    exact h.notMem_of_recycled hp hi
  refine ⟨{ t with
      array := array, slots := allocSlots (t.max * 2 + 1), max := t.max * 2 + 1, entry := entry },
    chain', ?_, ⟨rfl, rfl, rfl, hrefiled.data, hmembers⟩,
    ⟨hslots, fun j _ => hrefiled.bucket j, fun j hj => ?_, h.freeList.congr hunmoved,
      hrefiled.nodup, h.recycledNodup, fun j p hp => ?_, fun p hp => ?_, ?_⟩⟩
  · simp only [HashT.expandArray, if_true, hloop, Option.bind_eq_bind, Option.bind_some]
  · apply List.eq_nil_iff_forall_not_mem.mpr
    intro p hp
    obtain ⟨d, -, rfl⟩ := hrefiled.filed j p hp
    exact absurd (hindex d.hash) (not_lt.mpr hj)
  · obtain ⟨d, hd, hj⟩ := hrefiled.filed j p hp
    obtain ⟨i, hi⟩ := (hmembers p).mp ⟨j, hp⟩
    obtain ⟨d', hd', hvalue, -⟩ := h.stored i p hi
    obtain rfl := Option.some.inj (hd.symm.trans hd')
    exact ⟨d, (congrFun hrefiled.data p).trans hd, hvalue, hj⟩
  · obtain ⟨d, hd, hnone⟩ := h.idle p hp
    exact ⟨d, (congrFun hrefiled.data p).trans hd, hnone⟩
  · obtain ⟨live, hlive, hcard⟩ := h.count
    exact ⟨live, fun p => (hlive p).trans (hmembers p).symm, hcard⟩

/-! ## Growth that cannot work -/

/-- Into an array without slots no entry can be moved. -/
theorem expandChain_noSlots {fuel : ℕ}
    {st st' : (ℕ → Option EntryPtr) × (EntryPtr → Option (HashEntry β))}
    (h : expandChain newMax 0 fuel st start = some st') : start = none := by
  cases start with
  | none => rfl
  | some p =>
      cases fuel with
      | zero => exact absurd h nofun
      | succ fuel => simp [expandChain] at h

theorem expandBuckets_noSlots {st : (ℕ → Option EntryPtr) × (EntryPtr → Option (HashEntry β))}
    (h : t.expandBuckets newMax 0 n = some st) :
    ∀ i < n, t.array i = none := by
  induction n generalizing st with
  | zero => exact nofun
  | succ n ih =>
      simp only [expandBuckets, Option.bind_eq_bind, Option.bind_eq_some_iff] at h
      obtain ⟨st', hloop, hchain⟩ := h
      split at hchain
      · intro i hi
        rcases Nat.lt_succ_iff_lt_or_eq.mp hi with hlt | rfl
        · exact ih hloop i hlt
        · exact expandChain_noSlots hchain
      · exact absurd hchain nofun

theorem allocSlots_eq (hmax : allocSlots newMax ≠ 0) : allocSlots newMax = newMax.toNat + 1 := by
  have hadd : allocSlots newMax = (newMax.toNat + 1) % 2 ^ 32 := UInt32.toNat_add newMax 1
  have hlt := newMax.toNat_lt
  omega

/-- The mask of a table covers a power of two of buckets. -/
theorem toNat_newMax {max : UInt32} (mask : ∃ k ≤ 31, max.toNat + 1 = 2 ^ k) :
    (max * 2 + 1).toNat = 2 * max.toNat + 1 := by
  have hlt := lt_of_mask mask
  rw [UInt32.toNat_add, UInt32.toNat_mul]
  change (max.toNat * 2 % 2 ^ 32 + 1) % 2 ^ 32 = _
  omega

/-- The new mask covers twice as many, if it does not wrap. -/
theorem mask_newMax {max : UInt32} (mask : ∃ k ≤ 31, max.toNat + 1 = 2 ^ k)
    (hslots : allocSlots (max * 2 + 1) = (max * 2 + 1).toNat + 1) :
    ∃ k ≤ 31, (max * 2 + 1).toNat + 1 = 2 ^ k := by
  have hnew := toNat_newMax mask
  obtain ⟨k, hk, hmask⟩ := mask
  refine ⟨k + 1, ?_, ?_⟩
  · have hadd : allocSlots (max * 2 + 1) = ((max * 2 + 1).toNat + 1) % 2 ^ 32 :=
      UInt32.toNat_add _ 1
    rcases Nat.lt_or_ge k 31 with hlt | hge
    · exact hlt
    · obtain rfl : k = 31 := le_antisymm hk hge
      omega
  · rw [hnew, pow_succ, ← hmask]
    omega

/-- A table that holds an entry and did grow has an array for its new size. -/
theorem Chained.expandArray_of_some (h : Chained t chain recycled) (hp : p ∈ chain i)
    {arrayMem : Bool} (hexpand : t.expandArray arrayMem = some t') :
    allocSlots (t.max * 2 + 1) = (t.max * 2 + 1).toNat + 1 ∧
      ∃ chain', Expands t chain t' chain' ∧ Chained t' chain' recycled := by
  have hi := h.lt_slots hp
  cases arrayMem with
  | false => exact absurd hexpand nofun
  | true =>
      have hmax : allocSlots (t.max * 2 + 1) ≠ 0 := by
        intro hzero
        simp only [HashT.expandArray, if_true, hzero, Option.bind_eq_bind,
          Option.bind_eq_some_iff] at hexpand
        obtain ⟨st, hloop, -⟩ := hexpand
        have hnone := expandBuckets_noSlots hloop i (h.slots ▸ hi)
        have hhead := (h.bucket i hi).start_eq_head?
        rw [hnone, eq_comm, List.head?_eq_none_iff] at hhead
        exact List.ne_nil_of_mem hp hhead
      have hslots := allocSlots_eq hmax
      obtain ⟨t'', chain', hexpand', hexpands, hchained⟩ := h.expandArray hslots
      obtain rfl := Option.some.inj (hexpand'.symm.trans hexpand)
      exact ⟨hslots, chain', hexpands, hchained⟩

end BliveQueue.Hash
