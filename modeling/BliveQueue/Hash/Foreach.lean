/-
# Walking the table

`hash_foreach` follows the chain of every bucket in turn and gives each entry to the
callback, until the callback says no. On a well-formed table the walk stays in memory,
and it is the same as giving the callback the entries of all chains one by one.
-/

import Mathlib.Data.List.Flatten
import BliveQueue.Hash.Chains

namespace BliveQueue.Hash

open BliveQueue.Math.LinkedChain BliveQueue.Utils.Hash BliveQueue.Utils.Hash.HashT

variable {β : Type} {t : HashT β} {chain : ℕ → List EntryPtr} {recycled : List EntryPtr}

/-! ## Feeding a callback -/

section Feed

variable {α : Type} (callback : List α → Bool)

/-- Give the callback one item after the other until it says no. -/
def feed : List α → List α → List α × Bool
  | given, [] => (given, true)
  | given, x :: items =>
    if callback (given ++ [x]) then feed (given ++ [x]) items else (given ++ [x], false)

@[simp] theorem feed_nil (given : List α) : feed callback given [] = (given, true) := rfl

theorem feed_append (given items items' : List α) :
    feed callback given (items ++ items') =
      if (feed callback given items).2 then feed callback (feed callback given items).1 items'
      else feed callback given items := by
  induction items generalizing given with
  | nil => simp
  | cons x items ih =>
      rw [List.cons_append, feed, feed]
      by_cases hcontinues : callback (given ++ [x]) = true
      · rw [if_pos hcontinues, if_pos hcontinues]
        exact ih (given ++ [x])
      · rw [if_neg hcontinues, if_neg hcontinues]
        simp

/-- A callback that never says no is given everything. -/
theorem feed_of_continues {given items : List α}
    (h : ∀ given, ∀ x ∈ items, callback (given ++ [x]) = true) :
    feed callback given items = (given ++ items, true) := by
  induction items generalizing given with
  | nil => simp
  | cons x items ih =>
      rw [feed, if_pos (h given x List.mem_cons_self),
        ih fun given y hy => h given y (List.mem_cons_of_mem x hy), List.append_assoc,
        List.singleton_append]

end Feed

/-! ## The walk -/

/-- What the callback is given for an entry. -/
def pairOf (entry : EntryPtr → Option (HashEntry β)) (p : EntryPtr) : CString × Option β :=
  match dataOf entry p with
  | none => ([], none)
  | some d => (d.key, d.value)

theorem pairOf_of_data {entry : EntryPtr → Option (HashEntry β)} {p : EntryPtr}
    {d : EntryData β} (h : dataOf entry p = some d) : pairOf entry p = (d.key, d.value) := by
  rw [pairOf, h]

/-- The inner loop along a chain. -/
theorem foreachChain_eq (callback : List (CString × Option β) → Bool) {fuel : ℕ}
    (given : List (CString × Option β)) {start : Option EntryPtr} {cells : List EntryPtr}
    (path : Path (nextOf t.entry) start cells none) (hfuel : cells.length ≤ fuel)
    (hlive : ∀ p ∈ cells, (t.entry p).isSome = true) :
    t.foreachChain callback fuel given start =
      some (feed callback given (cells.map (pairOf t.entry))) := by
  induction cells generalizing fuel given start with
  | nil =>
      obtain rfl := path
      rw [foreachChain]
      rfl
  | cons p cells ih =>
      obtain ⟨rfl, hrest⟩ := path
      obtain ⟨e, he⟩ := Option.isSome_iff_exists.mp (hlive p List.mem_cons_self)
      have hnext : nextOf t.entry p = e.next := by simp [nextOf, he]
      have hpair : pairOf t.entry p = (e.key, e.value) := by
        simp [pairOf, dataOf, he, HashEntry.data]
      cases fuel with
      | zero => simp at hfuel
      | succ fuel =>
          rw [List.map_cons, feed, hpair]
          simp only [foreachChain, he, Option.bind_eq_bind, Option.bind_some]
          by_cases hcontinues : callback (given ++ [(e.key, e.value)]) = true
          · rw [if_pos hcontinues, if_pos hcontinues]
            exact ih _ (hnext ▸ hrest) (Nat.le_of_succ_le_succ hfuel)
              fun q hq => hlive q (List.mem_cons_of_mem p hq)
          · rw [if_neg hcontinues, if_neg hcontinues]

/-- The entries of the buckets `i .. i + n`. -/
def walkOf (chain : ℕ → List EntryPtr) (i n : ℕ) : List EntryPtr :=
  (List.range' i n).flatMap chain

/-- The outer loop over some buckets. -/
theorem Chained.foreachBuckets_eq (h : Chained t chain recycled)
    {callback : List (CString × Option β) → Bool} {i n : ℕ} {given : List (CString × Option β)}
    (hn : i + n ≤ t.slots) :
    t.foreachBuckets callback n i given =
      some (feed callback given ((walkOf chain i n).map (pairOf t.entry))).1 := by
  induction n generalizing i given with
  | zero =>
      rw [foreachBuckets]
      rfl
  | succ n ih =>
      have hi : i < t.slots := by omega
      have hwalk : walkOf chain i (n + 1) = chain i ++ walkOf chain (i + 1) n := by
        rw [walkOf, List.range'_succ, List.flatMap_cons, walkOf]
      have hbucket := foreachChain_eq callback given (h.bucket i hi) (h.length_le i)
        fun p hp => h.isSome_entry hp
      rw [foreachBuckets, if_pos hi, hwalk, List.map_append, feed_append]
      simp only [hbucket, Option.bind_eq_bind, Option.bind_some]
      split
      · exact ih (by omega)
      · rfl

/-- All stored entries in the order of the walk. -/
def walk (t : HashT β) (chain : ℕ → List EntryPtr) : List EntryPtr := walkOf chain 0 t.slots

theorem Chained.mem_walk (h : Chained t chain recycled) {p : EntryPtr} :
    p ∈ walk t chain ↔ ∃ i, p ∈ chain i := by
  simp only [walk, walkOf, List.mem_flatMap, List.mem_range'_1, zero_add, Nat.zero_le, true_and]
  constructor
  · rintro ⟨i, -, hp⟩
    exact ⟨i, hp⟩
  · rintro ⟨i, hp⟩
    exact ⟨i, h.lt_slots hp, hp⟩

theorem Chained.nodup_walk (h : Chained t chain recycled) : (walk t chain).Nodup := by
  rw [walk, walkOf, List.nodup_flatMap]
  refine ⟨fun i _ => h.nodup i, ?_⟩
  have hne : List.Pairwise (fun i j => i ≠ j) (List.range' 0 t.slots) := List.nodup_range'
  refine hne.imp fun {i j} hij p hi hj => hij (h.bucket_unique hi hj)

/-- The walk stays in memory and offers the stored entries to the callback. -/
theorem Chained.hashForeach_eq (h : Chained t chain recycled)
    (callback : List (CString × Option β) → Bool) :
    t.hashForeach callback =
      some (feed callback [] ((walk t chain).map (pairOf t.entry))).1 := by
  rw [hashForeach, ← h.slots]
  exact h.foreachBuckets_eq (by omega)

end BliveQueue.Hash
