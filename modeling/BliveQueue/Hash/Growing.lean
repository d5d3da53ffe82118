/-
# The end of a push

A push changes one entry and then compares the counter with `max`. If the counter is
larger the array grows; at 2^31 slots the number of slots of the next array wraps to
zero, and the entries have nowhere to go.
-/

import BliveQueue.Hash.Expansion
import BliveQueue.Hash.Operations

namespace BliveQueue.Hash

open BliveQueue.Utils.Hash BliveQueue.Utils.Hash.HashT

variable {β : Type} {t t' : HashT β} {chain : ℕ → List EntryPtr} {recycled : List EntryPtr}
variable {i : ℕ} {p : EntryPtr}

/-- The counter after an insertion. -/
theorem toNat_count_add_one (h : t.count.toNat < 2 ^ 31) :
    (t.count + 1).toNat = t.count.toNat + 1 := by
  rw [UInt32.toNat_add]
  exact Nat.mod_eq_of_lt (by change t.count.toNat + 1 < 2 ^ 32; omega)

theorem allocSlots_mod (max : UInt32) : allocSlots max = (max.toNat + 1) % 2 ^ 32 :=
  UInt32.toNat_add max 1

/-- An insertion finds an entry to use. -/
theorem Chained.exists_takeEntry (h : Chained t chain recycled) (mem : EntryPtr) :
    ∃ r, t.takeEntry (some mem) = some r := by
  unfold HashT.takeEntry
  split
  next p hfree =>
    have hpath := h.freeList
    rw [hfree] at hpath
    cases recycled with
    | nil => exact absurd hpath nofun
    | cons q rest =>
        obtain rfl := Option.some.inj hpath.1
        obtain ⟨d, hd, -⟩ := h.idle p List.mem_cons_self
        obtain ⟨e, he, -⟩ := exists_entry_of_dataOf hd
        exact ⟨_, by rw [he]; rfl⟩
  next => exact ⟨_, rfl⟩

/-- A push reaches the point where the table may grow. -/
theorem Chained.exists_pushes (h : Chained t chain recycled) (hcount : t.count.toNat + 1 < 2 ^ 32)
    (key : CString) (v : β) {mem : EntryPtr} (hmem : t.entry mem = none) :
    ∃ ret t' chain' recycled', t.hashPush key v (some mem) true = grown true ret t' ∧
      Pushes t chain key v ret t' chain' ∧ Chained t' chain' recycled' := by
  rcases h.find_eq key with ⟨pre, p, post, hcut, hit, -, hfind⟩ | ⟨missing, hfind⟩
  · obtain ⟨ret, t', hpush⟩ := h.push_replace v (some mem) true hcut hit hfind
    exact ⟨ret, t', chain, recycled, hpush⟩
  · obtain ⟨⟨p, value, t₁⟩, htake⟩ := h.exists_takeEntry mem
    have hfresh : ∀ q, some mem = some q → t.entry q = none := by
      intro q hq
      obtain rfl := Option.some.inj hq
      exact hmem
    obtain ⟨t', chain', recycled', hpush⟩ :=
      h.push_insert v true hfresh hcount missing hfind htake
    exact ⟨none, t', chain', recycled', hpush⟩

/-- An array of fewer than 2^31 slots can be doubled. -/
theorem Chained.exists_expanded (h : Chained t chain recycled)
    (mask : ∃ k ≤ 31, t.max.toNat + 1 = 2 ^ k) (hlimit : t.max.toNat + 1 < 2 ^ 31) :
    ∃ t' chain', t.expandArray true = some t' ∧ Expands t chain t' chain' ∧
      Chained t' chain' recycled ∧ t'.max.toNat = 2 * t.max.toNat + 1 ∧
        ∃ k ≤ 31, t'.max.toNat + 1 = 2 ^ k := by
  have hdouble := toNat_newMax mask
  have hslots : allocSlots (t.max * 2 + 1) = (t.max * 2 + 1).toNat + 1 := by
    rw [allocSlots_mod]
    exact Nat.mod_eq_of_lt (by omega)
  obtain ⟨t', chain', hexpand, expands, hchained⟩ := h.expandArray hslots
  refine ⟨t', chain', hexpand, expands, hchained, ?_, ?_⟩
  · rw [expands.max, hdouble]
  · rw [expands.max]
    exact mask_newMax mask hslots

/-- A table with 2^31 slots and more entries does not grow. -/
theorem Chained.grown_eq_none (h : Chained t chain recycled) (hp : p ∈ chain i)
    (mask : ∃ k ≤ 31, t.max.toNat + 1 = 2 ^ k) (hlimit : ¬ t.max.toNat + 1 < 2 ^ 31)
    (hover : t.max.toNat < t.count.toNat) (ret : Option β) : grown true ret t = none := by
  rw [grown_of_lt hover, Option.map_eq_none_iff]
  apply Option.eq_none_iff_forall_not_mem.mpr
  intro t'' hexpand
  obtain ⟨hslots, -⟩ := h.expandArray_of_some hp hexpand
  rw [allocSlots_mod, toNat_newMax mask] at hslots
  have hlt := lt_of_mask mask
  omega

end BliveQueue.Hash
