/-
# New tables

`hash_create` rounds four thirds of the wanted size up to a power of two, in 32-bit
arithmetic. The product wraps for large sizes, so the power covers the wrapped number
and nothing more; but the doubling always ends, because a third of a 32-bit number is
less than 2^31.
-/

import BliveQueue.Hash.Chains

namespace BliveQueue.Hash

open BliveQueue.Utils.Hash BliveQueue.Utils.Hash.HashT

variable {β : Type} {size maxSize max : UInt32} {hashFunc : Option (CString → UInt32)}

/-- The doubling loop ends at the first power of two that is large enough. -/
theorem roundUp_pow (hsize : size.toNat ≤ 2 ^ 31) {fuel j : ℕ} (hmax : maxSize.toNat = 2 ^ j)
    (hj : j ≤ 31) (hfuel : 31 ≤ j + fuel) :
    ∃ r k, roundUp size fuel maxSize = some r ∧ r.toNat = 2 ^ k ∧ k ≤ 31 ∧ size.toNat ≤ 2 ^ k ∧
      ∀ m, j ≤ m → size.toNat ≤ 2 ^ m → k ≤ m := by
  induction fuel generalizing j maxSize with
  | zero =>
      obtain rfl : j = 31 := by omega
      have hnot : ¬ maxSize < size := by
        rw [UInt32.lt_iff_toNat_lt, hmax]
        exact not_lt.mpr hsize
      exact ⟨maxSize, 31, by rw [roundUp, if_neg hnot], hmax, le_rfl, hsize, fun _ hm _ => hm⟩
  | succ fuel ih =>
      rw [roundUp]
      by_cases hlt : maxSize < size
      · rw [if_pos hlt]
        have hpow : 2 ^ j < size.toNat := by
          rw [← hmax]
          exact UInt32.lt_iff_toNat_lt.mp hlt
        have hj' : j < 31 := (Nat.pow_lt_pow_iff_right (by decide)).mp (hpow.trans_le hsize)
        have hdouble : (maxSize <<< 1).toNat = 2 ^ (j + 1) := by
          rw [UInt32.toNat_shiftLeft, hmax, Nat.shiftLeft_eq]
          change 2 ^ j * 2 ^ 1 % 2 ^ 32 = 2 ^ (j + 1)
          rw [← pow_add]
          exact Nat.mod_eq_of_lt (Nat.pow_lt_pow_right (by decide) (by omega))
        obtain ⟨r, k, hround, hr, hk, hle, hleast⟩ := ih hdouble hj' (by omega)
        refine ⟨r, k, hround, hr, hk, hle, fun m hm hsizem => hleast m ?_ hsizem⟩
        have hjm : j < m := (Nat.pow_lt_pow_iff_right (by decide)).mp (hpow.trans_le hsizem)
        exact hjm
      · rw [if_neg hlt]
        have hle : size.toNat ≤ 2 ^ j := by
          rw [← hmax]
          exact UInt32.le_iff_toNat_le.mp (UInt32.not_lt.mp hlt)
        exact ⟨maxSize, j, rfl, hmax, hj, hle, fun _ hm _ => hm⟩

/-- A table without entries. -/
def newTable (max : UInt32) (hashFunc : Option (CString → UInt32)) : HashT β where
  array _ := none
  slots := allocSlots max
  count := 0
  max := max
  hashFunc := hashFunc.getD hashfuncDefault
  free := none
  entry _ := none

theorem hashCreate_zero :
    (hashCreate 0 hashFunc : Option (HashT β)) = some (newTable initialMax hashFunc) := rfl

/-- The number that is rounded up, with its wrap-around. -/
def needed (size : UInt32) : ℕ := size.toNat * 4 % 2 ^ 32 / 3

theorem toNat_needed (size : UInt32) : (size * 4 / 3).toNat = needed size := by
  rw [UInt32.toNat_div, UInt32.toNat_mul]
  rfl

/-- A table can be created for every size, and its array has the first power of two of
slots that covers the number that is rounded up. -/
theorem exists_create (hsize : size ≠ 0) (hashFunc : Option (CString → UInt32)) :
    ∃ max k, (hashCreate size hashFunc : Option (HashT β)) = some (newTable max hashFunc) ∧
      k ≤ 31 ∧ max.toNat + 1 = 2 ^ k ∧ needed size ≤ 2 ^ k ∧ ∀ m, needed size ≤ 2 ^ m → k ≤ m := by
  have hbound : (size * 4 / 3).toNat ≤ 2 ^ 31 := by
    rw [toNat_needed, needed]
    omega
  obtain ⟨r, k, hround, hr, hk, hle, hleast⟩ := roundUp_pow hbound
    (show (1 : UInt32).toNat = 2 ^ 0 from rfl) (Nat.zero_le _) (show 31 ≤ 0 + 32 by decide)
  rw [toNat_needed] at hle hleast
  have hpos : 1 ≤ r.toNat := hr ▸ Nat.one_le_two_pow
  have hone : (1 : UInt32) ≤ r := UInt32.le_iff_toNat_le.mpr hpos
  refine ⟨r - 1, k, ?_, hk, ?_, hle, fun m => hleast m (Nat.zero_le m)⟩
  · simp only [hashCreate, if_neg hsize, hround, Option.map_some, Option.bind_eq_bind,
      Option.bind_some]
    rfl
  · rw [UInt32.toNat_sub_of_le _ _ hone, ← hr]
    exact Nat.sub_add_cancel hpos

/-- What a creation with any size has made. -/
theorem exists_newTable_of_create {t : HashT β} (hcreate : hashCreate size hashFunc = some t) :
    ∃ max k, t = newTable max hashFunc ∧ k ≤ 31 ∧ max.toNat + 1 = 2 ^ k ∧
      (needed size ≤ 2 ^ 30 → k ≤ 30) := by
  by_cases hzero : size = 0
  · subst hzero
    rw [hashCreate_zero] at hcreate
    exact ⟨initialMax, 4, (Option.some.inj hcreate).symm, by decide, rfl, fun _ => by decide⟩
  · obtain ⟨max, k, hcreate', hk, hmask, -, hleast⟩ := exists_create (β := β) hzero hashFunc
    exact ⟨max, k, Option.some.inj (hcreate.symm.trans hcreate'), hk, hmask, hleast 30⟩

/-- The number of slots of an array that covers a power of two. -/
theorem allocSlots_of_pow {k : ℕ} (hk : k ≤ 31) (hmask : max.toNat + 1 = 2 ^ k) :
    allocSlots max = max.toNat + 1 := by
  have hlt := lt_of_mask ⟨k, hk, hmask⟩
  have hadd : allocSlots max = (max.toNat + 1) % 2 ^ 32 := UInt32.toNat_add max 1
  rw [hadd]
  exact Nat.mod_eq_of_lt (by omega)

/-- A new table has empty buckets. -/
theorem chained_newTable (hslots : allocSlots max = max.toNat + 1) :
    Chained (newTable max hashFunc : HashT β) (fun _ => []) [] where
  slots := hslots
  bucket _ _ := rfl
  beyond _ _ := rfl
  freeList := rfl
  nodup _ := List.nodup_nil
  recycledNodup := List.nodup_nil
  stored _ _ hp := absurd hp List.not_mem_nil
  idle _ hp := absurd hp List.not_mem_nil
  count := ⟨∅, by simp, rfl⟩

end BliveQueue.Hash
