/-
# The size of a table

The mask of every table covers a power of two of slots, so a masked hash is always a
slot, and growing doubles the slots and keeps the entries. Whether a new table takes
the number of entries that it was asked for is another matter: the table grows as soon
as it holds more than `max` entries, and the number that is rounded up wraps.
-/

import BliveQueue.Hash.Filed

namespace BliveQueue.Hash

open BliveQueue.Math BliveQueue.Utils.Hash BliveQueue.Utils.Hash.HashT

variable {β : Type} {t t' t₀ : HashT β} {chain chain' chain₀ : ℕ → List EntryPtr}
variable {recycled recycled' : List EntryPtr} {key : CString} {p : EntryPtr} {v : β} {n : ℕ}
variable {history : List (HashCall β × HashRet β)}

/-! ## Slots -/

/-- The array has a power of two of slots, and the mask of every hash is one of them. -/
def Masked (t : HashT β) : Prop :=
  (∃ k ≤ 31, t.max.toNat + 1 = 2 ^ k) ∧ ∀ hash, bucketIndex hash t.max < t.slots

theorem Filed.masked (h : Filed t chain recycled) : Masked t :=
  ⟨h.mask, h.chained.bucketIndex_lt⟩

/-! ## Growing -/

/-- Every pair of the table, in the order of the walk. -/
theorem Chained.foreach_all (h : Chained t chain recycled) :
    t.hashForeach (fun _ => true) = some ((walk t chain).map (pairOf t.entry)) := by
  rw [h.hashForeach_eq, feed_of_continues _ fun _ _ _ => rfl, List.nil_append]

/-- The table has grown to twice its slots and its entries are those of before and the
added ones. -/
structure Grown (t : HashT β) (added : List (CString × Option β)) (t' : HashT β) : Prop where
  masked : Masked t'
  doubled : t'.max.toNat + 1 = 2 * (t.max.toNat + 1)
  kept : ∃ pairs pairs', t.hashForeach (fun _ => true) = some pairs ∧
    t'.hashForeach (fun _ => true) = some pairs' ∧ pairs'.Perm (added ++ pairs)

/-- Growing this table loses no entry, and neither does a push that makes it grow. -/
structure GrowsWhole (t : HashT β) : Prop where
  expand : ∃ t', t.expandArray true = some t' ∧ Grown t [] t'
  push : ∀ key v mem, Kept t (.push key v mem) → (t.find key).map Prod.snd = some false →
    t.count = t.max → ∃ t', t.hashPush key v (some mem) true = some (none, t') ∧
      Grown t [(storedKey key, some v)] t'

/-- Entries with the same data are walked in some order. -/
theorem map_walk_perm {cells : List EntryPtr} (h : Chained t' chain' recycled')
    (nodup : cells.Nodup) (members : ∀ p, p ∈ cells ↔ InTable chain' p) :
    ((walk t' chain').map (pairOf t'.entry)).Perm (cells.map (pairOf t'.entry)) := by
  apply List.Perm.map
  apply (List.perm_ext_iff_of_nodup h.nodup_walk nodup).mpr
  exact fun p => h.mem_walk.trans (members p).symm

theorem pairOf_congr {entry entry' : EntryPtr → Option (HashEntry β)}
    (h : dataOf entry' p = dataOf entry p) : pairOf entry' p = pairOf entry p := by
  rw [pairOf, pairOf, h]

theorem Filed.exists_expanded (h : Filed t chain recycled) (hlimit : t.max.toNat < 2 ^ 31 - 1) :
    ∃ t', t.expandArray true = some t' ∧ Grown t [] t' := by
  obtain ⟨t', chain', hexpand, expands, hchained, hdouble, hmask⟩ :=
    h.chained.exists_expanded h.mask (by omega)
  refine ⟨t', hexpand, ⟨hmask, hchained.bucketIndex_lt⟩, by omega, _, _, h.chained.foreach_all,
    hchained.foreach_all, ?_⟩
  have hperm := map_walk_perm hchained h.chained.nodup_walk
    fun p => h.chained.mem_walk.trans (expands.members p).symm
  have hsame : (walk t chain).map (pairOf t'.entry) = (walk t chain).map (pairOf t.entry) :=
    List.map_congr_left fun p _ => pairOf_congr (congrFun expands.data p)
  rwa [hsame] at hperm

theorem Filed.push_grown (h : Filed t chain recycled) (hlimit : t.max.toNat < 2 ^ 31 - 1) (v : β)
    {mem : EntryPtr} (hmem : t.entry mem = none) (hno : ¬ Present t chain key)
    (hfull : t.count = t.max) :
    ∃ t', t.hashPush key v (some mem) true = some (none, t') ∧
      Grown t [(storedKey key, some v)] t' := by
  obtain ⟨p, t', chain', recycled', hpush, hfiled, adds⟩ :=
    h.push_missing hno (by rw [hfull]; omega) v hmem
  have hgrew := adds.max
  rw [hfull] at hgrew
  have hdouble : t'.max.toNat = 2 * t.max.toNat + 1 :=
    (hgrew.resolve_left fun hless => absurd hless.1 (lt_irrefl _)).2
  have hp : p ∉ walk t chain := fun hmem => (h.chained.mem_walk.mp hmem).elim adds.fresh
  have hperm := map_walk_perm hfiled.chained
    (List.nodup_cons.mpr ⟨hp, h.chained.nodup_walk⟩) fun q => by
      rw [adds.members, List.mem_cons, h.chained.mem_walk, or_comm]
      rfl
  have hnew : pairOf t'.entry p = (storedKey key, some v) := pairOf_of_data adds.data_self
  have hsame : (walk t chain).map (pairOf t'.entry) = (walk t chain).map (pairOf t.entry) := by
    refine List.map_congr_left fun q hq => pairOf_congr ?_
    rw [adds.data, Function.update_of_ne (ne_of_mem_of_not_mem hq hp)]
  rw [List.map_cons, hnew, hsame] at hperm
  exact ⟨t', hpush, hfiled.masked, by omega, _, _, h.chained.foreach_all,
    hfiled.chained.foreach_all, hperm⟩

theorem Filed.growsWhole (h : Filed t chain recycled) (hlimit : t.max.toNat < 2 ^ 31 - 1) :
    GrowsWhole t where
  expand := h.exists_expanded hlimit
  push _ v _ hkept hmissing hfull :=
    h.push_grown hlimit v hkept.2 ((h.chained.find_iff _).2.mp hmissing) hfull

/-! ## Room for some entries -/

/-- The call does not make the table hold more than `n` entries. -/
def Within (n : ℕ) (t : HashT β) : HashCall β → Prop
  | .push key _ _ => (t.find key).map Prod.snd = some true ∨ t.count.toNat < n
  | .pop _ | .count | .foreach _ => True

/-- Up to `n` entries the table neither fails nor grows. -/
def Fits (n : ℕ) (t : HashT β) : Prop :=
  ∀ history t', (keyedSystem (· = t)).Run (fun t label => Within n t label.1) history t' →
    t'.max = t.max ∧
      ∀ call, Kept t' call → Within n t' call → ∃ ret t'', call.run t' = some (ret, t'')

/-- A call within the mask returns and does not make the table grow. -/
theorem Filed.run_within (h : Filed t chain recycled) (hn : n ≤ t.max.toNat) {call : HashCall β}
    (kept : Kept t call) (within : Within n t call) :
    ∃ ret t' chain' recycled', call.run t = some (ret, t') ∧ Filed t' chain' recycled' ∧
      t'.max = t.max := by
  have hmaxlt := h.max_lt
  have hload := h.load
  cases call with
  | push key v mem =>
      have hbelow : Present t chain key ∨ t.count.toNat + 1 ≤ n :=
        within.imp_left (h.chained.find_iff key).1.mp
      obtain ⟨ret, t₀, chain₀, t', chain', recycled', hpush, hpushes, hsettles, hfiled⟩ :=
        h.push key v kept.2 (hbelow.imp_right fun _ => by omega)
      obtain ⟨-, hmax, -, hcounts⟩ := h.pushed hpushes
      refine ⟨.value ret, t', chain', recycled', by rw [HashCall.run, hpush]; rfl, hfiled, ?_⟩
      cases hsettles with
      | fits => exact hmax
      | grew exceeds doubled expands =>
          rw [hmax] at exceeds
          rcases hcounts with ⟨-, hsame⟩ | ⟨hno, hnew⟩
          · omega
          · have hroom := hbelow.resolve_left hno
            omega
  | pop key =>
      obtain ⟨ret, t', chain', recycled', hpop, hpops, hfiled⟩ := h.pop key
      refine ⟨.value ret, t', chain', recycled', by rw [HashCall.run, hpop]; rfl, hfiled, ?_⟩
      cases hpops with
      | absent missing => rfl
      | removed stored hit held same count data => exact same.max
  | count => exact ⟨_, t, chain, recycled, rfl, h, rfl⟩
  | foreach callback =>
      have hwalk := h.chained.hashForeach_eq callback
      exact ⟨_, t, chain, recycled, by rw [HashCall.run, hwalk]; rfl, h, rfl⟩

/-- Up to `max` entries a created table does not grow. -/
theorem fits_of_le (hcreated : Created t) (hn : n ≤ t.max.toNat) : Fits n t := by
  intro history t' run
  have hinv : ∃ chain recycled, Filed t' chain recycled ∧ t'.max = t.max := by
    apply run.invariant (I := fun _ t' => ∃ chain recycled, Filed t' chain recycled ∧
      t'.max = t.max)
    · rintro s rfl
      exact ⟨_, _, Filed.of_created hcreated, rfl⟩
    · rintro history s ⟨call, ret⟩ s' - ⟨chain, recycled, hfiled, hmax⟩ hwithin ⟨hkept, hrun⟩
      obtain ⟨ret', s'', chain', recycled', hrun', hfiled', hmax'⟩ :=
        hfiled.run_within (hmax ▸ hn) hkept hwithin
      obtain ⟨rfl, rfl⟩ := Prod.mk.inj (Option.some.inj (hrun.symm.trans hrun'))
      exact ⟨chain', recycled', hfiled', hmax'.trans hmax⟩
  obtain ⟨chain, recycled, hfiled, hmax⟩ := hinv
  refine ⟨hmax, fun call hkept hwithin => ?_⟩
  obtain ⟨ret, t'', -, -, hrun, -⟩ := hfiled.run_within (hmax ▸ hn) hkept hwithin
  exact ⟨ret, t'', hrun⟩

/-- Pushing a new key into a full table makes it grow. -/
theorem not_fits_of_full (h : Filed t' chain recycled)
    (run : (keyedSystem (· = t)).Run (fun t label => Within n t label.1) history t')
    (hn : t'.count.toNat < n) (hlimit : t'.max.toNat < 2 ^ 31 - 1) (hzero : 0 ∉ key)
    (hno : ¬ Present t' chain key) (v : β) (hfull : t'.count.toNat = t'.max.toNat) :
    ¬ Fits n t := by
  intro fits
  obtain ⟨mem, hmem⟩ := h.exists_fresh
  obtain ⟨p, t'', chain'', recycled'', hpush, -, adds⟩ := h.push_missing hno (by omega) v hmem
  have hstep : (keyedSystem (· = t)).step t' (.push key v mem, .value none) t'' :=
    ⟨⟨hzero, hmem⟩, by rw [HashCall.run, hpush]; rfl⟩
  have hwithin : Within n t' (.push key v mem) := Or.inr hn
  have hsame := (fits _ t'' (run.extend hwithin hstep)).1
  rw [← (fits history t' run).1] at hsame
  have hdouble := (adds.max.resolve_left fun hless => absurd hfull hless.1.ne).2
  rw [hsame] at hdouble
  omega

/-- A new table of one slot takes no entry, and one of two slots takes one. -/
theorem not_fits_of_small [Inhabited β] (hcreated : Created t) (hsize : t.max.toNat + 1 = n)
    (hn : n ≤ 2) : ¬ Fits n t := by
  have hfiled := Filed.of_created hcreated
  have hempty : t.count.toNat = 0 := by
    obtain ⟨live, hlive, hcount⟩ := hfiled.chained.count
    rw [hcount, Finset.card_eq_zero]
    refine Finset.eq_empty_of_forall_notMem fun p hp => ?_
    obtain ⟨i, hi⟩ := (hlive p).mp hp
    exact List.not_mem_nil hi
  have hnone : ∀ key, ¬ Present t (fun _ => []) key := by
    rintro key ⟨p, ⟨i, hi⟩, -⟩
    exact List.not_mem_nil hi
  have hstart : (keyedSystem (· = t)).Run (fun t label => Within n t label.1) [] t := .start rfl
  have hone : (0 : UInt8) ∉ [1] := by decide
  have htwo : (0 : UInt8) ∉ [2] := by decide
  rcases Nat.eq_zero_or_pos t.max.toNat with hmax | hmax
  · exact not_fits_of_full hfiled hstart (by omega) (by omega) hone (hnone [1]) default (by omega)
  · -- after one key the table of two slots is full
    obtain ⟨mem, hmem⟩ := hfiled.exists_fresh
    obtain ⟨p, t', chain', recycled', hpush, hfiled', adds⟩ :=
      hfiled.push_missing (hnone [1]) (by omega) default hmem
    have hcount := adds.count
    have hstep : (keyedSystem (· = t)).step t (.push [1] default mem, .value none) t' :=
      ⟨⟨hone, hmem⟩, by rw [HashCall.run, hpush]; rfl⟩
    have hmax' : t'.max = t.max := (adds.max.resolve_right fun hfull => by omega).2
    have hno : ¬ Present t' chain' [2] := by
      rintro ⟨q, hq, d, hd, -, hkey⟩
      obtain rfl : q = p :=
        ((adds.members q).mp hq).resolve_left fun hold =>
          hold.elim fun _ hi => List.not_mem_nil hi
      rw [adds.data_self] at hd
      obtain rfl := Option.some.inj hd
      have hdiffer : storedKey [1] ≠ [2] := by decide
      exact hdiffer hkey
    have hwithin : Within n t (.push [1] default mem) := Or.inr (by omega)
    exact not_fits_of_full hfiled' (hstart.extend hwithin hstep) (by omega)
      (by rw [hmax']; omega) htwo hno default (by rw [hmax']; omega)

/-! ## Sizes -/

/-- What a table of the wanted size has to offer. -/
structure WellSized (size : UInt32) (t : HashT β) : Prop where
  masked : Masked t
  room : size.toNat ≤ t.max.toNat + 1
  fits : Fits size.toNat t
  grows : ∀ history t', (keyedSystem (· = t)).Trace history t' → Masked t' ∧
    (t'.max.toNat < 2 ^ 31 - 1 → GrowsWhole t')

/-- The sizes whose product does not wrap, or wraps to a number that is still rounded up
to 2^31, apart from 1 and 2. -/
def SizeFits (size : UInt32) : Prop :=
  size = 0 ∨ 3 ≤ size.toNat ∧ size.toNat < 2 ^ 30 ∨
    7 * 2 ^ 28 < size.toNat ∧ size.toNat < 2 ^ 31

/-- Every table that can be reached from a created one is masked and grows whole. -/
theorem grows_of_created (hcreated : Created t) (history : List (HashCall β × HashRet β))
    (t' : HashT β) (run : (keyedSystem (· = t)).Trace history t') :
    Masked t' ∧ (t'.max.toNat < 2 ^ 31 - 1 → GrowsWhole t') := by
  obtain ⟨chain, recycled, hfiled, -⟩ := Run.filed (fun s hs => hs ▸ hcreated) run
  exact ⟨hfiled.masked, hfiled.growsWhole⟩

/-- The table of a size has more slots than the size asks for, if the size fits. -/
theorem le_max_of_sizeFits {size : UInt32} (hashFunc : Option (CString → UInt32))
    (hfits : SizeFits size) :
    ∃ t : HashT β, hashCreate size hashFunc = some t ∧ size.toNat ≤ t.max.toNat := by
  by_cases hzero : size = 0
  · subst hzero
    exact ⟨_, hashCreate_zero, Nat.zero_le _⟩
  · obtain ⟨max, k, hcreate, -, hmask, hle, -⟩ := exists_create (β := β) hzero hashFunc
    have hsize := hfits.resolve_left hzero
    refine ⟨_, hcreate, ?_⟩
    change size.toNat ≤ max.toNat
    rw [needed] at hle
    rcases hsize with ⟨hlow, hhigh⟩ | ⟨hlow, hhigh⟩
    · omega
    · have hk : 30 < k := by
        have hpow : 2 ^ 30 < 2 ^ k := by omega
        exact (Nat.pow_lt_pow_iff_right (by decide)).mp hpow
      have hbig : 2 ^ 31 ≤ 2 ^ k := Nat.pow_le_pow_right (by decide) hk
      omega

/-- The table of a size that does not fit has too few slots, or as many as the size asks
for and at most two. -/
theorem small_of_not_sizeFits {size : UInt32} (hashFunc : Option (CString → UInt32))
    (hfits : ¬ SizeFits size) :
    ∃ t : HashT β, hashCreate size hashFunc = some t ∧ (t.max.toNat + 1 < size.toNat ∨
      t.max.toNat + 1 = size.toNat ∧ size.toNat ≤ 2) := by
  obtain ⟨hzero, hrest⟩ := not_or.mp hfits
  obtain ⟨max, k, hcreate, hk, hmask, hle, hleast⟩ := exists_create (β := β) hzero hashFunc
  refine ⟨_, hcreate, ?_⟩
  change max.toNat + 1 < size.toNat ∨ max.toNat + 1 = size.toNat ∧ size.toNat ≤ 2
  have hpos : size.toNat ≠ 0 := fun h => hzero (UInt32.toNat_inj.mp h)
  have hlt := size.toNat_lt
  rw [needed] at hle hleast
  have hpow : ∀ m, size.toNat * 4 % 2 ^ 32 / 3 ≤ 2 ^ m → max.toNat + 1 ≤ 2 ^ m :=
    fun m hm => hmask.trans_le (Nat.pow_le_pow_right (by decide) (hleast m hm))
  have hcap : max.toNat + 1 ≤ 2 ^ 31 := hmask.trans_le (Nat.pow_le_pow_right (by decide) hk)
  have hzeroPow := hpow 0
  have honePow := hpow 1
  have hmiddle := hpow 30
  rcases Nat.lt_or_ge size.toNat 3 with hsmall | hlarge
  · have hcases : size.toNat = 1 ∨ size.toNat = 2 := by omega
    rcases hcases with hsize | hsize
    · rw [hsize] at hle hzeroPow ⊢
      omega
    · rw [hsize] at hle honePow ⊢
      omega
  · left
    omega

/-- A created table is well sized if and only if its size fits: it is 0, or at least 3 and
less than 2^30, or between 7 · 2^28 and 2^31. The slots are a power of two and growing
keeps every entry for all sizes. -/
theorem wellSized_iff [Inhabited β] (size : UInt32) (hashFunc : Option (CString → UInt32)) :
    ∃ t : HashT β, hashCreate size hashFunc = some t ∧ Masked t ∧
      (∀ history t', (keyedSystem (· = t)).Trace history t' → Masked t' ∧
        (t'.max.toNat < 2 ^ 31 - 1 → GrowsWhole t')) ∧
      (WellSized size t ↔ SizeFits size) := by
  have hall : ∀ t : HashT β, hashCreate size hashFunc = some t → Masked t ∧
      ∀ history t', (keyedSystem (· = t)).Trace history t' → Masked t' ∧
        (t'.max.toNat < 2 ^ 31 - 1 → GrowsWhole t') := by
    intro t hcreate
    have hcreated : Created t := ⟨size, hashFunc, hcreate⟩
    exact ⟨(Filed.of_created hcreated).masked, grows_of_created hcreated⟩
  by_cases hfits : SizeFits size
  · obtain ⟨t, hcreate, hle⟩ := le_max_of_sizeFits (β := β) hashFunc hfits
    obtain ⟨hmasked, hgrows⟩ := hall t hcreate
    refine ⟨t, hcreate, hmasked, hgrows, iff_of_true ⟨hmasked, by omega, ?_, hgrows⟩ hfits⟩
    exact fits_of_le ⟨size, hashFunc, hcreate⟩ hle
  · obtain ⟨t, hcreate, hsmall⟩ := small_of_not_sizeFits (β := β) hashFunc hfits
    obtain ⟨hmasked, hgrows⟩ := hall t hcreate
    refine ⟨t, hcreate, hmasked, hgrows, iff_of_false (fun sized => ?_) hfits⟩
    rcases hsmall with hless | ⟨hequal, htwo⟩
    · exact absurd sized.room (not_le.mpr hless)
    · exact not_fits_of_small ⟨size, hashFunc, hcreate⟩ hequal htwo sized.fits

/-- A table for 2^30 entries is made with one slot. -/
theorem exists_wrapped_size :
    ¬ ∀ (size : UInt32) (hashFunc : Option (CString → UInt32)),
      ∃ t : HashT ℕ, hashCreate size hashFunc = some t ∧ WellSized size t := by
  intro hevery
  obtain ⟨t, hcreate, sized⟩ := hevery (2 ^ 30) none
  have hone : (hashCreate (2 ^ 30) none : Option (HashT ℕ)).map (fun t => t.max) = some 0 := by
    decide +kernel
  rw [hcreate] at hone
  have hmax : t.max = 0 := Option.some.inj hone
  have hroom := sized.room
  rw [hmax] at hroom
  exact absurd hroom (by decide)

end BliveQueue.Hash
