/-
# Tables under keys of any length

A key of more than 30 bytes is stored cut off, and the lookup compares whole keys, so
it never finds such an entry again. The table stays in order all the same: chains, load
and mask do not depend on the keys. What the table holds is then no finite map any
more, because two entries may carry the same cut-off key.
-/

import BliveQueue.Hash.MapView

namespace BliveQueue.Hash

open BliveQueue.Math BliveQueue.Utils.Hash BliveQueue.Utils.Hash.HashT

variable {β : Type} {t t' t₀ : HashT β} {chain chain' chain₀ : ℕ → List EntryPtr}
variable {recycled recycled' : List EntryPtr} {key key' : CString} {p q : EntryPtr}
variable {v : β} {ret : Option β} {start : HashT β → Prop}

/-! ## Calls with any key -/

/-- The key of a call is a C string, and a new entry is not allocated yet. -/
def Kept (t : HashT β) : HashCall β → Prop
  | .push key _ mem => 0 ∉ key ∧ t.entry mem = none
  | .pop key => 0 ∉ key
  | .count | .foreach _ => True

/-- Some tables under arbitrary sequences of calls with keys of any length. -/
def keyedSystem (start : HashT β → Prop) : System (HashT β) (HashCall β × HashRet β) where
  init := start
  step t label t' := Kept t label.1 ∧ label.1.run t = some (label.2, t')

/-- A table as `hash_create` makes it, for any size and any hash function. -/
def Created (t : HashT β) : Prop :=
  ∃ (size : UInt32) (hashFunc : Option (CString → UInt32)), hashCreate size hashFunc = some t

/-! ## Entries with a key -/

/-- Some entry of the table matches the key. -/
def Present (t : HashT β) (chain : ℕ → List EntryPtr) (key : CString) : Prop :=
  ∃ p, InTable chain p ∧ Matches t key p

/-- A match stands in the bucket of the key. -/
theorem Chained.mem_bucketOf (h : Chained t chain recycled) (hp : InTable chain p)
    (hit : Matches t key p) : p ∈ chain (bucketOf t key) := by
  obtain ⟨i, hi⟩ := hp
  obtain ⟨d, hd, -, rfl⟩ := h.stored i p hi
  obtain ⟨d', hd', hhash, -⟩ := hit
  obtain rfl := Option.some.inj (hd.symm.trans hd')
  rwa [bucketOf, ← hhash]

theorem Chained.notPresent_iff (h : Chained t chain recycled) :
    ¬ Present t chain key ↔ ∀ q ∈ chain (bucketOf t key), ¬ Matches t key q := by
  constructor
  · exact fun hno q hq hit => hno ⟨q, ⟨_, hq⟩, hit⟩
  · rintro missing ⟨q, hq, hit⟩
    exact missing q (h.mem_bucketOf hq hit) hit

/-- The lookup tells whether an entry matches. -/
theorem Chained.find_iff (h : Chained t chain recycled) (key : CString) :
    ((t.find key).map Prod.snd = some true ↔ Present t chain key) ∧
      ((t.find key).map Prod.snd = some false ↔ ¬ Present t chain key) := by
  rcases h.find_eq key with ⟨pre, p, post, hcut, hit, -, hfind⟩ | ⟨missing, hfind⟩
  · have hpresent : Present t chain key := ⟨p, ⟨bucketOf t key, by simp [hcut]⟩, hit⟩
    simp [hfind, hpresent]
  · have hno := h.notPresent_iff.mpr missing
    simp [hfind, hno]

theorem Matches.of_data {d d' : EntryData β} (hit : Matches t key p)
    (hashFunc : t'.hashFunc = t.hashFunc) (hd : dataOf t.entry p = some d)
    (hd' : dataOf t'.entry p = some d') (hhash : d'.hash = d.hash) (hkey : d'.key = d.key) :
    Matches t' key p := by
  obtain ⟨e, he, hash, hitKey⟩ := hit
  obtain rfl := Option.some.inj (hd.symm.trans he)
  exact ⟨d', hd', by rw [hhash, hash, hashFunc], hkey.trans hitKey⟩

/-- An entry whose data stays matches the same keys. -/
theorem matches_iff_of_eq (hashFunc : t'.hashFunc = t.hashFunc)
    (hdata : dataOf t'.entry p = dataOf t.entry p) : Matches t' key p ↔ Matches t key p := by
  rw [Matches, Matches, hdata, hashFunc]

/-- A push keeps every key that some entry matches. -/
theorem Pushes.present (h : Pushes t chain key v ret t' chain')
    (hpresent : Present t chain key') : Present t' chain' key' := by
  obtain ⟨q, hq, hit⟩ := hpresent
  cases h with
  | @replaced _ p d stored _ held same count data =>
      refine ⟨q, hq, ?_⟩
      rcases eq_or_ne q p with rfl | hne
      · have hnew : dataOf t'.entry q = some { d with value := some v } := by
          rw [data, Function.update_self]
        exact hit.of_data same.hashFunc held hnew rfl rfl
      · exact (matches_iff_of_eq same.hashFunc (update_of_ne data q hne)).mpr hit
  | @inserted _ p missing fresh same count data =>
      obtain ⟨i, hi⟩ := hq
      have hne : q ≠ p := ne_of_mem_of_not_mem hi (fresh i)
      refine ⟨q, inTable_concat.mpr (Or.inl ⟨i, hi⟩), ?_⟩
      exact (matches_iff_of_eq same.hashFunc (update_of_ne data q hne)).mpr hit

/-- A key that is not cut off is there after its push. -/
theorem Pushes.present_self (h : Pushes t chain key v ret t' chain') (hkey : key.length ≤ 30) :
    Present t' chain' key := by
  cases h with
  | @replaced _ p d stored hit held same count data =>
      have hnew : dataOf t'.entry p = some { d with value := some v } := by
        rw [data, Function.update_self]
      exact ⟨p, ⟨_, stored⟩, hit.of_data same.hashFunc held hnew rfl rfl⟩
  | @inserted _ p missing fresh same count data =>
      refine ⟨p, inTable_concat.mpr (Or.inr rfl), _, by rw [data, Function.update_self], ?_, ?_⟩
      · rw [same.hashFunc]
      · exact List.take_of_length_le hkey

/-- A removal keeps the entries of the other keys. -/
theorem Pops.present (h : Pops t chain key ret t' chain') (hchained : Chained t chain recycled)
    (hpresent : Present t chain key') (hne : key' ≠ key) : Present t' chain' key' := by
  obtain ⟨q, hq, hit⟩ := hpresent
  cases h with
  | absent missing => exact ⟨q, hq, hit⟩
  | @removed _ p d stored hitp held same count data =>
      have hqp : q ≠ p := by
        rintro rfl
        obtain ⟨d, hd, -, hkey⟩ := hitp
        obtain ⟨d', hd', -, hkey'⟩ := hit
        obtain rfl := Option.some.inj (hd.symm.trans hd')
        exact hne (hkey'.symm.trans hkey)
      exact ⟨q, (inTable_erase hchained stored).mpr ⟨hq, hqp⟩,
        (matches_iff_of_eq same.hashFunc (update_of_ne data q hqp)).mpr hit⟩

theorem Expands.present_iff (h : Expands t chain t' chain') :
    Present t' chain' key ↔ Present t chain key := by
  apply exists_congr
  intro p
  exact and_congr (h.members p) (matches_iff_of_eq h.hashFunc (congrFun h.data p))

/-! ## The invariant -/

/-- The table at the end of a push. -/
inductive Settles (t : HashT β) (chain : ℕ → List EntryPtr) :
    HashT β → (ℕ → List EntryPtr) → Prop
  | fits (load : t.count.toNat ≤ t.max.toNat) : Settles t chain t chain
  | grew {t' : HashT β} {chain' : ℕ → List EntryPtr} (exceeds : t.max.toNat < t.count.toNat)
      (doubled : t'.max.toNat = 2 * t.max.toNat + 1) (expands : Expands t chain t' chain') :
      Settles t chain t' chain'

theorem Settles.present_iff (h : Settles t chain t' chain') :
    Present t' chain' key ↔ Present t chain key := by
  cases h with
  | fits => exact Iff.rfl
  | grew exceeds doubled expands => exact expands.present_iff

theorem Settles.data (h : Settles t chain t' chain') : dataOf t'.entry = dataOf t.entry := by
  cases h with
  | fits => rfl
  | grew exceeds doubled expands => exact expands.data

theorem Settles.members (h : Settles t chain t' chain') (p : EntryPtr) :
    InTable chain' p ↔ InTable chain p := by
  cases h with
  | fits => exact Iff.rfl
  | grew exceeds doubled expands => exact expands.members p

theorem Settles.hashFunc (h : Settles t chain t' chain') : t'.hashFunc = t.hashFunc := by
  cases h with
  | fits => rfl
  | grew exceeds doubled expands => exact expands.hashFunc

theorem Settles.count (h : Settles t chain t' chain') : t'.count = t.count := by
  cases h with
  | fits => rfl
  | grew exceeds doubled expands => exact expands.count

/-- Chains, load and mask are in order and no stored key is longer than 30 bytes. -/
structure Filed (t : HashT β) (chain : ℕ → List EntryPtr) (recycled : List EntryPtr) :
    Prop where
  chained : Chained t chain recycled
  short : ∀ p, InTable chain p → ∀ d, dataOf t.entry p = some d → d.key.length ≤ 30
  load : t.count.toNat ≤ t.max.toNat
  mask : ∃ k ≤ 31, t.max.toNat + 1 = 2 ^ k
  finite : {p | dataOf t.entry p ≠ none}.Finite

theorem Filed.max_lt (h : Filed t chain recycled) : t.max.toNat < 2 ^ 31 := lt_of_mask h.mask

theorem Filed.count_lt (h : Filed t chain recycled) : t.count.toNat < 2 ^ 31 :=
  h.load.trans_lt h.max_lt

theorem Filed.hashCount_eq (h : Filed t chain recycled) : t.hashCount = t.count.toNat :=
  hashCount_of_lt h.count_lt

/-- The allocator can always hand out a new entry. -/
theorem Filed.exists_fresh (h : Filed t chain recycled) : ∃ p, t.entry p = none :=
  exists_unused h.finite

/-- A key of more than 30 bytes is never found. -/
theorem Filed.notPresent_of_long (h : Filed t chain recycled) (hkey : 30 < key.length) :
    ¬ Present t chain key := by
  rintro ⟨p, hp, d, hd, -, rfl⟩
  exact absurd (h.short p hp d hd) (not_le.mpr hkey)

/-- A created table is filed. -/
theorem Filed.of_created (h : Created t) : Filed t (fun _ => []) [] := by
  obtain ⟨size, hashFunc, hcreate⟩ := h
  obtain ⟨max, k, rfl, hk, hmask, -⟩ := exists_newTable_of_create hcreate
  refine ⟨chained_newTable (allocSlots_of_pow hk hmask), ?_, Nat.zero_le _, ⟨k, hk, hmask⟩,
    by simp [newTable, dataOf]⟩
  rintro p ⟨i, hi⟩
  exact absurd hi List.not_mem_nil

/-! ## Steps -/

/-- What a push changes before the table grows. -/
theorem Filed.pushed (h : Filed t chain recycled) (hpushes : Pushes t chain key v ret t' chain') :
    (∀ p, InTable chain' p → ∀ d, dataOf t'.entry p = some d → d.key.length ≤ 30) ∧
      t'.max = t.max ∧ {p | dataOf t'.entry p ≠ none}.Finite ∧
        (Present t chain key ∧ t'.count.toNat = t.count.toNat ∨
          ¬ Present t chain key ∧ t'.count.toNat = t.count.toNat + 1) := by
  cases hpushes with
  | @replaced _ p d stored hit held same count data =>
      refine ⟨fun q hq d' hd' => ?_, same.max, finite_update h.finite (update_of_ne data),
        Or.inl ⟨⟨p, ⟨_, stored⟩, hit⟩, by rw [count]⟩⟩
      rcases eq_or_ne q p with rfl | hne
      · rw [data, Function.update_self] at hd'
        obtain rfl := Option.some.inj hd'
        exact h.short q hq d held
      · rw [update_of_ne data q hne] at hd'
        exact h.short q hq d' hd'
  | @inserted _ p missing fresh same count data =>
      refine ⟨fun q hq d' hd' => ?_, same.max, finite_update h.finite (update_of_ne data),
        Or.inr ⟨h.chained.notPresent_iff.mpr missing,
          by rw [count, toNat_count_add_one h.count_lt]⟩⟩
      rcases eq_or_ne q p with rfl | hne
      · rw [data, Function.update_self] at hd'
        obtain rfl := Option.some.inj hd'
        exact List.length_take_le 30 key
      · rw [update_of_ne data q hne] at hd'
        exact h.short q ((inTable_concat.mp hq).resolve_right hne) d' hd'

/-- Below the limit the end of a push returns. -/
theorem Filed.settle (h : Filed t chain recycled) {t₀ : HashT β} {chain₀ : ℕ → List EntryPtr}
    (hpushes : Pushes t chain key v ret t₀ chain₀) (hchained : Chained t₀ chain₀ recycled')
    (hbelow : Present t chain key ∨ t.count.toNat + 1 < 2 ^ 31) :
    ∃ t' chain', grown true ret t₀ = some (ret, t') ∧ Settles t₀ chain₀ t' chain' ∧
      Filed t' chain' recycled' := by
  have hcount := h.count_lt
  have hload := h.load
  obtain ⟨hshort, hmax, hfinite, hcounts⟩ := h.pushed hpushes
  by_cases hfits : t₀.count.toNat ≤ t₀.max.toNat
  · rw [grown_of_le hfits]
    exact ⟨t₀, chain₀, rfl, .fits hfits, ⟨hchained, hshort, hfits, hmax ▸ h.mask, hfinite⟩⟩
  · have hover := not_le.mp hfits
    have hlimit : t₀.max.toNat + 1 < 2 ^ 31 := by
      rw [hmax] at hover ⊢
      rcases hcounts with ⟨-, hsame⟩ | ⟨hno, hnew⟩
      · omega
      · have hroom := hbelow.resolve_left hno
        omega
    obtain ⟨t', chain', hexpand, expands, hchained', hdouble, hmask⟩ :=
      hchained.exists_expanded (hmax ▸ h.mask) hlimit
    rw [grown_of_lt hover, hexpand]
    refine ⟨t', chain', rfl, .grew hover hdouble expands,
      ⟨hchained', fun p hp d hd => ?_, ?_, hmask, ?_⟩⟩
    · rw [expands.data] at hd
      exact hshort p ((expands.members p).mp hp) d hd
    · rw [expands.count, hdouble]
      rw [hmax]
      omega
    · rw [expands.data]
      exact hfinite

/-- A push below the limit returns. -/
theorem Filed.push (h : Filed t chain recycled) (key : CString) (v : β) {mem : EntryPtr}
    (hmem : t.entry mem = none)
    (hbelow : Present t chain key ∨ t.count.toNat + 1 < 2 ^ 31) :
    ∃ ret t₀ chain₀ t' chain' recycled', t.hashPush key v (some mem) true = some (ret, t') ∧
      Pushes t chain key v ret t₀ chain₀ ∧ Settles t₀ chain₀ t' chain' ∧
        Filed t' chain' recycled' := by
  have hcount := h.count_lt
  obtain ⟨ret, t₀, chain₀, recycled', hpush, hpushes, hchained⟩ :=
    h.chained.exists_pushes (by omega) key v hmem
  obtain ⟨t', chain', hgrown, hsettles, hfiled⟩ := h.settle hpushes hchained hbelow
  exact ⟨ret, t₀, chain₀, t', chain', recycled', hpush.trans hgrown, hpushes, hsettles, hfiled⟩

/-- An entry `p` was filed for a new key, and the table has grown if it was full. -/
structure AddsKey (t : HashT β) (chain : ℕ → List EntryPtr) (key : CString) (v : β) (p : EntryPtr)
    (t' : HashT β) (chain' : ℕ → List EntryPtr) : Prop where
  fresh : ∀ i, p ∉ chain i
  members : ∀ q, InTable chain' q ↔ InTable chain q ∨ q = p
  hashFunc : t'.hashFunc = t.hashFunc
  count : t'.count.toNat = t.count.toNat + 1
  data : dataOf t'.entry = Function.update (dataOf t.entry) p
    (some ⟨t.hashFunc key, storedKey key, some v⟩)
  max : t.count.toNat < t.max.toNat ∧ t'.max = t.max ∨
    t.count.toNat = t.max.toNat ∧ t'.max.toNat = 2 * t.max.toNat + 1

/-- A push of a new key below the limit files an entry for it. -/
theorem Filed.push_missing (h : Filed t chain recycled) (hno : ¬ Present t chain key)
    (hroom : t.count.toNat + 1 < 2 ^ 31) (v : β) {mem : EntryPtr} (hmem : t.entry mem = none) :
    ∃ p t' chain' recycled', t.hashPush key v (some mem) true = some (none, t') ∧
      Filed t' chain' recycled' ∧ AddsKey t chain key v p t' chain' := by
  have hload := h.load
  obtain ⟨ret, t₀, chain₀, t', chain', recycled', hpush, hpushes, hsettles, hfiled⟩ :=
    h.push key v hmem (Or.inr hroom)
  cases hpushes with
  | @replaced _ p d stored hit => exact absurd ⟨p, ⟨_, stored⟩, hit⟩ hno
  | @inserted _ p missing fresh same count data =>
      have hcount : t₀.count.toNat = t.count.toNat + 1 := by
        rw [count, toNat_count_add_one h.count_lt]
      refine ⟨p, t', chain', recycled', hpush, hfiled, fresh,
        fun q => (hsettles.members q).trans inTable_concat,
        hsettles.hashFunc.trans same.hashFunc, by rw [hsettles.count, hcount],
        hsettles.data.trans data, ?_⟩
      cases hsettles with
      | fits fits =>
          rw [same.max] at fits
          exact Or.inl ⟨by omega, same.max⟩
      | grew exceeds doubled expands =>
          rw [same.max] at exceeds doubled
          exact Or.inr ⟨by omega, doubled⟩

/-- The new entry holds the key and its value. -/
theorem AddsKey.data_self (adds : AddsKey t chain key v p t' chain') :
    dataOf t'.entry p = some ⟨t.hashFunc key, storedKey key, some v⟩ := by
  rw [adds.data, Function.update_self]

/-- A push of a new key beyond the limit leaves the array. -/
theorem Filed.push_eq_none (h : Filed t chain recycled) (v : β) {mem : EntryPtr}
    (hmem : t.entry mem = none) (hno : ¬ Present t chain key)
    (hlimit : ¬ t.count.toNat + 1 < 2 ^ 31) : t.hashPush key v (some mem) true = none := by
  have hcount := h.count_lt
  have hload := h.load
  have hmaxlt := h.max_lt
  obtain ⟨ret, t₀, chain₀, recycled', hpush, hpushes, hchained⟩ :=
    h.chained.exists_pushes (by omega) key v hmem
  obtain ⟨-, hmax, -, hcounts⟩ := h.pushed hpushes
  have hnew : t₀.count.toNat = t.count.toNat + 1 :=
    (hcounts.resolve_left fun hold => hno hold.1).2
  cases hpushes with
  | @replaced _ p d stored hit => exact absurd ⟨p, ⟨_, stored⟩, hit⟩ hno
  | @inserted _ p missing fresh same count data =>
      have hp : p ∈ Function.update chain (bucketOf t key) (chain (bucketOf t key) ++ [p])
          (bucketOf t key) := by simp
      rw [hpush]
      exact hchained.grown_eq_none hp (hmax ▸ h.mask) (by rw [hmax]; omega) (by rw [hmax]; omega)
        none

/-- What a removal leaves. -/
theorem Filed.popped (h : Filed t chain recycled) (hpops : Pops t chain key ret t' chain')
    (hchained : Chained t' chain' recycled') : Filed t' chain' recycled' := by
  cases hpops with
  | absent missing => exact { h with chained := hchained }
  | @removed _ p d stored hit held same count data =>
      have hload := h.load
      refine ⟨hchained, fun q hq d' hd' => ?_, ?_, same.max ▸ h.mask,
        finite_update h.finite (update_of_ne data)⟩
      · obtain ⟨hold, hne⟩ := (inTable_erase h.chained stored).mp hq
        rw [update_of_ne data q hne] at hd'
        exact h.short q hold d' hd'
      · rw [same.max]
        omega

/-- A removal returns. -/
theorem Filed.pop (h : Filed t chain recycled) (key : CString) :
    ∃ ret t' chain' recycled', t.hashPop key = some (ret, t') ∧ Pops t chain key ret t' chain' ∧
      Filed t' chain' recycled' := by
  obtain ⟨ret, t', chain', recycled', hpop, hpops, hchained⟩ := h.chained.hashPop key
  exact ⟨ret, t', chain', recycled', hpop, hpops, h.popped hpops hchained⟩

/-! ## Runs -/

/-- The keys that the history stored and that are not cut off have an entry. -/
def Known (history : List (HashCall β × HashRet β)) (t : HashT β) (chain : ℕ → List EntryPtr) :
    Prop :=
  ∀ key, key.length ≤ 30 → stored history key ≠ none → Present t chain key

theorem Filed.step (h : Filed t chain recycled) {history : List (HashCall β × HashRet β)}
    (known : Known history t chain) {label : HashCall β × HashRet β}
    (taken : (keyedSystem start).step t label t') :
    ∃ chain' recycled', Filed t' chain' recycled' ∧ Known (history ++ [label]) t' chain' := by
  obtain ⟨call, answer⟩ := label
  obtain ⟨hkept, hrun⟩ := taken
  cases call with
  | push key v mem =>
      have hbelow : Present t chain key ∨ t.count.toNat + 1 < 2 ^ 31 := by
        by_contra hnot
        obtain ⟨hno, hlimit⟩ := not_or.mp hnot
        rw [HashCall.run, h.push_eq_none v hkept.2 hno hlimit] at hrun
        cases hrun
      obtain ⟨ret, t₀, chain₀, t₁, chain₁, recycled₁, hpush, hpushes, hsettles, hfiled⟩ :=
        h.push key v hkept.2 hbelow
      rw [HashCall.run, hpush] at hrun
      obtain ⟨rfl, rfl⟩ := Prod.mk.inj (Option.some.inj hrun)
      refine ⟨chain₁, recycled₁, hfiled, fun key' hkey' hstored => hsettles.present_iff.mpr ?_⟩
      rw [stored_concat, mapAfter] at hstored
      rcases eq_or_ne key' key with rfl | hne
      · exact hpushes.present_self hkey'
      · rw [Function.update_of_ne hne] at hstored
        exact hpushes.present (known key' hkey' hstored)
  | pop key =>
      obtain ⟨ret, t₁, chain₁, recycled₁, hpop, hpops, hfiled⟩ := h.pop key
      rw [HashCall.run, hpop] at hrun
      obtain ⟨rfl, rfl⟩ := Prod.mk.inj (Option.some.inj hrun)
      refine ⟨chain₁, recycled₁, hfiled, fun key' hkey' hstored => ?_⟩
      rw [stored_concat, mapAfter] at hstored
      have hne : key' ≠ key := by
        rintro rfl
        exact hstored (Function.update_self _ _ _)
      rw [Function.update_of_ne hne] at hstored
      exact hpops.present h.chained (known key' hkey' hstored) hne
  | count =>
      obtain ⟨-, rfl⟩ := Prod.mk.inj (Option.some.inj hrun)
      exact ⟨chain, recycled, h, by rwa [Known, stored_concat]⟩
  | foreach callback =>
      obtain ⟨pairs, -, heq⟩ := Option.map_eq_some_iff.mp hrun
      obtain ⟨-, rfl⟩ := Prod.mk.inj heq
      exact ⟨chain, recycled, h, by rwa [Known, stored_concat]⟩

/-- In every run that starts from created tables the table is filed. -/
theorem Run.filed (hstart : ∀ t, start t → Created t)
    {history : List (HashCall β × HashRet β)} (run : (keyedSystem start).Trace history t) :
    ∃ chain recycled, Filed t chain recycled ∧ Known history t chain := by
  apply run.invariant
    (I := fun history t => ∃ chain recycled, Filed t chain recycled ∧ Known history t chain)
  · intro t hinit
    exact ⟨_, _, Filed.of_created (hstart t hinit), fun key _ hstored => absurd rfl hstored⟩
  · rintro history t label t' - ⟨chain, recycled, hfiled, known⟩ - taken
    exact hfiled.step known taken

end BliveQueue.Hash
