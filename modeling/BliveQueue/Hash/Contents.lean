/-
# What a table holds

A table holds a finite map from keys to values when its stored entries are the pairs of
the map. A push, a removal and an expansion change the entry of one key at most, and
each of them answers by the map. The counter counts the keys, and the walk lists the
pairs.
-/

import Mathlib.Data.Set.Finite.Lattice
import BliveQueue.Hash.Foreach
import BliveQueue.Hash.Growing

namespace BliveQueue.Hash

open BliveQueue.Utils.Hash BliveQueue.Utils.Hash.HashT

variable {β : Type} {t t' : HashT β} {chain chain' : ℕ → List EntryPtr}
variable {recycled recycled' : List EntryPtr} {m : CString → Option β} {key : CString}
variable {p q : EntryPtr} {v : β} {d : EntryData β}

/-! ## Tables that hold a map -/

/-- The pairs list the map, each key once. -/
def Lists (m : CString → Option β) (pairs : List (CString × Option β)) : Prop :=
  (pairs.map Prod.fst).Nodup ∧
    ∀ key value, (key, value) ∈ pairs ↔ value ≠ none ∧ m key = value

def InTable (chain : ℕ → List EntryPtr) (p : EntryPtr) : Prop := ∃ i, p ∈ chain i

/-- The data of the entry of a key. -/
def entryData (t : HashT β) (key : CString) (v : β) : EntryData β :=
  ⟨t.hashFunc key, key, some v⟩

/-- The stored entries are the pairs of the map, and the mask covers a power of two of
buckets that the load does not exceed. -/
structure Maps (t : HashT β) (chain : ℕ → List EntryPtr) (recycled : List EntryPtr)
    (m : CString → Option β) : Prop where
  chained : Chained t chain recycled
  keyed : ∀ p, InTable chain p → ∃ key v, dataOf t.entry p = some (entryData t key v)
  view : ∀ key v, m key = some v ↔
    ∃ p, InTable chain p ∧ dataOf t.entry p = some (entryData t key v)
  distinct : ∀ p q d d', InTable chain p → InTable chain q → dataOf t.entry p = some d →
    dataOf t.entry q = some d' → d.key = d'.key → p = q
  load : t.count.toNat ≤ t.max.toNat
  mask : ∃ k ≤ 31, t.max.toNat + 1 = 2 ^ k
  finite : {p | dataOf t.entry p ≠ none}.Finite

theorem Maps.count_lt (h : Maps t chain recycled m) : t.count.toNat < 2 ^ 31 :=
  h.load.trans_lt (lt_of_mask h.mask)

/-- Where finitely many entries are in use, another one can be handed out. -/
theorem exists_unused (hfinite : {p | dataOf t.entry p ≠ none}.Finite) :
    ∃ p, t.entry p = none := by
  obtain ⟨p, hp⟩ := hfinite.exists_notMem
  refine ⟨p, ?_⟩
  simpa [dataOf] using hp

/-- Below the sign bit `hash_count` answers the counter. -/
theorem hashCount_of_lt (hlt : t.count.toNat < 2 ^ 31) : t.hashCount = t.count.toNat := by
  have hsmall : 2 * t.count.toBitVec.toNat < 2 ^ 32 := by
    change 2 * t.count.toNat < 2 ^ 32
    omega
  exact BitVec.toInt_eq_toNat_of_lt hsmall

/-- The allocator can always hand out a new entry. -/
theorem Maps.exists_fresh (h : Maps t chain recycled m) : ∃ p, t.entry p = none :=
  exists_unused h.finite

theorem entryData_inj {key' : CString} {v' : β} (h : entryData t key v = entryData t key' v') :
    key = key' ∧ v = v' := by
  obtain ⟨-, hkey, hvalue⟩ := EntryData.mk.inj h
  exact ⟨hkey, Option.some.inj hvalue⟩

/-- An entry that matches a key is the entry of that key. -/
theorem Maps.data_of_matches (h : Maps t chain recycled m) (hp : InTable chain p)
    (hit : Matches t key p) (hd : dataOf t.entry p = some d) :
    ∃ v, d = entryData t key v ∧ m key = some v := by
  obtain ⟨key', v, hd'⟩ := h.keyed p hp
  obtain ⟨d', hd'', -, rfl⟩ := hit
  obtain rfl := Option.some.inj (hd.symm.trans hd')
  obtain rfl := Option.some.inj (hd''.symm.trans hd')
  exact ⟨v, rfl, (h.view _ _).mpr ⟨p, hp, hd⟩⟩

/-- A key without a match in its bucket is absent. -/
theorem Maps.eq_none_of_missing (h : Maps t chain recycled m)
    (missing : ∀ q ∈ chain (bucketOf t key), ¬ Matches t key q) : m key = none := by
  cases hm : m key with
  | none => rfl
  | some v =>
      obtain ⟨p, ⟨i, hp⟩, hd⟩ := (h.view key v).mp hm
      obtain ⟨d, hd', -, hbucket⟩ := h.chained.stored i p hp
      obtain rfl := Option.some.inj (hd.symm.trans hd')
      subst hbucket
      exact absurd ⟨_, hd, rfl, rfl⟩ (missing p hp)

/-! ## Changing one entry -/

theorem finite_update {entry entry' : EntryPtr → Option (HashEntry β)}
    (h : {p | dataOf entry p ≠ none}.Finite)
    (others : ∀ q, q ≠ p → dataOf entry' q = dataOf entry q) :
    {p | dataOf entry' p ≠ none}.Finite := by
  refine (h.insert p).subset fun q hq => ?_
  rcases eq_or_ne q p with rfl | hne
  · exact Set.mem_insert _ _
  · exact Set.mem_insert_of_mem _ fun hnone => hq ((others q hne).trans hnone)

/-- `p` becomes the entry of `key` with the value `value`, or leaves the table. -/
structure Changes (t : HashT β) (chain : ℕ → List EntryPtr) (key : CString) (p : EntryPtr)
    (value : Option β) (t' : HashT β) (chain' : ℕ → List EntryPtr) : Prop where
  hashFunc : t'.hashFunc = t.hashFunc
  members : ∀ q, q ≠ p → (InTable chain' q ↔ InTable chain q)
  others : ∀ q, q ≠ p → dataOf t'.entry q = dataOf t.entry q
  before : InTable chain p → ∃ v, dataOf t.entry p = some (entryData t key v)
  owner : ∀ q v, InTable chain q → dataOf t.entry q = some (entryData t key v) → q = p
  after : InTable chain' p → ∃ v, value = some v ∧ dataOf t'.entry p = some (entryData t key v)
  stays : value ≠ none → InTable chain' p

/-- The map after one entry has changed. -/
theorem Maps.change (h : Maps t chain recycled m) {value : Option β}
    (hchained : Chained t' chain' recycled') (changes : Changes t chain key p value t' chain')
    (load : t'.count.toNat ≤ t'.max.toNat) (mask : ∃ k ≤ 31, t'.max.toNat + 1 = 2 ^ k) :
    Maps t' chain' recycled' (Function.update m key value) := by
  have hentry : ∀ key v, entryData t' key v = entryData t key v := fun key v => by
    rw [entryData, changes.hashFunc, entryData]
  -- an entry of the new table is the changed one or an entry of another key
  have hold : ∀ q, InTable chain' q → q ≠ p → InTable chain q :=
    fun q hq hne => (changes.members q hne).mp hq
  have hother : ∀ q d, InTable chain' q → q ≠ p → dataOf t'.entry q = some d → d.key ≠ key := by
    intro q d hq hne hd heq
    rw [changes.others q hne] at hd
    obtain ⟨key', v, hd'⟩ := h.keyed q (hold q hq hne)
    obtain rfl := Option.some.inj (hd.symm.trans hd')
    obtain rfl : key' = key := heq
    exact hne (changes.owner q v (hold q hq hne) hd)
  have hchanged : ∀ d, InTable chain' p → dataOf t'.entry p = some d → d.key = key := by
    intro d hp hd
    obtain ⟨v, -, hd'⟩ := changes.after hp
    rw [Option.some.inj (hd.symm.trans hd')]
    rfl
  refine ⟨hchained, fun q hq => ?_, fun key' v => ?_, fun q r d d' hq hr hqd hrd heq => ?_, load,
    mask, finite_update h.finite changes.others⟩
  · simp only [hentry]
    rcases eq_or_ne q p with rfl | hne
    · obtain ⟨v, -, hd⟩ := changes.after hq
      exact ⟨key, v, hd⟩
    · rw [changes.others q hne]
      exact h.keyed q (hold q hq hne)
  · simp only [hentry]
    rcases eq_or_ne key' key with rfl | hkey
    · rw [Function.update_self]
      constructor
      · rintro rfl
        have hp := changes.stays nofun
        obtain ⟨v', hv, hd⟩ := changes.after hp
        exact ⟨p, hp, (Option.some.inj hv) ▸ hd⟩
      · rintro ⟨q, hq, hqd⟩
        obtain rfl : q = p := not_not.mp fun hne => hother q _ hq hne hqd rfl
        obtain ⟨v', rfl, hd⟩ := changes.after hq
        rw [(entryData_inj (Option.some.inj (hqd.symm.trans hd))).2]
    · rw [Function.update_of_ne hkey, h.view]
      constructor
      · rintro ⟨q, hq, hqd⟩
        have hne : q ≠ p := by
          rintro rfl
          obtain ⟨v', hd⟩ := changes.before hq
          exact hkey (entryData_inj (Option.some.inj (hqd.symm.trans hd))).1
        exact ⟨q, (changes.members q hne).mpr hq, (changes.others q hne).trans hqd⟩
      · rintro ⟨q, hq, hqd⟩
        have hne : q ≠ p := by
          rintro rfl
          exact hkey (hchanged _ hq hqd)
        exact ⟨q, hold q hq hne, (changes.others q hne).symm.trans hqd⟩
  · rcases eq_or_ne q p with hqp | hqne <;> rcases eq_or_ne r p with hrp | hrne
    · exact hqp.trans hrp.symm
    · subst hqp
      exact absurd (heq.symm.trans (hchanged d hq hqd)) (hother r d' hr hrne hrd)
    · subst hrp
      exact absurd (heq.trans (hchanged d' hr hrd)) (hother q d hq hqne hqd)
    · rw [changes.others q hqne] at hqd
      rw [changes.others r hrne] at hrd
      exact h.distinct q r d d' (hold q hq hqne) (hold r hr hrne) hqd hrd heq

/-- The only entry of a key is the one that matches it. -/
theorem Maps.eq_of_key (h : Maps t chain recycled m) (hp : InTable chain p)
    (held : dataOf t.entry p = some (entryData t key v)) :
    ∀ q v, InTable chain q → dataOf t.entry q = some (entryData t key v) → q = p :=
  fun q _ hq hqd => h.distinct q p _ _ hq hp hqd held rfl

/-- A key without a match has no entry. -/
theorem Maps.ne_of_missing (h : Maps t chain recycled m)
    (missing : ∀ q ∈ chain (bucketOf t key), ¬ Matches t key q) (q : EntryPtr) (v : β)
    (hq : InTable chain q) : dataOf t.entry q ≠ some (entryData t key v) := by
  intro hqd
  have hsome := (h.view key v).mpr ⟨q, hq, hqd⟩
  rw [h.eq_none_of_missing missing] at hsome
  cases hsome

/-! ## Removal -/

theorem inTable_erase {i : ℕ} (h : Chained t chain recycled) (hp : p ∈ chain i) :
    InTable (Function.update chain i ((chain i).erase p)) q ↔ InTable chain q ∧ q ≠ p := by
  simp only [InTable, h.mem_update_erase hp, exists_and_right]

theorem update_of_ne {entry' : EntryPtr → Option (HashEntry β)}
    (data : dataOf entry' = Function.update (dataOf t.entry) p (some d)) (q : EntryPtr)
    (hne : q ≠ p) : dataOf entry' q = dataOf t.entry q := by
  rw [data, Function.update_of_ne hne]

/-- A removal answers the value of the key and removes it. -/
theorem Maps.hashPop (h : Maps t chain recycled m) (key : CString) :
    ∃ t' chain' recycled', t.hashPop key = some (m key, t') ∧
      Maps t' chain' recycled' (Function.update m key none) := by
  obtain ⟨ret, t', chain', recycled', hpop, hpops, hchained⟩ := h.chained.hashPop key
  cases hpops with
  | absent missing =>
      have hnone := h.eq_none_of_missing missing
      have hsame : Function.update m key none = m := Function.update_eq_self_iff.mpr hnone.symm
      refine ⟨t, chain, recycled', hnone ▸ hpop, ?_⟩
      rw [hsame]
      exact { h with chained := hchained }
  | @removed _ p d hp hit held same count data =>
      have hstored : InTable chain p := ⟨_, hp⟩
      obtain ⟨v, rfl, hm⟩ := h.data_of_matches hstored hit held
      have hin := fun q => inTable_erase (q := q) h.chained hp
      have hload := h.load
      refine ⟨t', _, recycled', hm ▸ hpop, h.change hchained ⟨same.hashFunc, fun q hne => ?_,
        update_of_ne data, fun _ => ⟨v, held⟩, h.eq_of_key hstored held, fun hgone => ?_,
        fun hsome => absurd rfl hsome⟩ ?_ ?_⟩
      · exact (hin q).trans (and_iff_left hne)
      · exact absurd rfl ((hin p).mp hgone).2
      · rw [same.max]
        omega
      · rw [same.max]
        exact h.mask

/-! ## Insertion and replacement -/

theorem inTable_concat {i : ℕ} :
    InTable (Function.update chain i (chain i ++ [p])) q ↔ InTable chain q ∨ q = p := by
  simp only [InTable, mem_update_concat, exists_or, exists_eq_left]

/-- A push reaches the point where the table may grow. -/
theorem Maps.exists_pushes (h : Maps t chain recycled m) (key : CString) (v : β) {mem : EntryPtr}
    (hmem : t.entry mem = none) :
    ∃ ret t' chain' recycled', t.hashPush key v (some mem) true = grown true ret t' ∧
      Pushes t chain key v ret t' chain' ∧ Chained t' chain' recycled' := by
  have hcount := h.count_lt
  exact h.chained.exists_pushes (by omega) key v hmem

/-- What the end of a push changes. -/
theorem Maps.changes_of_pushes (h : Maps t chain recycled m) (hkey : key.length ≤ 30)
    {ret : Option β} (hpushes : Pushes t chain key v ret t' chain') :
    ret = m key ∧ (∃ p, Changes t chain key p (some v) t' chain') ∧ t'.max = t.max ∧
      (t'.count = t.count ∨ m key = none ∧ t'.count = t.count + 1) := by
  cases hpushes with
  | @replaced _ p d hp hit held same count data =>
      have hstored : InTable chain p := ⟨_, hp⟩
      obtain ⟨w, rfl, hm⟩ := h.data_of_matches hstored hit held
      refine ⟨hm.symm, ⟨p, same.hashFunc, fun _ _ => Iff.rfl, update_of_ne data,
        fun _ => ⟨w, held⟩, h.eq_of_key hstored held, fun _ => ⟨v, rfl, ?_⟩, fun _ => hstored⟩,
        same.max, Or.inl count⟩
      rw [data, Function.update_self]
      rfl
  | @inserted _ p missing fresh same count data =>
      have hnone := h.eq_none_of_missing missing
      have hin : ∀ q, InTable (Function.update chain (bucketOf t key)
          (chain (bucketOf t key) ++ [p])) q ↔ InTable chain q ∨ q = p := fun q => inTable_concat
      refine ⟨hnone.symm, ⟨p, same.hashFunc, fun q hne => (hin q).trans (or_iff_left hne),
        update_of_ne data, ?_, ?_, fun _ => ⟨v, rfl, ?_⟩, fun _ => (hin p).mpr (Or.inr rfl)⟩,
        same.max, Or.inr ⟨hnone, count⟩⟩
      · rintro ⟨i, hi⟩
        exact absurd hi (fresh i)
      · intro q w hq hqd
        exact absurd hqd (h.ne_of_missing missing q w hq)
      · rw [data, Function.update_self, storedKey, List.take_of_length_le hkey]
        rfl

theorem Maps.find_iff (h : Maps t chain recycled m) :
    (t.find key).map Prod.snd = some true ↔ m key ≠ none := by
  rcases h.chained.find_eq key with ⟨pre, p, post, hcut, hit, -, hfind⟩ | ⟨missing, hfind⟩
  · have hp : InTable chain p := ⟨bucketOf t key, by simp [hcut]⟩
    have ⟨d, hd, _⟩ := hit
    obtain ⟨v, -, hm⟩ := h.data_of_matches hp hit hd
    simp [hfind, hm]
  · simp [hfind, h.eq_none_of_missing missing]

/-- Growing does not change what is stored. -/
theorem Changes.expand {value : Option β} {t'' : HashT β} {chain'' : ℕ → List EntryPtr}
    (changes : Changes t chain key p value t' chain') (expands : Expands t' chain' t'' chain'') :
    Changes t chain key p value t'' chain'' := by
  refine ⟨expands.hashFunc.trans changes.hashFunc, fun q hne => ?_, fun q hne => ?_,
    changes.before, changes.owner, fun hp => ?_, fun hvalue => ?_⟩
  · exact (expands.members q).trans (changes.members q hne)
  · rw [expands.data]
    exact changes.others q hne
  · rw [expands.data]
    exact changes.after ((expands.members p).mp hp)
  · exact (expands.members p).mpr (changes.stays hvalue)

/-- A push below the limit answers the old value of the key and stores the new one. -/
theorem Maps.hashPush (h : Maps t chain recycled m) (hkey : key.length ≤ 30) (v : β)
    {mem : EntryPtr} (hmem : t.entry mem = none)
    (hbelow : m key ≠ none ∨ t.count.toNat + 1 < 2 ^ 31) :
    ∃ t' chain' recycled', t.hashPush key v (some mem) true = some (m key, t') ∧
      Maps t' chain' recycled' (Function.update m key (some v)) := by
  obtain ⟨ret, t', chain', recycled', hpush, hpushes, hchained⟩ := h.exists_pushes key v hmem
  obtain ⟨rfl, ⟨p, changes⟩, hmax, hcount⟩ := h.changes_of_pushes hkey hpushes
  have hload := h.load
  have hcounts : t'.count.toNat = t.count.toNat ∨
      m key = none ∧ t'.count.toNat = t.count.toNat + 1 := by
    rcases hcount with hsame | ⟨hnone, hnew⟩
    · exact Or.inl (congrArg UInt32.toNat hsame)
    · exact Or.inr ⟨hnone, by rw [hnew, toNat_count_add_one h.count_lt]⟩
  rw [hpush]
  by_cases hfits : t'.count.toNat ≤ t'.max.toNat
  · rw [grown_of_le hfits]
    exact ⟨t', chain', recycled', rfl, h.change hchained changes hfits (hmax ▸ h.mask)⟩
  · rw [grown_of_lt (not_le.mp hfits)]
    rw [hmax] at hfits
    have hnew : m key = none ∧ t'.count.toNat = t.count.toNat + 1 :=
      hcounts.resolve_left (by omega)
    have hlimit : t.count.toNat + 1 < 2 ^ 31 := hbelow.resolve_left (not_not_intro hnew.1)
    obtain ⟨t'', chain'', hexpand, expands, hchained', hdouble, hmask⟩ :=
      hchained.exists_expanded (hmax ▸ h.mask) (by rw [hmax]; omega)
    refine ⟨t'', chain'', recycled', by rw [hexpand]; rfl,
      h.change hchained' (changes.expand expands) ?_ hmask⟩
    rw [expands.count, hdouble, hmax]
    omega

/-- A new key beyond the limit makes the table grow into an array without slots. -/
theorem Maps.hashPush_eq_none (h : Maps t chain recycled m) (hkey : key.length ≤ 30) (v : β)
    {mem : EntryPtr} (hmem : t.entry mem = none) (hnone : m key = none)
    (hlimit : ¬ t.count.toNat + 1 < 2 ^ 31) : t.hashPush key v (some mem) true = none := by
  obtain ⟨ret, t', chain', recycled', hpush, hpushes, hchained⟩ := h.exists_pushes key v hmem
  obtain ⟨-, ⟨p, changes⟩, hmax, hcount⟩ := h.changes_of_pushes hkey hpushes
  have hload := h.load
  have hle : t.max.toNat + 1 ≤ 2 ^ 31 := by
    obtain ⟨k, hk, hmask⟩ := h.mask
    exact hmask ▸ Nat.pow_le_pow_right (by decide) hk
  have hnew : t'.count.toNat = t.count.toNat + 1 := by
    cases hpushes with
    | @replaced _ p d hp hit held same count data =>
        obtain ⟨w, -, hm⟩ := h.data_of_matches ⟨_, hp⟩ hit held
        rw [hnone] at hm
        cases hm
    | inserted missing fresh same count data => rw [count, toNat_count_add_one h.count_lt]
  obtain ⟨i, hp⟩ := changes.stays nofun
  rw [hpush]
  exact hchained.grown_eq_none hp (hmax ▸ h.mask) (by rw [hmax]; omega) (by rw [hmax]; omega) ret

/-! ## Counting and walking -/

theorem pairOf_entryData (hd : dataOf t.entry p = some (entryData t key v)) :
    pairOf t.entry p = (key, some v) :=
  pairOf_of_data hd

/-- Different entries of the table have different keys. -/
theorem Maps.key_injOn (h : Maps t chain recycled m) (hp : InTable chain p) (hq : InTable chain q)
    (heq : (pairOf t.entry p).1 = (pairOf t.entry q).1) : p = q := by
  obtain ⟨key, v, hpd⟩ := h.keyed p hp
  obtain ⟨key', v', hqd⟩ := h.keyed q hq
  rw [pairOf_entryData hpd, pairOf_entryData hqd] at heq
  exact h.distinct p q _ _ hp hq hpd hqd heq

/-- A key is present when some entry has it. -/
theorem Maps.present_iff (h : Maps t chain recycled m) :
    m key ≠ none ↔ ∃ p, InTable chain p ∧ (pairOf t.entry p).1 = key := by
  constructor
  · intro hm
    obtain ⟨v, hv⟩ := Option.ne_none_iff_exists'.mp hm
    obtain ⟨p, hp, hd⟩ := (h.view key v).mp hv
    exact ⟨p, hp, by rw [pairOf_entryData hd]⟩
  · rintro ⟨p, hp, rfl⟩
    obtain ⟨key', v, hd⟩ := h.keyed p hp
    rw [pairOf_entryData hd, (h.view key' v).mpr ⟨p, hp, hd⟩]
    exact nofun

theorem Maps.card_eq (h : Maps t chain recycled m) :
    ∃ keys : Finset CString, (∀ key, key ∈ keys ↔ m key ≠ none) ∧ t.count.toNat = keys.card := by
  obtain ⟨live, hlive, hcard⟩ := h.chained.count
  refine ⟨live.image fun p => (pairOf t.entry p).1, fun key => ?_, ?_⟩
  · simp only [Finset.mem_image, h.present_iff, hlive, InTable]
  · rw [hcard, Finset.card_image_of_injOn]
    intro p hp q hq heq
    exact h.key_injOn ((hlive p).mp hp) ((hlive q).mp hq) heq

/-- The counter never reaches the sign bit. -/
theorem Maps.hashCount_eq (h : Maps t chain recycled m) : t.hashCount = t.count.toNat :=
  hashCount_of_lt h.count_lt

/-- The walk lists the map. -/
theorem Maps.lists (h : Maps t chain recycled m) :
    Lists m ((walk t chain).map (pairOf t.entry)) := by
  have hwalk := fun p => h.chained.mem_walk (p := p)
  constructor
  · rw [List.map_map]
    refine h.chained.nodup_walk.map_on ?_
    intro p hp q hq heq
    exact h.key_injOn ((hwalk p).mp hp) ((hwalk q).mp hq) heq
  · intro key value
    rw [List.mem_map]
    constructor
    · rintro ⟨p, hp, heq⟩
      have hstored := (hwalk p).mp hp
      obtain ⟨key', v, hd⟩ := h.keyed p hstored
      rw [pairOf_entryData hd] at heq
      cases heq
      exact ⟨nofun, (h.view key v).mpr ⟨p, hstored, hd⟩⟩
    · rintro ⟨hvalue, hm⟩
      obtain ⟨v, rfl⟩ := Option.ne_none_iff_exists'.mp hvalue
      obtain ⟨p, hp, hd⟩ := (h.view key v).mp hm
      exact ⟨p, (hwalk p).mpr hp, pairOf_entryData hd⟩

end BliveQueue.Hash
