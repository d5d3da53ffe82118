/-
# Long keys

An entry stores the first 30 bytes of its key and is compared with all bytes of a key
that is looked up. A longer key is therefore inserted by every push and found by none,
and the entry it leaves answers to its first 30 bytes if they have the same hash.
-/

import BliveQueue.Hash.Filed

namespace BliveQueue.Hash

open BliveQueue.Math BliveQueue.Utils.Hash BliveQueue.Utils.Hash.HashT

variable {β : Type} {t t' : HashT β} {chain : ℕ → List EntryPtr} {recycled : List EntryPtr}
variable {key : CString} {p q : EntryPtr} {v w : β}

/-! ## The entry that a lookup finds -/

/-- The first match in the bucket of the key has the value. -/
def Holds (t : HashT β) (chain : ℕ → List EntryPtr) (key : CString) (v : β) : Prop :=
  ∃ pre p post e, chain (bucketOf t key) = pre ++ p :: post ∧ Matches t key p ∧
    (∀ q ∈ pre, ¬ Matches t key q) ∧ t.entry p = some e ∧ e.value = some v

/-- A list has one first item of a kind. -/
theorem first_unique {α : Type} {kind : α → Prop} {pre pre' post post' : List α} {x x' : α}
    (h : pre ++ x :: post = pre' ++ x' :: post') (hx : kind x) (hx' : kind x')
    (before : ∀ y ∈ pre, ¬ kind y) (before' : ∀ y ∈ pre', ¬ kind y) : pre = pre' := by
  induction pre generalizing pre' with
  | nil =>
      cases pre' with
      | nil => rfl
      | cons y pre' =>
          obtain ⟨rfl, -⟩ := List.cons.inj h
          exact absurd hx (before' x List.mem_cons_self)
  | cons y pre ih =>
      cases pre' with
      | nil =>
          obtain ⟨rfl, -⟩ := List.cons.inj h
          exact absurd hx' (before y List.mem_cons_self)
      | cons y' pre' =>
          obtain ⟨rfl, htail⟩ := List.cons.inj h
          rw [ih htail (fun z hz => before z (List.mem_cons_of_mem y hz))
            fun z hz => before' z (List.mem_cons_of_mem y hz)]

/-- The lookup answers the link of the first match. -/
theorem Chained.find_of_first (h : Chained t chain recycled) {pre post : List EntryPtr}
    (hcut : chain (bucketOf t key) = pre ++ p :: post) (hit : Matches t key p)
    (before : ∀ q ∈ pre, ¬ Matches t key q) :
    t.find key = some (linkAfter (bucketOf t key) pre, true) := by
  rcases h.find_eq key with ⟨pre', p', post', hcut', hit', before', hfind⟩ | ⟨missing, -⟩
  · obtain rfl := first_unique (hcut.symm.trans hcut') hit hit' before before'
    exact hfind
  · exact absurd hit (missing p (by simp [hcut]))

theorem Filed.exists_holds (h : Filed t chain recycled) (hpresent : Present t chain key) :
    ∃ w, Holds t chain key w := by
  rcases h.chained.find_eq key with ⟨pre, p, post, hcut, hit, before, -⟩ | ⟨missing, -⟩
  · obtain ⟨d, hd, hvalue, -⟩ := h.chained.stored (bucketOf t key) p (by simp [hcut])
    obtain ⟨e, he, rfl, -⟩ := exists_entry_of_dataOf hd
    obtain ⟨w, hw⟩ := Option.isSome_iff_exists.mp hvalue
    exact ⟨w, pre, p, post, e, hcut, hit, before, he, hw⟩
  · exact absurd hpresent (h.chained.notPresent_iff.mpr missing)

/-- An entry that is the only match is the one that a lookup finds. -/
theorem Chained.holds_of_only (h : Chained t chain recycled) (hp : InTable chain p)
    (hit : Matches t key p) (only : ∀ q, InTable chain q → Matches t key q → q = p)
    {d : EntryData β} (hd : dataOf t.entry p = some d) (hv : d.value = some v) :
    Holds t chain key v := by
  have hmem := h.mem_bucketOf hp hit
  obtain ⟨pre, post, hcut⟩ := List.append_of_mem hmem
  obtain ⟨e, he, rfl, -⟩ := exists_entry_of_dataOf hd
  have hnodup := h.nodup (bucketOf t key)
  rw [hcut] at hnodup
  refine ⟨pre, p, post, e, hcut, hit, fun q hq hmatch => ?_, he, hv⟩
  obtain rfl := only q ⟨bucketOf t key, by simp [hcut, hq]⟩ hmatch
  exact List.disjoint_of_nodup_append hnodup hq List.mem_cons_self

/-! ## Push and removal of a key -/

/-- A removal answers the value that a lookup finds. -/
theorem Filed.pop_of_holds (h : Filed t chain recycled) (held : Holds t chain key w) :
    ∃ t' chain' recycled', t.hashPop key = some (some w, t') ∧ Filed t' chain' recycled' ∧
      t'.count.toNat + 1 = t.count.toNat := by
  obtain ⟨pre, p, post, e, hcut, hit, before, he, hw⟩ := held
  obtain ⟨t', hpop, hpops, hchained, hcount⟩ := h.chained.hashPop_of_found hcut hit
    (h.chained.find_of_first hcut hit before) he
  rw [hw] at hpop
  exact ⟨t', _, _, hpop, h.popped hpops hchained, hcount⟩

/-- A push of a key that is there answers the value that a lookup finds and replaces it. -/
theorem Filed.push_of_holds (h : Filed t chain recycled) (held : Holds t chain key w) (v : β)
    (mem : EntryPtr) :
    ∃ t', t.hashPush key v (some mem) true = some (some w, t') ∧ Filed t' chain recycled ∧
      Holds t' chain key v ∧ t'.count = t.count := by
  obtain ⟨pre, p, post, e, hcut, hit, before, he, hw⟩ := held
  have hp : p ∈ chain (bucketOf t key) := by simp [hcut]
  have hd : dataOf t.entry p = some (HashEntry.data e) := by simp [dataOf, he]
  let t' : HashT β := t.setEntry p { e with value := some v }
  have hdata : dataOf t'.entry =
      Function.update (dataOf t.entry) p (some ⟨e.hash, e.key, some v⟩) := dataOf_update _ _ _
  have hpush : t.hashPush key v (some mem) true = some (some w, t') := by
    rw [h.chained.hashPush_of_found v (some mem) true hcut
      (h.chained.find_of_first hcut hit before) he, hw]
    exact grown_of_le h.load
  have hpushes : Pushes t chain key v (HashEntry.data e).value t' chain :=
    .replaced hp hit hd ⟨rfl, rfl, rfl⟩ rfl hdata
  obtain ⟨hshort, -, hfinite, -⟩ := h.pushed hpushes
  have hfunc : t'.hashFunc = t.hashFunc := rfl
  have hmatch : ∀ q, Matches t' key q → Matches t key q := by
    intro q hq
    rcases eq_or_ne q p with rfl | hne
    · exact hit
    · exact (matches_iff_of_eq hfunc (update_of_ne hdata q hne)).mp hq
  have hnew : dataOf t'.entry p = some ⟨e.hash, e.key, some v⟩ := by
    rw [hdata, Function.update_self]
  refine ⟨t', hpush, ⟨h.chained.replace hp he v, hshort, h.load, h.mask, hfinite⟩, ?_, rfl⟩
  exact ⟨pre, p, post, { e with value := some v }, hcut, hit.of_data hfunc hd hnew rfl rfl,
    fun q hq hfound => before q hq (hmatch q hfound), Function.update_self _ _ _, rfl⟩

/-- A push of a new key that is not cut off stores it. -/
theorem Filed.push_of_new (h : Filed t chain recycled) (hno : ¬ Present t chain key)
    (hkey : key.length ≤ 30) (hroom : t.count.toNat + 1 < 2 ^ 31) (v : β) {mem : EntryPtr}
    (hmem : t.entry mem = none) :
    ∃ t' chain' recycled', t.hashPush key v (some mem) true = some (none, t') ∧
      Filed t' chain' recycled' ∧ Holds t' chain' key v ∧
        t'.count.toNat = t.count.toNat + 1 := by
  obtain ⟨p, t', chain', recycled', hpush, hfiled, adds⟩ := h.push_missing hno hroom v hmem
  have hit : Matches t' key p := by
    refine ⟨_, adds.data_self, ?_, List.take_of_length_le hkey⟩
    rw [adds.hashFunc]
  have hp : InTable chain' p := (adds.members p).mpr (Or.inr rfl)
  refine ⟨t', chain', recycled', hpush, hfiled,
    hfiled.chained.holds_of_only hp hit (fun q hq hmatch => ?_) adds.data_self rfl, adds.count⟩
  -- any other match was there before
  by_contra hne
  have hold := ((adds.members q).mp hq).resolve_right hne
  have hsame := update_of_ne adds.data q hne
  exact hno ⟨q, hold, (matches_iff_of_eq adds.hashFunc hsame).mp hmatch⟩

/-! ## Keys that work -/

/-- The number of the table without the key. -/
def countWithout (history : List (HashCall β × HashRet β)) (t : HashT β) (key : CString) : ℤ :=
  match stored history key with
  | none => t.hashCount
  | some _ => t.hashCount - 1

/-- A push of the value is undone by a removal, which answers the value, and repeated by a
second push, which answers it too and counts the key once. -/
def KeyWorks (history : List (HashCall β × HashRet β)) (t : HashT β) (key : CString) (value : β) :
    Prop :=
  ∀ mem, t.entry mem = none → ∃ old t₁, t.hashPush key value (some mem) true = some (old, t₁) ∧
    (∃ t₂, t₁.hashPop key = some (some value, t₂) ∧
      t₂.hashCount = countWithout history t key) ∧
    t₁.hashCount = countWithout history t key + 1 ∧
    ∀ value' mem', t₁.entry mem' = none →
      ∃ t₂, t₁.hashPush key value' (some mem') true = some (some value, t₂) ∧
        t₂.hashCount = t₁.hashCount

variable {history : List (HashCall β × HashRet β)}

theorem countWithout_of_stored (hstored : stored history key ≠ none) :
    countWithout history t key = t.hashCount - 1 := by
  obtain ⟨w, hw⟩ := Option.ne_none_iff_exists'.mp hstored
  simp [countWithout, hw]

theorem countWithout_of_none (hstored : stored history key = none) :
    countWithout history t key = t.hashCount := by
  simp [countWithout, hstored]

/-- A key works if a push makes a lookup find its value and the counter is right. -/
theorem keyWorks_of_push
    (hpush : ∀ mem, t.entry mem = none → ∃ old t₁ chain₁ recycled₁,
      t.hashPush key v (some mem) true = some (old, t₁) ∧ Filed t₁ chain₁ recycled₁ ∧
        Holds t₁ chain₁ key v ∧ t₁.hashCount = countWithout history t key + 1) :
    KeyWorks history t key v := by
  intro mem hmem
  obtain ⟨old, t₁, chain₁, recycled₁, hrun, hfiled, held, hcount⟩ := hpush mem hmem
  refine ⟨old, t₁, hrun, ?_, hcount, fun value' mem' _ => ?_⟩
  · obtain ⟨t₂, chain₂, recycled₂, hpop, hfiled₂, hless⟩ := hfiled.pop_of_holds held
    refine ⟨t₂, hpop, ?_⟩
    rw [hfiled.hashCount_eq] at hcount
    rw [hfiled₂.hashCount_eq]
    omega
  · obtain ⟨t₂, hagain, -, -, hsame⟩ := hfiled.push_of_holds held value' mem'
    exact ⟨t₂, hagain, by rw [hashCount, hashCount, hsame]⟩

/-- A key that is stored and not cut off works. -/
theorem Filed.keyWorks_of_stored (h : Filed t chain recycled) (known : Known history t chain)
    (hkey : key.length ≤ 30) (hstored : stored history key ≠ none) :
    KeyWorks history t key v := by
  obtain ⟨w, held⟩ := h.exists_holds (known key hkey hstored)
  apply keyWorks_of_push
  intro mem _
  obtain ⟨t₁, hpush, hfiled, held₁, hcount⟩ := h.push_of_holds held v mem
  refine ⟨some w, t₁, chain, recycled, hpush, hfiled, held₁, ?_⟩
  rw [countWithout_of_stored hstored, hashCount, hashCount, hcount]
  omega

/-- A new key that is not cut off works below the limit. -/
theorem Filed.keyWorks_of_new (h : Filed t chain recycled) (hno : ¬ Present t chain key)
    (hkey : key.length ≤ 30) (hstored : stored history key = none)
    (hroom : t.count.toNat + 1 < 2 ^ 31) : KeyWorks history t key v := by
  apply keyWorks_of_push
  intro mem hmem
  obtain ⟨t₁, chain₁, recycled₁, hpush, hfiled, held₁, hcount⟩ :=
    h.push_of_new hno hkey hroom v hmem
  refine ⟨none, t₁, chain₁, recycled₁, hpush, hfiled, held₁, ?_⟩
  rw [countWithout_of_none hstored, hfiled.hashCount_eq, h.hashCount_eq, hcount]
  rfl

/-- A key that works is not cut off: a lookup would not find it after its push. -/
theorem Filed.length_le_of_keyWorks (h : Filed t chain recycled)
    (works : KeyWorks history t key v) : key.length ≤ 30 := by
  by_contra hlong
  obtain ⟨mem, hmem⟩ := h.exists_fresh
  obtain ⟨old, t₁, hpush, ⟨t₂, hpop, -⟩, -⟩ := works mem hmem
  have hno := h.notPresent_of_long (not_le.mp hlong)
  by_cases hroom : t.count.toNat + 1 < 2 ^ 31
  · obtain ⟨ret, -, -, t', chain', recycled', hpush', -, -, hfiled⟩ :=
      h.push key v hmem (Or.inr hroom)
    obtain ⟨rfl, rfl⟩ := Prod.mk.inj (Option.some.inj (hpush.symm.trans hpush'))
    rcases hfiled.chained.find_eq key with ⟨pre, p, post, hcut, hit, -⟩ | ⟨-, hfind⟩
    · exact absurd ⟨p, ⟨bucketOf t₁ key, by simp [hcut]⟩, hit⟩
        (hfiled.notPresent_of_long (not_le.mp hlong))
    · rw [hfiled.chained.hashPop_of_missing hfind] at hpop
      cases hpop
  · rw [h.push_eq_none v hmem hno hroom] at hpush
    cases hpush

/-- A key that works is stored, or no entry answers to it and the table takes one more. -/
theorem Filed.new_of_keyWorks (h : Filed t chain recycled) (works : KeyWorks history t key v)
    (hstored : stored history key = none) :
    ¬ Present t chain key ∧ t.count.toNat + 1 < 2 ^ 31 := by
  obtain ⟨mem, hmem⟩ := h.exists_fresh
  obtain ⟨old, t₁, hpush, -, hcount, -⟩ := works mem hmem
  have hno : ¬ Present t chain key := by
    intro hpresent
    obtain ⟨w, held⟩ := h.exists_holds hpresent
    obtain ⟨t', hpush', -, -, hsame⟩ := h.push_of_holds held v mem
    obtain ⟨-, rfl⟩ := Prod.mk.inj (Option.some.inj (hpush.symm.trans hpush'))
    rw [countWithout_of_none hstored, hashCount, hashCount, hsame] at hcount
    omega
  refine ⟨hno, ?_⟩
  by_contra hroom
  rw [h.push_eq_none v hmem hno hroom] at hpush
  cases hpush

/-- In every table that calls with any keys can make, a key works if and only if it has at
most 30 bytes and is stored, or it is new, no entry left by a longer key answers to it and
the table holds fewer than 2^31 - 1 entries. -/
theorem keyWorks_iff (run : (keyedSystem Created).Trace history t) :
    KeyWorks history t key v ↔ key.length ≤ 30 ∧ (stored history key ≠ none ∨
      (t.find key).map Prod.snd = some false ∧ t.count.toNat + 1 < 2 ^ 31) := by
  obtain ⟨chain, recycled, hfiled, known⟩ := Run.filed (fun _ => id) run
  have hfind := (hfiled.chained.find_iff key).2
  constructor
  · intro works
    refine ⟨hfiled.length_le_of_keyWorks works, or_iff_not_imp_left.mpr fun hstored => ?_⟩
    obtain ⟨hno, hroom⟩ := hfiled.new_of_keyWorks works (not_not.mp hstored)
    exact ⟨hfind.mpr hno, hroom⟩
  · rintro ⟨hkey, hstored | ⟨hmissing, hroom⟩⟩
    · exact hfiled.keyWorks_of_stored known hkey hstored
    · by_cases hstored : stored history key = none
      · exact hfiled.keyWorks_of_new (hfind.mp hmissing) hkey hstored hroom
      · exact hfiled.keyWorks_of_stored known hkey hstored

/-- A table as `hash_create` makes it for the size 0. -/
def smallTable : HashT ℕ := newTable initialMax none

theorem created_smallTable : Created smallTable := ⟨0, none, rfl⟩

/-- A key of one byte works in a new table. -/
theorem keyWorks_of_smallTable : KeyWorks [] smallTable [97] 5 :=
  (keyWorks_iff (.start created_smallTable)).mpr ⟨by decide, Or.inr ⟨by decide +kernel, by decide⟩⟩

/-- A key of 31 bytes. -/
def longKey : CString := List.replicate 31 97

/-- A key of 31 bytes is not found after its push. -/
theorem pop_longKey :
    ((smallTable.hashPush longKey 5 (some 0) true).bind fun r => r.2.hashPop longKey).map
      Prod.fst = some none := by
  decide +kernel

/-- Keys of 31 bytes do not work. -/
theorem exists_long_key_fails :
    ¬ ∀ (history : List (HashCall ℕ × HashRet ℕ)) (t : HashT ℕ),
      (keyedSystem Created).Trace history t → ∀ (key : CString) (value : ℕ), 0 ∉ key →
        KeyWorks history t key value := by
  intro hevery
  obtain ⟨old, t₁, hpush, ⟨t₂, hpop, -⟩, -⟩ :=
    hevery [] smallTable (.start created_smallTable) longKey 5 (by decide) 0 rfl
  have hnone := pop_longKey
  rw [hpush, Option.bind_some, hpop] at hnone
  cases hnone

end BliveQueue.Hash
