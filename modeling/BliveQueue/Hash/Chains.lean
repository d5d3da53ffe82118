/-
# Buckets as chains

A well-formed table keeps every stored entry in the chain of its bucket and every
removed entry in the chain of the free list. What an entry holds besides its `next`
is its data; the operations redirect one link and write the data of one entry, so
chains and data are followed separately.
-/

import Mathlib.Data.Finset.Card
import BliveQueue.Math.LinkedChain
import BliveQueue.Utils.Hash

namespace BliveQueue.Hash

open BliveQueue.Math.LinkedChain BliveQueue.Utils.Hash BliveQueue.Utils.Hash.HashT

variable {β : Type} {t t' : HashT β} {chain : ℕ → List EntryPtr} {recycled : List EntryPtr}
variable {pre rest : List EntryPtr} {i : ℕ} {p q : EntryPtr} {e : HashEntry β} {key : CString}

/-- The `next` of an allocated entry. -/
def nextOf (entry : EntryPtr → Option (HashEntry β)) (p : EntryPtr) : Option EntryPtr :=
  (entry p).bind HashEntry.next

/-- What an entry holds besides its `next`. -/
structure EntryData (β : Type) where
  hash : UInt32
  key : CString
  value : Option β

def HashEntry.data (e : HashEntry β) : EntryData β := ⟨e.hash, e.key, e.value⟩

def dataOf (entry : EntryPtr → Option (HashEntry β)) (p : EntryPtr) : Option (EntryData β) :=
  (entry p).map HashEntry.data

/-- The link at the end of the first entries of a bucket. -/
def linkAfter (i : ℕ) (pre : List EntryPtr) : Link :=
  match pre.getLast? with
  | none => .bucket i
  | some q => .next q

@[simp] theorem linkAfter_nil (i : ℕ) : linkAfter i [] = .bucket i := rfl

@[simp] theorem linkAfter_concat (i : ℕ) (pre : List EntryPtr) (q : EntryPtr) :
    linkAfter i (pre ++ [q]) = .next q := by
  simp [linkAfter]

/-- The buckets and the free list are chains of allocated entries; the entries of the
buckets have a value and stand in the bucket of their hash, the others have none. -/
structure Chained (t : HashT β) (chain : ℕ → List EntryPtr) (recycled : List EntryPtr) :
    Prop where
  slots : t.slots = t.max.toNat + 1
  bucket : ∀ i < t.slots, Path (nextOf t.entry) (t.array i) (chain i) none
  beyond : ∀ i, t.slots ≤ i → chain i = []
  freeList : Path (nextOf t.entry) t.free recycled none
  nodup : ∀ i, (chain i).Nodup
  recycledNodup : recycled.Nodup
  stored : ∀ i, ∀ p ∈ chain i, ∃ d, dataOf t.entry p = some d ∧ d.value.isSome = true ∧
    bucketIndex d.hash t.max = i
  idle : ∀ p ∈ recycled, ∃ d, dataOf t.entry p = some d ∧ d.value = none
  count : ∃ live : Finset EntryPtr, (∀ p, p ∈ live ↔ ∃ i, p ∈ chain i) ∧
    t.count.toNat = live.card

theorem bucketIndex_le (hash max : UInt32) : bucketIndex hash max ≤ max.toNat := by
  rw [bucketIndex, UInt32.toNat_and]
  exact Nat.and_le_right

theorem Chained.bucketIndex_lt (h : Chained t chain recycled) (hash : UInt32) :
    bucketIndex hash t.max < t.slots := by
  rw [h.slots]
  exact Nat.lt_succ_of_le (bucketIndex_le _ _)

theorem Chained.lt_slots (h : Chained t chain recycled) (hp : p ∈ chain i) : i < t.slots := by
  by_contra hle
  rw [h.beyond i (not_lt.mp hle)] at hp
  exact absurd hp List.not_mem_nil

/-- An entry stands in one bucket. -/
theorem Chained.bucket_unique (h : Chained t chain recycled) {j : ℕ} (hi : p ∈ chain i)
    (hj : p ∈ chain j) : i = j := by
  obtain ⟨d, hd, -, hdi⟩ := h.stored i p hi
  obtain ⟨d', hd', -, hdj⟩ := h.stored j p hj
  rw [hd] at hd'
  obtain rfl := Option.some.inj hd'
  exact hdi.symm.trans hdj

/-- A removed entry stands in no bucket. -/
theorem Chained.notMem_of_recycled (h : Chained t chain recycled) (hp : p ∈ recycled) :
    p ∉ chain i := by
  intro hi
  obtain ⟨d, hd, hvalue, -⟩ := h.stored i p hi
  obtain ⟨d', hd', hnone⟩ := h.idle p hp
  rw [hd] at hd'
  obtain rfl := Option.some.inj hd'
  simp [hnone] at hvalue

/-- A bucket without one of its entries. -/
theorem Chained.erase_cut (h : Chained t chain recycled) {post : List EntryPtr}
    (hcut : chain i = pre ++ p :: post) : (chain i).erase p = pre ++ post := by
  have hnodup := h.nodup i
  rw [hcut] at hnodup
  have hpre : p ∉ pre :=
    fun hmem => List.disjoint_of_nodup_append hnodup hmem List.mem_cons_self
  rw [hcut, List.erase_append_right _ hpre, List.erase_cons_head]

/-- The entries of the buckets after one is taken out of its bucket. -/
theorem Chained.mem_update_erase (h : Chained t chain recycled) (hp : p ∈ chain i) {j : ℕ} :
    q ∈ Function.update chain i ((chain i).erase p) j ↔ q ∈ chain j ∧ q ≠ p := by
  rcases eq_or_ne j i with rfl | hne
  · rw [Function.update_self, (h.nodup j).mem_erase_iff]
    exact and_comm
  · rw [Function.update_of_ne hne]
    refine ⟨fun hq => ⟨hq, ?_⟩, And.left⟩
    rintro rfl
    exact hne (h.bucket_unique hq hp)

/-- The entries of the buckets after one is put at the end of a bucket. -/
theorem mem_update_concat {j : ℕ} :
    q ∈ Function.update chain i (chain i ++ [p]) j ↔ q ∈ chain j ∨ j = i ∧ q = p := by
  rcases eq_or_ne j i with rfl | hne
  · simp
  · simp [hne]

theorem exists_entry_of_dataOf {entry : EntryPtr → Option (HashEntry β)} {d : EntryData β}
    (h : dataOf entry p = some d) :
    ∃ e, entry p = some e ∧ HashEntry.data e = d ∧ nextOf entry p = e.next := by
  obtain ⟨e, he, hd⟩ := Option.map_eq_some_iff.mp h
  exact ⟨e, he, hd, by simp [nextOf, he]⟩

theorem Chained.length_le (h : Chained t chain recycled) (i : ℕ) :
    (chain i).length ≤ t.count.toNat := by
  obtain ⟨live, hlive, hcount⟩ := h.count
  rw [hcount, ← List.toFinset_card_of_nodup (h.nodup i)]
  exact Finset.card_le_card fun p hp => (hlive p).mpr ⟨i, List.mem_toFinset.mp hp⟩

/-! ## Reading and redirecting a link -/

/-- Reading the link after the first entries of a chain. -/
theorem readLink_linkAfter (hi : i < t.slots) {mid stop : Option EntryPtr}
    (path : Path (nextOf t.entry) (t.array i) pre mid)
    (hlive : ∀ p ∈ pre, (t.entry p).isSome = true) (hstop : stop = mid) :
    t.readLink (linkAfter i pre) = some stop := by
  subst hstop
  cases hlast : pre.getLast? with
  | none =>
      obtain rfl := List.getLast?_eq_none_iff.mp hlast
      obtain rfl := path
      simp [readLink, hi]
  | some q =>
      obtain ⟨init, rfl⟩ := List.getLast?_eq_some_iff.mp hlast
      obtain ⟨-, -, -, hnext⟩ := path_append.mp path
      obtain ⟨e, he⟩ := Option.isSome_iff_exists.mp (hlive q (by simp))
      rw [linkAfter_concat, readLink, he, Option.map_some, ← hnext, nextOf, he]
      rfl

theorem nextOf_update (entry : EntryPtr → Option (HashEntry β)) (p : EntryPtr)
    (e : HashEntry β) :
    nextOf (Function.update entry p (some e)) = Function.update (nextOf entry) p e.next := by
  funext q
  rcases eq_or_ne q p with rfl | hne
  · simp [nextOf]
  · simp [nextOf, hne]

theorem dataOf_update (entry : EntryPtr → Option (HashEntry β)) (p : EntryPtr)
    (e : HashEntry β) :
    dataOf (Function.update entry p (some e)) =
      Function.update (dataOf entry) p (some (HashEntry.data e)) := by
  funext q
  rcases eq_or_ne q p with rfl | hne
  · simp [dataOf]
  · simp [dataOf, hne]

/-- Writing the link after the first entries of a chain redirects it and keeps all data. -/
theorem writeLink_linkAfter (hi : i < t.slots) (hlive : ∀ p ∈ pre, (t.entry p).isSome = true)
    (v : Option EntryPtr) :
    ∃ array entry,
      t.writeLink (linkAfter i pre) v = some { t with array := array, entry := entry } ∧
      array = Function.update t.array i (redirectStart (t.array i) pre v) ∧
      nextOf entry = redirectNext (nextOf t.entry) pre v ∧ dataOf entry = dataOf t.entry := by
  cases hlast : pre.getLast? with
  | none =>
      obtain rfl := List.getLast?_eq_none_iff.mp hlast
      exact ⟨_, t.entry, if_pos hi, rfl, rfl, rfl⟩
  | some q =>
      obtain ⟨init, rfl⟩ := List.getLast?_eq_some_iff.mp hlast
      obtain ⟨e, he⟩ := Option.isSome_iff_exists.mp (hlive q (by simp))
      refine ⟨t.array, Function.update t.entry q (some { e with next := v }), ?_, ?_, ?_, ?_⟩
      · simp [writeLink, he, setEntry]
      · cases init <;> simp [redirectStart]
      · simp [nextOf_update, redirectNext]
      · rw [dataOf_update]
        funext p
        rcases eq_or_ne p q with rfl | hne
        · simp [dataOf, he, HashEntry.data]
        · simp [hne]

/-! ## Lookup -/

/-- The entry has the hash and the key. -/
def Matches (t : HashT β) (key : CString) (p : EntryPtr) : Prop :=
  ∃ d, dataOf t.entry p = some d ∧ d.hash = t.hashFunc key ∧ d.key = key

/-- The bucket of a key. -/
def bucketOf (t : HashT β) (key : CString) : ℕ := bucketIndex (t.hashFunc key) t.max

theorem Chained.bucketOf_lt (h : Chained t chain recycled) (key : CString) :
    bucketOf t key < t.slots :=
  h.bucketIndex_lt (t.hashFunc key)

theorem findLoop_end {fuel : ℕ} {link : Link} {hash : UInt32}
    (hread : t.readLink link = some none) :
    t.findLoop hash key fuel link = some (link, false) := by
  rw [findLoop]
  simp [hread]

theorem findLoop_found {fuel : ℕ} {link : Link} {hash : UInt32}
    (hread : t.readLink link = some (some p)) (he : t.entry p = some e)
    (hmatch : e.hash = hash ∧ e.key = key) :
    t.findLoop hash key fuel link = some (link, true) := by
  rw [findLoop]
  simp [hread, he, hmatch]

theorem findLoop_skip {fuel : ℕ} {link : Link} {hash : UInt32}
    (hread : t.readLink link = some (some p)) (he : t.entry p = some e)
    (hmatch : ¬ (e.hash = hash ∧ e.key = key)) :
    t.findLoop hash key (fuel + 1) link = t.findLoop hash key fuel (.next p) := by
  rw [findLoop]
  simp only [hread, he, hmatch, Option.bind_eq_bind, Option.bind_some, if_false]

theorem matches_iff (he : t.entry p = some e) :
    Matches t key p ↔ e.hash = t.hashFunc key ∧ e.key = key := by
  simp [Matches, dataOf, he, HashEntry.data]

/-- The loop goes from the link after some entries to the link of the next match. -/
theorem findLoop_eq (pre : List EntryPtr) (hi : i < t.slots) {fuel : ℕ}
    (hfuel : rest.length ≤ fuel)
    (path : Path (nextOf t.entry) (t.array i) (pre ++ rest) none)
    (hlive : ∀ p ∈ pre ++ rest, (t.entry p).isSome = true) :
    (∃ skipped p post, rest = skipped ++ p :: post ∧ Matches t key p ∧
        (∀ q ∈ skipped, ¬ Matches t key q) ∧
        t.findLoop (t.hashFunc key) key fuel (linkAfter i pre) =
          some (linkAfter i (pre ++ skipped), true)) ∨
      (∀ q ∈ rest, ¬ Matches t key q) ∧
        t.findLoop (t.hashFunc key) key fuel (linkAfter i pre) =
          some (linkAfter i (pre ++ rest), false) := by
  have hpre : ∀ p ∈ pre, (t.entry p).isSome = true :=
    fun p hp => hlive p (List.mem_append_left _ hp)
  obtain ⟨mid, hfirst, hrest⟩ := path_append.mp path
  induction rest generalizing pre fuel mid with
  | nil =>
      refine Or.inr ⟨nofun, ?_⟩
      rw [List.append_nil]
      exact findLoop_end (readLink_linkAfter hi hfirst hpre hrest.symm)
  | cons p rest ih =>
      obtain ⟨rfl, -⟩ := hrest
      have hread := readLink_linkAfter hi hfirst hpre rfl
      obtain ⟨e, he⟩ := Option.isSome_iff_exists.mp (hlive p (by simp))
      by_cases hmatch : e.hash = t.hashFunc key ∧ e.key = key
      · refine Or.inl ⟨[], p, rest, rfl, (matches_iff he).mpr hmatch, nofun, ?_⟩
        rw [List.append_nil]
        exact findLoop_found hread he hmatch
      · have hno : ¬ Matches t key p := fun h => hmatch ((matches_iff he).mp h)
        have happend : pre ++ p :: rest = (pre ++ [p]) ++ rest := by simp
        cases fuel with
        | zero => simp at hfuel
        | succ fuel =>
            rw [findLoop_skip hread he hmatch, ← linkAfter_concat i pre p]
            rw [happend] at path hlive ⊢
            obtain ⟨mid', hfirst', hrest'⟩ := path_append.mp path
            rcases ih (pre ++ [p]) (by simpa using hfuel) path hlive
              (fun q hq => hlive q (List.mem_append_left _ hq)) mid' hfirst' hrest' with
              ⟨skipped, q, post, rfl, hq, hskipped, hloop⟩ | ⟨hnone, hloop⟩
            · refine Or.inl ⟨p :: skipped, q, post, rfl, hq, ?_, ?_⟩
              · exact List.forall_mem_cons.mpr ⟨hno, hskipped⟩
              · rw [hloop, List.append_assoc, List.singleton_append]
            · exact Or.inr ⟨List.forall_mem_cons.mpr ⟨hno, hnone⟩, hloop⟩

/-- Every entry of a bucket is allocated. -/
theorem Chained.isSome_entry (h : Chained t chain recycled) (hp : p ∈ chain i) :
    (t.entry p).isSome = true := by
  obtain ⟨d, hd, -⟩ := h.stored i p hp
  obtain ⟨e, he, -⟩ := exists_entry_of_dataOf hd
  simp [he]

/-- A lookup answers the link of the first match of the bucket, or its last link. -/
theorem Chained.find_eq (h : Chained t chain recycled) (key : CString) :
    (∃ pre p post, chain (bucketOf t key) = pre ++ p :: post ∧ Matches t key p ∧
        (∀ q ∈ pre, ¬ Matches t key q) ∧
        t.find key = some (linkAfter (bucketOf t key) pre, true)) ∨
      (∀ q ∈ chain (bucketOf t key), ¬ Matches t key q) ∧
        t.find key = some (linkAfter (bucketOf t key) (chain (bucketOf t key)), false) := by
  have hi := h.bucketOf_lt key
  exact findLoop_eq [] hi (h.length_le _) (h.bucket _ hi) fun p hp => h.isSome_entry hp

/-- The link in front of a stored entry. -/
theorem Chained.readLink_cut (h : Chained t chain recycled) {post : List EntryPtr}
    (hcut : chain i = pre ++ p :: post) : t.readLink (linkAfter i pre) = some (some p) := by
  have hi : i < t.slots := h.lt_slots (p := p) (by simp [hcut])
  have hpath := h.bucket i hi
  rw [hcut] at hpath
  obtain ⟨mid, hfirst, rfl, -⟩ := path_append.mp hpath
  exact readLink_linkAfter hi hfirst (fun q hq => h.isSome_entry (i := i) (by simp [hcut, hq])) rfl

/-- A mask covers at most 2^31 slots. -/
theorem lt_of_mask {max : UInt32} (mask : ∃ k ≤ 31, max.toNat + 1 = 2 ^ k) :
    max.toNat < 2 ^ 31 := by
  obtain ⟨k, hk, hmask⟩ := mask
  have hle : 2 ^ k ≤ 2 ^ 31 := Nat.pow_le_pow_right (by decide) hk
  omega

/-- The last link of a bucket. -/
theorem Chained.readLink_end (h : Chained t chain recycled) (hi : i < t.slots) :
    t.readLink (linkAfter i (chain i)) = some none :=
  readLink_linkAfter hi (h.bucket i hi) (fun _ hq => h.isSome_entry hq) rfl

end BliveQueue.Hash
