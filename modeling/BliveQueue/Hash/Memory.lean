/-
# The memory of a table

An entry leaves the allocator once and stays with its table: a removal puts it in front
of the free list, and an insertion asks for a new one only when that list is empty. The
table therefore owns as many entries as it held at its fullest, and since buckets and
free list together reach all of them, `hash_destroy` gives every one back.
-/

import Mathlib.Data.Set.Card
import Mathlib.Order.Bounds.Basic
import BliveQueue.Hash.Filed

namespace BliveQueue.Hash

open BliveQueue.Math BliveQueue.Math.LinkedChain BliveQueue.Utils BliveQueue.Utils.Hash
open BliveQueue.Utils.Hash.HashT

variable {β : Type} {t t' t₀ : HashT β} {chain chain' chain₀ : ℕ → List EntryPtr}
variable {recycled recycled' cells : List EntryPtr} {key : CString} {p q : EntryPtr}
variable {v : β} {ret : Option β} {history : List (HashCall β × HashRet β)} {fuel n : ℕ}

/-! ## Entries in use -/

/-- The entries that the table has got from the allocator. -/
def allocated (t : HashT β) : Set EntryPtr := {p | t.entry p ≠ none}

theorem mem_allocated : p ∈ allocated t ↔ dataOf t.entry p ≠ none := by
  simp [allocated, dataOf]

/-- Every allocated entry stands in a bucket or in the free list. -/
structure Stocked (t : HashT β) (chain : ℕ → List EntryPtr) (recycled : List EntryPtr) :
    Prop where
  filed : Filed t chain recycled
  covers : ∀ p, dataOf t.entry p ≠ none → InTable chain p ∨ p ∈ recycled

/-- The number of entries in buckets and free list. -/
def stock (t : HashT β) (recycled : List EntryPtr) : ℕ := t.count.toNat + recycled.length

theorem count_le_stock : t.count.toNat ≤ stock t recycled := Nat.le_add_right _ _

theorem Stocked.mem_allocated_iff (h : Stocked t chain recycled) :
    p ∈ allocated t ↔ InTable chain p ∨ p ∈ recycled := by
  rw [mem_allocated]
  refine ⟨h.covers p, ?_⟩
  rintro (⟨i, hi⟩ | hp)
  · obtain ⟨d, hd, -⟩ := h.filed.chained.stored i p hi
    exact hd ▸ Option.some_ne_none d
  · obtain ⟨d, hd, -⟩ := h.filed.chained.idle p hp
    exact hd ▸ Option.some_ne_none d

/-- The buckets of a table are determined by its links. -/
theorem Chained.chain_unique (h : Chained t chain recycled) (h' : Chained t chain' recycled') :
    chain = chain' := by
  funext i
  by_cases hi : i < t.slots
  · exact (h.bucket i hi).unique (h'.bucket i hi)
  · rw [h.beyond i (not_lt.mp hi), h'.beyond i (not_lt.mp hi)]

/-- A bucket starts with an allocated entry. -/
theorem Stocked.mem_of_array (h : Stocked t chain recycled) {i : ℕ} (hi : i < t.slots)
    (hp : t.array i = some p) : p ∈ allocated t := by
  have hhead := (h.filed.chained.bucket i hi).start_eq_head?
  apply h.mem_allocated_iff.mpr
  exact Or.inl ⟨i, List.mem_of_mem_head? (hhead.symm.trans hp)⟩

/-- An allocated entry points to an allocated one. -/
theorem Stocked.mem_of_next (h : Stocked t chain recycled) (hp : p ∈ allocated t)
    (hq : nextOf t.entry p = some q) : q ∈ allocated t := by
  apply h.mem_allocated_iff.mpr
  rcases h.mem_allocated_iff.mp hp with ⟨i, hi⟩ | hrecycled
  · have hslots := h.filed.chained.lt_slots hi
    exact Or.inl ⟨i, (h.filed.chained.bucket i hslots).mem_of_next hi hq⟩
  · exact Or.inr (h.filed.chained.freeList.mem_of_next hrecycled hq)

/-- The entries in use are counted once each. -/
theorem Stocked.ncard_allocated (h : Stocked t chain recycled) :
    (allocated t).ncard = stock t recycled := by
  obtain ⟨live, hlive, hcount⟩ := h.filed.chained.count
  have hset : allocated t = ↑(live ∪ recycled.toFinset) := by
    ext p
    rw [h.mem_allocated_iff]
    simp [hlive, InTable]
  have hdisjoint : Disjoint live recycled.toFinset := by
    apply Finset.disjoint_left.mpr
    intro p hp hrecycled
    obtain ⟨i, hi⟩ := (hlive p).mp hp
    exact h.filed.chained.notMem_of_recycled (List.mem_toFinset.mp hrecycled) hi
  rw [hset, Set.ncard_coe_finset, Finset.card_union_of_disjoint hdisjoint,
    List.toFinset_card_of_nodup h.filed.chained.recycledNodup, stock, hcount]

/-- A created table has no entries. -/
theorem Stocked.of_created (h : Created t) : Stocked t (fun _ => []) [] := by
  refine ⟨Filed.of_created h, fun p hp => absurd ?_ hp⟩
  obtain ⟨size, hashFunc, hcreate⟩ := h
  obtain ⟨max, k, rfl, -⟩ := exists_newTable_of_create hcreate
  rfl

theorem stock_of_created (h : Created t) : stock t [] = 0 := by
  obtain ⟨size, hashFunc, hcreate⟩ := h
  obtain ⟨max, k, rfl, -⟩ := exists_newTable_of_create hcreate
  rfl

/-! ## Steps -/

/-- What a call does to the memory: everything in use stays reachable, and new entries are
taken only for a table that is as full as it has ever been. -/
structure Restocks (t : HashT β) (recycled : List EntryPtr) (t' : HashT β)
    (chain' : ℕ → List EntryPtr) (recycled' : List EntryPtr) : Prop where
  covers : ∀ p, dataOf t'.entry p ≠ none → InTable chain' p ∨ p ∈ recycled'
  stock : stock t' recycled' = max t'.count.toNat (stock t recycled)

theorem Stocked.restocks_self (h : Stocked t chain recycled) :
    Restocks t recycled t chain recycled :=
  ⟨h.covers, (max_eq_right count_le_stock).symm⟩

/-- The memory at the end of a push. -/
theorem Restocks.settle (h : Restocks t recycled t₀ chain₀ recycled')
    (hsettles : Settles t₀ chain₀ t' chain') : Restocks t recycled t' chain' recycled' := by
  refine ⟨fun p hp => ?_, ?_⟩
  · rw [hsettles.data] at hp
    exact (h.covers p hp).imp_left (hsettles.members p).mpr
  · rw [Hash.stock, hsettles.count]
    exact h.stock

/-- A push reaches the point where the table may grow. -/
theorem Stocked.exists_pushes (h : Stocked t chain recycled) (key : CString) (v : β)
    {mem : EntryPtr} (hmem : t.entry mem = none) :
    ∃ ret t' chain' recycled', t.hashPush key v (some mem) true = grown true ret t' ∧
      Pushes t chain key v ret t' chain' ∧ Chained t' chain' recycled' ∧
        Restocks t recycled t' chain' recycled' := by
  have hchained := h.filed.chained
  have hcount := h.filed.count_lt
  rcases hchained.find_eq key with ⟨pre, p, post, hcut, hit, -, hfind⟩ | ⟨missing, hfind⟩
  · have hp : p ∈ chain (bucketOf t key) := by simp [hcut]
    obtain ⟨e, he⟩ := Option.isSome_iff_exists.mp (hchained.isSome_entry hp)
    have hd : dataOf t.entry p = some (HashEntry.data e) := by simp [dataOf, he]
    have hdata : dataOf (t.setEntry p { e with value := some v }).entry =
        Function.update (dataOf t.entry) p (some ⟨e.hash, e.key, some v⟩) := dataOf_update _ _ _
    refine ⟨e.value, t.setEntry p { e with value := some v }, chain, recycled,
      hchained.hashPush_of_found v (some mem) true hcut hfind he,
      .replaced (d := HashEntry.data e) hp hit hd ⟨rfl, rfl, rfl⟩ rfl hdata,
      hchained.replace hp he v, fun q hq => ?_, (max_eq_right count_le_stock).symm⟩
    rcases eq_or_ne q p with rfl | hne
    · exact Or.inl ⟨_, hp⟩
    · rw [update_of_ne hdata q hne] at hq
      exact h.covers q hq
  · obtain ⟨⟨p, value, t₁⟩, htake⟩ := hchained.exists_takeEntry mem
    have hfresh : ∀ q, some mem = some q → t.entry q = none := by
      intro q hq
      obtain rfl := Option.some.inj hq
      exact hmem
    obtain ⟨t', recycled', hpush, hpushes, hchained', htakes, hdata⟩ :=
      hchained.push_takes v true hfresh (by omega) missing hfind htake
    have hnew : t'.count.toNat = t.count.toNat + 1 := by
      rcases (h.filed.pushed hpushes).2.2.2 with ⟨hpresent, -⟩ | ⟨-, hmore⟩
      · exact absurd missing (mt hchained.notPresent_iff.mpr (not_not_intro hpresent))
      · exact hmore
    refine ⟨none, t', _, recycled', hpush, hpushes, hchained', fun q hq => ?_, ?_⟩
    · rcases eq_or_ne q p with rfl | hne
      · exact Or.inl (inTable_concat.mpr (Or.inr rfl))
      · rw [update_of_ne hdata q hne] at hq
        refine (h.covers q hq).imp (fun hin => inTable_concat.mpr (Or.inl hin)) fun hold => ?_
        cases htakes with
        | reused => exact (List.mem_cons.mp hold).resolve_left hne
        | allocated => exact absurd hold List.not_mem_nil
    · cases htakes with
      | reused =>
          rw [stock, stock, hnew, List.length_cons]
          omega
      | allocated =>
          rw [stock, stock, hnew, List.length_nil]
          omega

/-- No entry is given back and the array does not shrink. -/
structure Grows (t t' : HashT β) : Prop where
  live : allocated t ⊆ allocated t'
  max : t.max.toNat ≤ t'.max.toNat

theorem Grows.refl (t : HashT β) : Grows t t := ⟨Set.Subset.rfl, le_rfl⟩

theorem Grows.trans {t'' : HashT β} (h : Grows t t') (h' : Grows t' t'') : Grows t t'' :=
  ⟨h.live.trans h'.live, h.max.trans h'.max⟩

/-- Writing the data of one entry gives none back. -/
theorem grows_of_update {d : EntryData β} (same : SameShape t t')
    (data : dataOf t'.entry = Function.update (dataOf t.entry) p (some d)) : Grows t t' := by
  refine ⟨fun q hq => ?_, (congrArg UInt32.toNat same.max).ge⟩
  rw [mem_allocated, data]
  rcases eq_or_ne q p with rfl | hne
  · rw [Function.update_self]
    exact Option.some_ne_none d
  · rw [Function.update_of_ne hne]
    exact mem_allocated.mp hq

theorem Pushes.grows (h : Pushes t chain key v ret t' chain') : Grows t t' := by
  cases h with
  | replaced _ _ _ same _ data => exact grows_of_update same data
  | inserted _ _ same _ data => exact grows_of_update same data

theorem Settles.grows (h : Settles t chain t' chain') : Grows t t' := by
  cases h with
  | fits => exact .refl t
  | grew exceeds doubled expands =>
      refine ⟨fun p hp => ?_, by omega⟩
      rwa [mem_allocated, expands.data, ← mem_allocated]

theorem Pops.grows (h : Pops t chain key ret t' chain') : Grows t t' := by
  cases h with
  | absent => exact .refl t
  | removed _ _ _ same _ data => exact grows_of_update same data

/-- A removal takes nothing from the allocator. -/
theorem Pops.live (h : Pops t chain key ret t' chain') (hq : dataOf t'.entry q ≠ none) :
    dataOf t.entry q ≠ none := by
  cases h with
  | absent missing => exact hq
  | @removed _ p d stored hit held same count data =>
      rcases eq_or_ne q p with rfl | hne
      · exact held ▸ Option.some_ne_none d
      · rwa [update_of_ne data q hne] at hq

/-- A removal returns and keeps the entry. -/
theorem Stocked.pop (h : Stocked t chain recycled) (key : CString) :
    ∃ ret t' chain' recycled', t.hashPop key = some (ret, t') ∧ Stocked t' chain' recycled' ∧
      Restocks t recycled t' chain' recycled' ∧ Grows t t' := by
  have hchained := h.filed.chained
  rcases hchained.find_eq key with ⟨pre, p, post, hcut, hit, -, hfind⟩ | ⟨missing, hfind⟩
  · have hp : p ∈ chain (bucketOf t key) := by simp [hcut]
    obtain ⟨e, he⟩ := Option.isSome_iff_exists.mp (hchained.isSome_entry hp)
    obtain ⟨t', hpop, hpops, hchained', hcount⟩ := hchained.hashPop_of_found hcut hit hfind he
    have hfiled := h.filed.popped hpops hchained'
    have hcovers : ∀ q, dataOf t'.entry q ≠ none → InTable (Function.update chain
        (bucketOf t key) ((chain (bucketOf t key)).erase p)) q ∨ q ∈ p :: recycled := by
      intro q hq
      rcases eq_or_ne q p with rfl | hne
      · exact Or.inr List.mem_cons_self
      · exact (h.covers q (hpops.live hq)).imp
          (fun hin => (inTable_erase hchained hp).mpr ⟨hin, hne⟩) (List.mem_cons_of_mem p)
    refine ⟨e.value, t', _, _, hpop, ⟨hfiled, hcovers⟩, ⟨hcovers, ?_⟩, hpops.grows⟩
    rw [stock, stock, List.length_cons]
    omega
  · exact ⟨none, t, chain, recycled, hchained.hashPop_of_missing hfind, h, h.restocks_self,
      .refl t⟩

/-- A call keeps the whole memory reachable. -/
theorem Stocked.step {start : HashT β → Prop} (h : Stocked t chain recycled)
    {label : HashCall β × HashRet β} (taken : (keyedSystem start).step t label t') :
    ∃ chain' recycled', Stocked t' chain' recycled' ∧ Grows t t' ∧
      stock t' recycled' = max t'.count.toNat (stock t recycled) := by
  obtain ⟨call, answer⟩ := label
  obtain ⟨hkept, hrun⟩ := taken
  cases call with
  | push key v mem =>
      have hbelow : Present t chain key ∨ t.count.toNat + 1 < 2 ^ 31 := by
        by_contra hnot
        obtain ⟨hno, hlimit⟩ := not_or.mp hnot
        rw [HashCall.run, h.filed.push_eq_none v hkept.2 hno hlimit] at hrun
        cases hrun
      obtain ⟨ret, t₀, chain₀, recycled', hpush, hpushes, hchained, restocks⟩ :=
        h.exists_pushes key v hkept.2
      obtain ⟨t₁, chain₁, hgrown, hsettles, hfiled⟩ := h.filed.settle hpushes hchained hbelow
      rw [HashCall.run, hpush, hgrown] at hrun
      obtain ⟨rfl, rfl⟩ := Prod.mk.inj (Option.some.inj hrun)
      have hend := restocks.settle hsettles
      exact ⟨chain₁, recycled', ⟨hfiled, hend.covers⟩, hpushes.grows.trans hsettles.grows,
        hend.stock⟩
  | pop key =>
      obtain ⟨ret, t₁, chain₁, recycled₁, hpop, hstocked, restocks, grows⟩ := h.pop key
      rw [HashCall.run, hpop] at hrun
      obtain ⟨rfl, rfl⟩ := Prod.mk.inj (Option.some.inj hrun)
      exact ⟨chain₁, recycled₁, hstocked, grows, restocks.stock⟩
  | count =>
      obtain ⟨-, rfl⟩ := Prod.mk.inj (Option.some.inj hrun)
      exact ⟨chain, recycled, h, .refl t, h.restocks_self.stock⟩
  | foreach callback =>
      obtain ⟨pairs, -, heq⟩ := Option.map_eq_some_iff.mp hrun
      obtain ⟨-, rfl⟩ := Prod.mk.inj heq
      exact ⟨chain, recycled, h, .refl t, h.restocks_self.stock⟩

theorem Run.stocked (run : (keyedSystem Created).Trace history t) :
    ∃ chain recycled, Stocked t chain recycled := by
  apply run.invariant (I := fun _ t => ∃ chain recycled, Stocked t chain recycled)
  · exact fun t hcreated => ⟨_, _, Stocked.of_created hcreated⟩
  · rintro history t label t' - ⟨chain, recycled, hstocked⟩ - taken
    obtain ⟨chain', recycled', hstocked', -, -⟩ := hstocked.step taken
    exact ⟨chain', recycled', hstocked'⟩

/-! ## The high-water mark -/

/-- The number of keys of a map. -/
noncomputable def keyCount (m : CString → Option β) : ℕ := {key | m key ≠ none}.ncard

theorem Maps.keyCount_eq {m : CString → Option β} (h : Maps t chain recycled m) :
    keyCount m = t.count.toNat := by
  obtain ⟨keys, hkeys, hcard⟩ := h.card_eq
  have hset : {key | m key ≠ none} = ↑keys := Set.ext fun key => (hkeys key).symm
  rw [keyCount, hset, Set.ncard_coe_finset, hcard]

/-- How many keys were stored at the moments of a history. -/
def levels (history : List (HashCall β × HashRet β)) : Set ℕ :=
  {n | ∃ before, before <+: history ∧ keyCount (stored before) = n}

theorem levels_concat (history : List (HashCall β × HashRet β)) (label : HashCall β × HashRet β) :
    levels (history ++ [label]) =
      insert (keyCount (stored (history ++ [label]))) (levels history) := by
  ext n
  simp only [levels, List.prefix_concat_iff, Set.mem_insert_iff, Set.mem_ofPred_eq]
  constructor
  · rintro ⟨before, rfl | hbefore, hn⟩
    · exact Or.inl hn.symm
    · exact Or.inr ⟨before, hbefore, hn⟩
  · rintro (hn | ⟨before, hbefore, hn⟩)
    · exact ⟨_, Or.inl rfl, hn.symm⟩
    · exact ⟨before, Or.inr hbefore, hn⟩

/-- A step of a client that keeps the contract is a step with a key of some length. -/
theorem keyed_of_step {start : HashT β → Prop} {label : HashCall β × HashRet β}
    (taken : (hashSystem β).step t label t') : (keyedSystem start).step t label t' := by
  obtain ⟨call, answer⟩ := label
  obtain ⟨hcontract, hrun⟩ := taken
  refine ⟨?_, hrun⟩
  cases call with
  | push key v mem => exact ⟨hcontract.1.1, hcontract.2⟩
  | pop key => exact hcontract.1
  | count | foreach callback => exact trivial

theorem created_of_init (h : (hashSystem β).init t) : Created t := by
  obtain ⟨size, hashFunc, -, hcreate⟩ := h
  exact ⟨size, hashFunc, hcreate⟩

/-- A table owns exactly as many entries as keys were stored in it at one time at most:
insertions use up the removed entries before they ask for new ones. -/
theorem allocated_eq_peak (run : RunBelow history t) :
    IsGreatest (levels history) (allocated t).ncard := by
  have hinv : ∃ chain recycled, Stocked t chain recycled ∧
      IsGreatest (levels history) (stock t recycled) := by
    apply run.invariant (I := fun history t => ∃ chain recycled, Stocked t chain recycled ∧
      IsGreatest (levels history) (stock t recycled))
    · intro t hinit
      have hcreated := created_of_init hinit
      have hempty : keyCount (stored ([] : List (HashCall β × HashRet β))) = 0 := by
        simp [keyCount]
      refine ⟨_, _, Stocked.of_created hcreated, ?_⟩
      rw [stock_of_created hcreated]
      refine ⟨⟨[], List.prefix_rfl, hempty⟩, ?_⟩
      rintro n ⟨before, hbefore, rfl⟩
      rw [List.prefix_nil.mp hbefore, hempty]
    · rintro history t label t' prior ⟨chain, recycled, hstocked, hpeak⟩ allowed taken
      have hkeyed : (keyedSystem Created).step t label t' := keyed_of_step taken
      obtain ⟨chain', recycled', hstocked', -, hstock⟩ := hstocked.step hkeyed
      obtain ⟨_, _, hmaps⟩ := Run.maps (prior.extend allowed taken)
      refine ⟨chain', recycled', hstocked', ?_⟩
      rw [levels_concat, hmaps.keyCount_eq, hstock]
      exact hpeak.insert _
  obtain ⟨chain, recycled, hstocked, hpeak⟩ := hinv
  rwa [hstocked.ncard_allocated]

/-- A table of three keys owns as many entries as it held at its fullest. -/
theorem allocated_eq_peak_of_three_keys :
    ∃ (history : List (HashCall ℕ × HashRet ℕ)) (t : HashT ℕ), RunBelow history t ∧
      stored history (numberKey 2) ≠ none ∧ IsGreatest (levels history) (allocated t).ncard := by
  obtain ⟨history, t, run, hkeys⟩ := exists_run_of_numberKeys (show 3 < 2 ^ 31 by decide)
  exact ⟨history, t, run, (hkeys _).mpr ⟨2, by decide, rfl⟩, allocated_eq_peak run⟩

/-! ## Destruction -/

variable {entry entry' : EntryPtr → Option (HashEntry β)} {start : Option EntryPtr}

/-- Exactly these entries were given back. -/
structure Frees (S : Set EntryPtr) (entry entry' : EntryPtr → Option (HashEntry β)) : Prop where
  freed : ∀ p ∈ S, entry' p = none
  kept : ∀ p, p ∉ S → entry' p = entry p

theorem Frees.trans {S S' : Set EntryPtr} {entry'' : EntryPtr → Option (HashEntry β)}
    (h : Frees S entry entry') (h' : Frees S' entry' entry'') : Frees (S ∪ S') entry entry'' := by
  refine ⟨fun p hp => ?_, fun p hp => ?_⟩
  · by_cases hS' : p ∈ S'
    · exact h'.freed p hS'
    · rw [h'.kept p hS']
      exact h.freed p (hp.resolve_right hS')
  · obtain ⟨hS, hS'⟩ := not_or.mp hp
    rw [h'.kept p hS', h.kept p hS]

theorem Frees.nextOf_eq {S : Set EntryPtr} (h : Frees S entry entry') (hp : p ∉ S) :
    nextOf entry' p = nextOf entry p := by
  rw [nextOf, nextOf, h.kept p hp]

/-- The walk along a chain gives back its entries. -/
theorem destroyChain_frees (path : Path (nextOf entry) start cells none) (nodup : cells.Nodup)
    (live : ∀ p ∈ cells, entry p ≠ none) (hfuel : cells.length ≤ fuel) :
    ∃ entry', destroyChain fuel entry start = some entry' ∧ Frees {p | p ∈ cells} entry entry' := by
  induction cells generalizing entry start fuel with
  | nil =>
      obtain rfl := path
      refine ⟨entry, by rw [destroyChain], fun p hp => absurd hp List.not_mem_nil, fun _ _ => rfl⟩
  | cons p cells ih =>
      obtain ⟨rfl, hrest⟩ := path
      obtain ⟨hp, hnodup⟩ := List.nodup_cons.mp nodup
      obtain ⟨e, he⟩ := Option.ne_none_iff_exists'.mp (live p List.mem_cons_self)
      obtain _ | fuel := fuel
      · simp at hfuel
      have hother : ∀ q ∈ cells, Function.update entry p none q = entry q :=
        fun q hq => Function.update_of_ne (ne_of_mem_of_not_mem hq hp) _ _
      have hnext : nextOf entry p = e.next := by simp [nextOf, he]
      rw [hnext] at hrest
      have hpath : Path (nextOf (Function.update entry p none)) e.next cells none :=
        hrest.congr fun q hq => by rw [nextOf, nextOf, hother q hq]
      obtain ⟨entry', hloop, hfrees⟩ := ih hpath hnodup
        (fun q hq => by rw [hother q hq]; exact live q (List.mem_cons_of_mem p hq))
        (Nat.le_of_succ_le_succ hfuel)
      refine ⟨entry', ?_, fun q hq => ?_, fun q hq => ?_⟩
      · simp only [destroyChain, he, Option.bind_eq_bind, Option.bind_some]
        exact hloop
      · by_cases hin : q ∈ cells
        · exact hfrees.freed q hin
        · obtain rfl := (List.mem_cons.mp hq).resolve_right hin
          rw [hfrees.kept q hin, Function.update_self]
      · obtain ⟨hne, hin⟩ := not_or.mp (mt List.mem_cons.mpr hq)
        rw [hfrees.kept q hin, Function.update_of_ne hne]

/-- The outer loop gives back the entries of the first buckets. -/
theorem destroyBuckets_frees (h : Chained t chain recycled) (hn : n ≤ t.slots)
    (hfuel : ∀ i, (chain i).length ≤ fuel) :
    ∃ entry, t.destroyBuckets fuel n = some entry ∧
      Frees {p | ∃ i < n, p ∈ chain i} t.entry entry := by
  induction n with
  | zero =>
      refine ⟨t.entry, rfl, ?_, fun _ _ => rfl⟩
      rintro p ⟨i, hi, -⟩
      exact absurd hi (Nat.not_lt_zero i)
  | succ n ih =>
      obtain ⟨entry, hloop, hfrees⟩ := ih (Nat.le_of_succ_le hn)
      have hlive : ∀ p ∈ chain n, p ∉ {p | ∃ i < n, p ∈ chain i} := by
        rintro p hp ⟨i, hi, hpi⟩
        exact absurd (h.bucket_unique hpi hp) hi.ne
      obtain ⟨entry', hchain, hfrees'⟩ := destroyChain_frees
        ((h.bucket n hn).congr fun p hp => hfrees.nextOf_eq (hlive p hp)) (h.nodup n)
        (fun p hp => by
          rw [hfrees.kept p (hlive p hp)]
          exact Option.isSome_iff_ne_none.mp (h.isSome_entry hp)) (hfuel n)
      refine ⟨entry', ?_, ?_⟩
      · simp only [destroyBuckets, hloop, Option.bind_eq_bind, Option.bind_some]
        rw [if_pos (Nat.lt_of_succ_le hn)]
        exact hchain
      · have hset : {p | ∃ i < n + 1, p ∈ chain i} =
            {p | ∃ i < n, p ∈ chain i} ∪ {p | p ∈ chain n} := by
          ext p
          simp only [Set.mem_ofPred_eq, Set.mem_union, Nat.lt_succ_iff_lt_or_eq, or_and_right,
            exists_or, exists_eq_left]
        rw [hset]
        exact hfrees.trans hfrees'

/-- `hash_destroy` gives back every entry of a stocked table. -/
theorem Stocked.hashDestroy_eq (h : Stocked t chain recycled)
    (hfuel : (allocated t).ncard ≤ fuel) :
    hashDestroy fuel (some t) = some (.ok, fun _ => none) := by
  rw [h.ncard_allocated, stock] at hfuel
  have hchained := h.filed.chained
  have hlong : ∀ i, (chain i).length ≤ fuel := fun i => (hchained.length_le i).trans (by omega)
  have hidle : recycled.length ≤ fuel := by omega
  obtain ⟨entry, hloop, hfrees⟩ := destroyBuckets_frees hchained hchained.slots.ge hlong
  have hlive : ∀ p ∈ recycled, p ∉ {p | ∃ i < t.max.toNat + 1, p ∈ chain i} := by
    rintro p hp ⟨i, -, hi⟩
    exact hchained.notMem_of_recycled hp hi
  obtain ⟨entry', hchain, hfrees'⟩ := destroyChain_frees
    (hchained.freeList.congr fun p hp => hfrees.nextOf_eq (hlive p hp)) hchained.recycledNodup
    (fun p hp => by
      obtain ⟨d, hd, -⟩ := hchained.idle p hp
      obtain ⟨e, he, -⟩ := exists_entry_of_dataOf hd
      rw [hfrees.kept p (hlive p hp), he]
      exact Option.some_ne_none e) hidle
  have hall := hfrees.trans hfrees'
  have hnone : entry' = fun _ => none := by
    funext p
    by_cases hp : p ∈ allocated t
    · refine hall.freed p ((h.mem_allocated_iff.mp hp).imp ?_ id)
      rintro ⟨i, hi⟩
      exact ⟨i, hchained.slots ▸ hchained.lt_slots hi, hi⟩
    · have hout : p ∉ {p | ∃ i < t.max.toNat + 1, p ∈ chain i} ∪ {p | p ∈ recycled} := by
        refine fun hmem => hp (h.mem_allocated_iff.mpr (hmem.imp ?_ id))
        rintro ⟨i, -, hi⟩
        exact ⟨i, hi⟩
      rw [hall.kept p hout]
      exact not_not.mp hp
  simp only [hashDestroy, hloop, hchain, hnone, Option.bind_eq_bind, Option.bind_some]

/-- After any calls with keys of any length `hash_destroy` gives back every entry that the
table got from the allocator, each of them once. -/
theorem hashDestroy_frees (run : (keyedSystem Created).Trace history t)
    (hfuel : (allocated t).ncard ≤ fuel) :
    hashDestroy fuel (some t) = some (.ok, fun _ => none) := by
  obtain ⟨chain, recycled, hstocked⟩ := Run.stocked run
  exact hstocked.hashDestroy_eq hfuel

/-- A run with keys of at most 30 bytes is a run with keys of some length. -/
theorem Run.keyed (run : RunBelow history t) : (keyedSystem Created).Trace history t := by
  induction run with
  | start hinit => exact .start (created_of_init hinit)
  | extend _ _ taken ih => exact ih.extend trivial (keyed_of_step taken)

/-- A table of three keys is given back as a whole. -/
theorem hashDestroy_frees_of_three_keys :
    ∃ (history : List (HashCall ℕ × HashRet ℕ)) (t : HashT ℕ),
      (keyedSystem Created).Trace history t ∧ stored history (numberKey 2) ≠ none ∧
        hashDestroy (allocated t).ncard (some t) = some (.ok, fun _ => none) := by
  obtain ⟨history, t, run, hkeys⟩ := exists_run_of_numberKeys (show 3 < 2 ^ 31 by decide)
  exact ⟨history, t, Run.keyed run, (hkeys _).mpr ⟨2, by decide, rfl⟩,
    hashDestroy_frees (Run.keyed run) le_rfl⟩

end BliveQueue.Hash
