/-
# Insertion, removal and replacement

What the operations do to the chains of a well-formed table: an insertion appends one
entry to its bucket, taken from the free list when that is not empty; a removal takes
one entry out and puts it in front of the free list; a replacement keeps the chains.
-/

import Mathlib.Algebra.Order.Group.Nat
import BliveQueue.Hash.Chains

namespace BliveQueue.Hash

open BliveQueue.Math.LinkedChain BliveQueue.Utils.Hash BliveQueue.Utils.Hash.HashT

variable {β : Type} {t t' : HashT β} {chain : ℕ → List EntryPtr}
variable {recycled recycled' : List EntryPtr} {pre post : List EntryPtr} {i : ℕ} {p q : EntryPtr}
variable {key : CString} {d : EntryData β} {e : HashEntry β}

/-- The other fields of the table. -/
structure SameShape (t t' : HashT β) : Prop where
  slots : t'.slots = t.slots
  max : t'.max = t.max
  hashFunc : t'.hashFunc = t.hashFunc

/-! ## What redirecting one link does to the chains -/

/-- An entry leaves its bucket for the free list. -/
theorem Chained.remove (h : Chained t chain recycled) (same : SameShape t t')
    (hcut : chain i = pre ++ p :: post) (hd : dataOf t.entry p = some d)
    (harray : t'.array =
      Function.update t.array i (redirectStart (t.array i) pre (nextOf t.entry p)))
    (hnext : nextOf t'.entry =
      Function.update (redirectNext (nextOf t.entry) pre (nextOf t.entry p)) p t.free)
    (hdata : dataOf t'.entry = Function.update (dataOf t.entry) p (some { d with value := none }))
    (hfree : t'.free = some p) (hcount : t'.count.toNat + 1 = t.count.toNat) :
    Chained t' (Function.update chain i ((chain i).erase p)) (p :: recycled) := by
  have hp : p ∈ chain i := by simp [hcut]
  have hpre : ∀ q ∈ pre, q ∈ chain i := fun q hq => by simp [hcut, hq]
  have hprec : p ∉ recycled := fun hmem => h.notMem_of_recycled hmem hp
  have hcutNodup : (pre ++ post).Nodup := h.erase_cut hcut ▸ (h.nodup i).erase p
  have hpout : p ∉ pre ++ post := h.erase_cut hcut ▸ (h.nodup i).not_mem_erase
  -- a chain without the entries whose link changes
  have hother : ∀ {start : Option EntryPtr} {cells : List EntryPtr},
      Path (nextOf t.entry) start cells none → (∀ q ∈ cells, q ∉ pre) → p ∉ cells →
        Path (nextOf t'.entry) start cells none := by
    intro start cells hpath hout hpcells
    rw [hnext]
    exact (hpath.redirect_other hout _).update hpcells _
  refine ⟨?_, fun j hj => ?_, fun j hj => ?_, ?_, fun j => ?_, ?_, fun j q hq => ?_,
    fun q hq => ?_, ?_⟩
  · rw [same.slots, same.max]
    exact h.slots
  · rw [same.slots] at hj
    rw [harray]
    rcases eq_or_ne j i with rfl | hji
    · have hpath := h.bucket j hj
      rw [hcut, path_append] at hpath
      obtain ⟨mid, hfirst, -, hrest⟩ := hpath
      rw [Function.update_self, Function.update_self, h.erase_cut hcut]
      refine path_append.mpr ⟨nextOf t.entry p, ?_, hother hrest ?_ ?_⟩
      · rw [hnext]
        exact (hfirst.redirect (List.Nodup.of_append_left hcutNodup) _).update
          (fun hmem => hpout (List.mem_append_left _ hmem)) _
      · exact fun q hq hq' => List.disjoint_of_nodup_append hcutNodup hq' hq
      · exact fun hmem => hpout (List.mem_append_right _ hmem)
    · rw [Function.update_of_ne hji, Function.update_of_ne hji]
      exact hother (h.bucket j hj) (fun q hq hq' => hji (h.bucket_unique hq (hpre q hq')))
        fun hmem => hji (h.bucket_unique hmem hp)
  · rw [same.slots] at hj
    have hi := h.lt_slots hp
    rw [Function.update_of_ne (by omega)]
    exact h.beyond j hj
  · rw [hfree, path_cons, hnext, Function.update_self, ← hnext]
    exact ⟨rfl, hother h.freeList (fun q hq hq' => h.notMem_of_recycled hq (hpre q hq')) hprec⟩
  · rcases eq_or_ne j i with rfl | hji
    · rw [Function.update_self]
      exact (h.nodup j).erase p
    · rw [Function.update_of_ne hji]
      exact h.nodup j
  · exact List.nodup_cons.mpr ⟨hprec, h.recycledNodup⟩
  · obtain ⟨hold, hne⟩ := (h.mem_update_erase hp).mp hq
    rw [hdata, Function.update_of_ne hne, same.max]
    exact h.stored j q hold
  · rw [hdata]
    rcases List.mem_cons.mp hq with rfl | hold
    · exact ⟨_, Function.update_self _ _ _, rfl⟩
    · rw [Function.update_of_ne (ne_of_mem_of_not_mem hold hprec)]
      exact h.idle q hold
  · obtain ⟨live, hlive, hcard⟩ := h.count
    have hplive : p ∈ live := (hlive p).mpr ⟨i, hp⟩
    refine ⟨live.erase p, fun q => ?_, ?_⟩
    · simp only [Finset.mem_erase, hlive, h.mem_update_erase hp, exists_and_right]
      exact and_comm
    · rw [Finset.card_erase_of_mem hplive]
      omega

/-- A new entry at the end of its bucket. -/
theorem Chained.insert (h : Chained t chain recycled) (same : SameShape t t')
    (hi : i < t.slots) (fresh : ∀ j, p ∉ chain j) (hvalue : d.value.isSome = true)
    (hbucket : bucketIndex d.hash t.max = i)
    (harray : t'.array =
      Function.update t.array i (redirectStart (t.array i) (chain i) (some p)))
    (hnext : nextOf t'.entry =
      redirectNext (Function.update (nextOf t.entry) p none) (chain i) (some p))
    (hdata : dataOf t'.entry = Function.update (dataOf t.entry) p (some d))
    (hfree : Path (nextOf t.entry) t'.free recycled' none)
    (hrecycled : ∀ q ∈ recycled', q ∈ recycled ∧ q ≠ p) (hnodup : recycled'.Nodup)
    (hcount : t'.count.toNat = t.count.toNat + 1) :
    Chained t' (Function.update chain i (chain i ++ [p])) recycled' := by
  -- a chain without the entries whose link changes
  have hother : ∀ {start : Option EntryPtr} {cells : List EntryPtr},
      Path (nextOf t.entry) start cells none → (∀ q ∈ cells, q ∉ chain i) → p ∉ cells →
        Path (nextOf t'.entry) start cells none := by
    intro start cells hpath hout hpcells
    rw [hnext]
    exact (hpath.update hpcells _).redirect_other hout _
  refine ⟨?_, fun j hj => ?_, fun j hj => ?_, ?_, fun j => ?_, hnodup, fun j q hq => ?_,
    fun q hq => ?_, ?_⟩
  · rw [same.slots, same.max]
    exact h.slots
  · rw [same.slots] at hj
    rw [harray]
    rcases eq_or_ne j i with rfl | hji
    · rw [Function.update_self, Function.update_self, hnext]
      refine path_append.mpr ⟨some p, ?_, ?_⟩
      · exact ((h.bucket j hj).update (fresh j) none).redirect (h.nodup j) (some p)
      · have hlast : Path (Function.update (nextOf t.entry) p none) (some p) [p] none :=
          ⟨rfl, Function.update_self _ _ _⟩
        refine hlast.redirect_other (fun q hq => ?_) (some p)
        rw [List.mem_singleton.mp hq]
        exact fresh j
    · rw [Function.update_of_ne hji, Function.update_of_ne hji]
      exact hother (h.bucket j hj) (fun q hq hq' => hji (h.bucket_unique hq hq')) (fresh j)
  · rw [same.slots] at hj
    rw [Function.update_of_ne (by omega)]
    exact h.beyond j hj
  · exact hother hfree (fun q hq => h.notMem_of_recycled (hrecycled q hq).1)
      fun hmem => (hrecycled p hmem).2 rfl
  · rcases eq_or_ne j i with rfl | hji
    · rw [Function.update_self]
      exact List.nodup_append.mpr ⟨h.nodup j, List.nodup_singleton p,
        fun q hq r hr heq => fresh j (by rwa [← List.mem_singleton.mp hr, ← heq])⟩
    · rw [Function.update_of_ne hji]
      exact h.nodup j
  · rw [hdata, same.max]
    rcases mem_update_concat.mp hq with hold | ⟨rfl, rfl⟩
    · rw [Function.update_of_ne (ne_of_mem_of_not_mem hold (fresh j))]
      exact h.stored j q hold
    · exact ⟨d, Function.update_self _ _ _, hvalue, hbucket⟩
  · obtain ⟨hold, hne⟩ := hrecycled q hq
    rw [hdata, Function.update_of_ne hne]
    exact h.idle q hold
  · obtain ⟨live, hlive, hcard⟩ := h.count
    have hplive : p ∉ live := fun hmem => (hlive p).mp hmem |>.elim fresh
    refine ⟨live.cons p hplive, fun q => ?_, ?_⟩
    · simp only [Finset.mem_cons, hlive, mem_update_concat, exists_or, exists_eq_left]
      exact or_comm
    · rw [Finset.card_cons, hcount, hcard]

/-- A new value for a stored entry. -/
theorem Chained.replace (h : Chained t chain recycled) (hp : p ∈ chain i)
    (he : t.entry p = some e) (v : β) :
    Chained (t.setEntry p { e with value := some v }) chain recycled := by
  have hnext : nextOf (t.setEntry p { e with value := some v }).entry = nextOf t.entry := by
    rw [setEntry, nextOf_update]
    exact Function.update_eq_self_iff.mpr (by simp [nextOf, he])
  have hdata : dataOf (t.setEntry p { e with value := some v }).entry =
      Function.update (dataOf t.entry) p (some ⟨e.hash, e.key, some v⟩) :=
    dataOf_update _ _ _
  refine ⟨h.slots, fun j hj => ?_, h.beyond, ?_, h.nodup, h.recycledNodup, fun j q hq => ?_,
    fun q hq => ?_, h.count⟩
  · rw [hnext]
    exact h.bucket j hj
  · rw [hnext]
    exact h.freeList
  · rw [hdata]
    rcases eq_or_ne q p with rfl | hne
    · obtain ⟨d, hd, -, hbucket⟩ := h.stored j q hq
      obtain ⟨_, he', rfl, -⟩ := exists_entry_of_dataOf hd
      obtain rfl := Option.some.inj (he.symm.trans he')
      exact ⟨_, Function.update_self _ _ _, rfl, hbucket⟩
    · rw [Function.update_of_ne hne]
      exact h.stored j q hq
  · have hne : q ≠ p := fun heq => h.notMem_of_recycled hq (heq ▸ hp)
    rw [hdata, Function.update_of_ne hne]
    exact h.idle q hq

/-! ## Removal -/

/-- What a removal returns and does to the chains. -/
inductive Pops (t : HashT β) (chain : ℕ → List EntryPtr) (key : CString) :
    Option β → HashT β → (ℕ → List EntryPtr) → Prop
  | absent (missing : ∀ q ∈ chain (bucketOf t key), ¬ Matches t key q) :
      Pops t chain key none t chain
  | removed {t' : HashT β} {p : EntryPtr} {d : EntryData β}
      (stored : p ∈ chain (bucketOf t key)) (hit : Matches t key p)
      (held : dataOf t.entry p = some d) (same : SameShape t t')
      (count : t'.count.toNat + 1 = t.count.toNat)
      (data : dataOf t'.entry =
        Function.update (dataOf t.entry) p (some { d with value := none })) :
      Pops t chain key d.value t'
        (Function.update chain (bucketOf t key) ((chain (bucketOf t key)).erase p))

theorem Chained.toNat_count_sub_one (h : Chained t chain recycled) (hp : p ∈ chain i) :
    (t.count - 1).toNat + 1 = t.count.toNat := by
  have hpos : 1 ≤ t.count.toNat := (List.length_pos_of_mem hp).trans_le (h.length_le i)
  have hle : (1 : UInt32) ≤ t.count := UInt32.le_iff_toNat_le.mpr hpos
  rw [UInt32.toNat_sub_of_le _ _ hle]
  exact Nat.sub_add_cancel hpos

/-- A removal takes out the entry that the lookup finds. -/
theorem Chained.hashPop_of_found (h : Chained t chain recycled)
    (hcut : chain (bucketOf t key) = pre ++ p :: post) (hit : Matches t key p)
    (hfind : t.find key = some (linkAfter (bucketOf t key) pre, true))
    (he : t.entry p = some e) :
    ∃ t', t.hashPop key = some (e.value, t') ∧
      Pops t chain key e.value t'
        (Function.update chain (bucketOf t key) ((chain (bucketOf t key)).erase p)) ∧
      Chained t' (Function.update chain (bucketOf t key) ((chain (bucketOf t key)).erase p))
        (p :: recycled) ∧ t'.count.toNat + 1 = t.count.toNat := by
  have hi := h.bucketOf_lt key
  have hp : p ∈ chain (bucketOf t key) := by simp [hcut]
  have hpre : ∀ q ∈ pre, (t.entry q).isSome = true :=
    fun q hq => h.isSome_entry (i := bucketOf t key) (by simp [hcut, hq])
  have hd : dataOf t.entry p = some (HashEntry.data e) := by simp [dataOf, he]
  have hnextp : nextOf t.entry p = e.next := by simp [nextOf, he]
  have hread := h.readLink_cut hcut
  obtain ⟨array, entry, hwrite, harray, hnext, hdata⟩ :=
    writeLink_linkAfter hi hpre e.next
  let t' : HashT β :=
    { t with
      array := array
      entry := Function.update entry p (some { e with next := t.free, value := none })
      free := some p
      count := t.count - 1 }
  have hpop : t.hashPop key = some (e.value, t') := by
    simp only [HashT.hashPop, hfind, hread, he, hwrite, Option.bind_eq_bind, Option.bind_some]
    rfl
  have hcount : t'.count.toNat + 1 = t.count.toNat := h.toNat_count_sub_one hp
  have hdata' : dataOf t'.entry =
      Function.update (dataOf t.entry) p (some ⟨e.hash, e.key, none⟩) := by
    rw [← hdata]
    exact dataOf_update entry p _
  refine ⟨t', hpop, .removed hp hit hd ⟨rfl, rfl, rfl⟩ hcount hdata',
    h.remove ⟨rfl, rfl, rfl⟩ hcut hd ?_ ?_ hdata' rfl hcount, hcount⟩
  · rw [hnextp]
    exact harray
  · rw [hnextp, ← hnext]
    exact nextOf_update entry p _

/-- A removal of a missing key changes nothing. -/
theorem Chained.hashPop_of_missing (h : Chained t chain recycled)
    (hfind : t.find key = some (linkAfter (bucketOf t key) (chain (bucketOf t key)), false)) :
    t.hashPop key = some (none, t) := by
  have hread := h.readLink_end (h.bucketOf_lt key)
  simp only [HashT.hashPop, hfind, hread, Option.bind_eq_bind, Option.bind_some]

/-- A removal always returns. -/
theorem Chained.hashPop (h : Chained t chain recycled) (key : CString) :
    ∃ ret t' chain' recycled', t.hashPop key = some (ret, t') ∧ Pops t chain key ret t' chain' ∧
      Chained t' chain' recycled' := by
  rcases h.find_eq key with ⟨pre, p, post, hcut, hit, -, hfind⟩ | ⟨missing, hfind⟩
  · have hp : p ∈ chain (bucketOf t key) := by simp [hcut]
    obtain ⟨e, he⟩ := Option.isSome_iff_exists.mp (h.isSome_entry hp)
    obtain ⟨t', hpop, hpops, hchained, -⟩ := h.hashPop_of_found hcut hit hfind he
    exact ⟨e.value, t', _, p :: recycled, hpop, hpops, hchained⟩
  · exact ⟨none, t, chain, recycled, h.hashPop_of_missing hfind, .absent missing, h⟩

/-! ## Insertion and replacement -/

/-- What a push returns and does to the chains before the table grows. -/
inductive Pushes (t : HashT β) (chain : ℕ → List EntryPtr) (key : CString) (v : β) :
    Option β → HashT β → (ℕ → List EntryPtr) → Prop
  | replaced {t' : HashT β} {p : EntryPtr} {d : EntryData β}
      (stored : p ∈ chain (bucketOf t key)) (hit : Matches t key p)
      (held : dataOf t.entry p = some d) (same : SameShape t t') (count : t'.count = t.count)
      (data : dataOf t'.entry =
        Function.update (dataOf t.entry) p (some { d with value := some v })) :
      Pushes t chain key v d.value t' chain
  | inserted {t' : HashT β} {p : EntryPtr}
      (missing : ∀ q ∈ chain (bucketOf t key), ¬ Matches t key q) (fresh : ∀ j, p ∉ chain j)
      (same : SameShape t t') (count : t'.count = t.count + 1)
      (data : dataOf t'.entry = Function.update (dataOf t.entry) p
        (some ⟨t.hashFunc key, storedKey key, some v⟩)) :
      Pushes t chain key v none t'
        (Function.update chain (bucketOf t key) (chain (bucketOf t key) ++ [p]))

/-- The entry that an insertion uses, and what is left of the free list: the first entry of
the list, or a block of the allocator once the list is empty. -/
inductive Takes (mem : Option EntryPtr) :
    List EntryPtr → EntryPtr → List EntryPtr → Prop
  | reused (p : EntryPtr) (rest : List EntryPtr) : Takes mem (p :: rest) p rest
  | allocated {p : EntryPtr} (given : mem = some p) : Takes mem [] p []

/-- A new entry stands in no bucket and holds no value. -/
theorem Chained.takeEntry (h : Chained t chain recycled) {mem : Option EntryPtr}
    (hmem : ∀ q, mem = some q → t.entry q = none) {value : Option β} {t₁ : HashT β}
    (htake : t.takeEntry mem = some (p, value, t₁)) :
    value = none ∧ (∀ j, p ∉ chain j) ∧ ∃ recycled', t₁ = { t with free := t₁.free } ∧
      Path (nextOf t.entry) t₁.free recycled' none ∧ recycled'.Nodup ∧
        (∀ q ∈ recycled', q ∈ recycled ∧ q ≠ p) ∧ Takes mem recycled p recycled' := by
  have hpath := h.freeList
  have hnodup := h.recycledNodup
  have hidle := h.idle
  have hout := fun q (hq : q ∈ recycled) j => h.notMem_of_recycled (i := j) hq
  unfold HashT.takeEntry at htake
  split at htake
  next q hfree =>
    rw [hfree] at hpath
    cases recycled with
    | nil => exact absurd hpath nofun
    | cons r recycled' =>
        obtain ⟨hqr, hrest⟩ := hpath
        obtain rfl := Option.some.inj hqr
        obtain ⟨d, hd, hnone⟩ := hidle q List.mem_cons_self
        obtain ⟨e, he, rfl, hnext⟩ := exists_entry_of_dataOf hd
        rw [he] at htake
        obtain ⟨rfl, rfl, rfl⟩ := by simpa using htake
        obtain ⟨hq, hrestNodup⟩ := List.nodup_cons.mp hnodup
        refine ⟨hnone, hout q List.mem_cons_self, recycled', rfl, ?_, hrestNodup, fun r hr => ?_,
          .reused q recycled'⟩
        · rwa [hnext] at hrest
        · exact ⟨List.mem_cons_of_mem q hr, ne_of_mem_of_not_mem hr hq⟩
  next hfree =>
    obtain ⟨q, hq, hqp⟩ := Option.map_eq_some_iff.mp htake
    obtain ⟨rfl, rfl, rfl⟩ := by simpa using hqp
    have hnone := hmem q hq
    have hempty : recycled = [] := by
      rw [hfree] at hpath
      cases recycled with
      | nil => rfl
      | cons r rest => exact absurd hpath.1 nofun
    refine ⟨rfl, fun j hj => ?_, recycled, rfl, hpath, hnodup, fun r hr => ⟨hr, ?_⟩, ?_⟩
    · have hsome := h.isSome_entry hj
      simp [hnone] at hsome
    · rintro rfl
      obtain ⟨d, hd, -⟩ := hidle r hr
      simp [dataOf, hnone] at hd
    · rw [hempty]
      exact .allocated hq

/-- The end of a push: the table grows when it holds more entries than `max`. -/
def grown (arrayMem : Bool) (ret : Option β) (t : HashT β) : Option (Option β × HashT β) :=
  if t.count > t.max then (t.expandArray arrayMem).map fun t => (ret, t) else some (ret, t)

theorem grown_of_le {arrayMem : Bool} {ret : Option β} (h : t.count.toNat ≤ t.max.toNat) :
    grown arrayMem ret t = some (ret, t) := by
  have hnot : ¬ t.count > t.max := by
    rw [gt_iff_lt, UInt32.lt_iff_toNat_lt]
    exact not_lt.mpr h
  rw [grown, if_neg hnot]

theorem grown_of_lt {arrayMem : Bool} {ret : Option β} (h : t.max.toNat < t.count.toNat) :
    grown arrayMem ret t = (t.expandArray arrayMem).map fun t => (ret, t) :=
  if_pos (UInt32.lt_iff_toNat_lt.mpr h)

/-- A push of a key that the lookup finds changes the value of its entry. -/
theorem Chained.hashPush_of_found (h : Chained t chain recycled) (v : β) (mem : Option EntryPtr)
    (arrayMem : Bool) (hcut : chain (bucketOf t key) = pre ++ p :: post)
    (hfind : t.find key = some (linkAfter (bucketOf t key) pre, true))
    (he : t.entry p = some e) :
    t.hashPush key v mem arrayMem =
      grown arrayMem e.value (t.setEntry p { e with value := some v }) := by
  have hread := h.readLink_cut hcut
  simp only [HashT.hashPush, findOrInsert, hfind, hread, he, Option.bind_eq_bind,
    Option.bind_some, if_true]
  rfl

theorem Chained.push_replace (h : Chained t chain recycled) (v : β) (mem : Option EntryPtr)
    (arrayMem : Bool) (hcut : chain (bucketOf t key) = pre ++ p :: post) (hit : Matches t key p)
    (hfind : t.find key = some (linkAfter (bucketOf t key) pre, true)) :
    ∃ ret t', t.hashPush key v mem arrayMem = grown arrayMem ret t' ∧
      Pushes t chain key v ret t' chain ∧ Chained t' chain recycled := by
  have hp : p ∈ chain (bucketOf t key) := by simp [hcut]
  obtain ⟨e, he⟩ := Option.isSome_iff_exists.mp (h.isSome_entry hp)
  refine ⟨e.value, t.setEntry p { e with value := some v },
    h.hashPush_of_found v mem arrayMem hcut hfind he,
    .replaced (d := HashEntry.data e) hp hit ?_ ⟨rfl, rfl, rfl⟩ rfl ?_, h.replace hp he v⟩
  · simp [dataOf, he]
  · exact dataOf_update _ _ _

/-- A push of a missing key files the entry that was taken for it. -/
theorem Chained.push_takes (h : Chained t chain recycled) (v : β) {mem : Option EntryPtr}
    (arrayMem : Bool) (hmem : ∀ q, mem = some q → t.entry q = none)
    (hcount : t.count.toNat + 1 < 2 ^ 32)
    (missing : ∀ q ∈ chain (bucketOf t key), ¬ Matches t key q)
    (hfind : t.find key = some (linkAfter (bucketOf t key) (chain (bucketOf t key)), false))
    {value : Option β} {t₁ : HashT β} (htake : t.takeEntry mem = some (p, value, t₁)) :
    ∃ t' recycled', t.hashPush key v mem arrayMem = grown arrayMem none t' ∧
      Pushes t chain key v none t'
        (Function.update chain (bucketOf t key) (chain (bucketOf t key) ++ [p])) ∧
      Chained t' (Function.update chain (bucketOf t key) (chain (bucketOf t key) ++ [p]))
        recycled' ∧
      Takes mem recycled p recycled' ∧
      dataOf t'.entry = Function.update (dataOf t.entry) p
        (some ⟨t.hashFunc key, storedKey key, some v⟩) := by
  have hi := h.bucketOf_lt key
  have hpath := h.bucket _ hi
  obtain ⟨rfl, fresh, recycled', ht₁, hfree, hnodup, hrecycled, htakes⟩ :=
    h.takeEntry hmem htake
  let e : HashEntry β := ⟨t.hashFunc key, storedKey key, none, none⟩
  let t₂ : HashT β := { t with free := t₁.free, entry := Function.update t.entry p (some e) }
  have hnext₂ : nextOf t₂.entry = Function.update (nextOf t.entry) p none :=
    nextOf_update t.entry p e
  have hlive : ∀ q ∈ chain (bucketOf t key), (t₂.entry q).isSome = true := by
    intro q hq
    have hne : q ≠ p := ne_of_mem_of_not_mem hq (fresh _)
    simpa [t₂, hne] using h.isSome_entry hq
  obtain ⟨array, entry, hwrite, harray, hnext, hdata⟩ :=
    writeLink_linkAfter (t := t₂) hi hlive (some p)
  -- the new entry after its link is written
  have hdatap : dataOf entry p = some (HashEntry.data e) := by
    rw [hdata, dataOf_update, Function.update_self]
  obtain ⟨e', he', he'data, hnextp⟩ := exists_entry_of_dataOf hdatap
  obtain ⟨hhash, hkey, hvalue⟩ := EntryData.mk.inj he'data
  have hwalk : Path (nextOf entry) (array (bucketOf t key)) (chain (bucketOf t key)) (some p) := by
    rw [hnext, hnext₂, harray, Function.update_self]
    exact (hpath.update (fresh _) none).redirect (h.nodup _) (some p)
  let t₃ : HashT β := { t₂ with array := array, entry := entry, count := t.count + 1 }
  have hread :
      t₃.readLink (linkAfter (bucketOf t key) (chain (bucketOf t key))) = some (some p) := by
    refine readLink_linkAfter (t := t₃) hi hwalk (fun q hq => ?_) rfl
    obtain ⟨d, hd, -⟩ := h.stored _ q hq
    have hne : q ≠ p := ne_of_mem_of_not_mem hq (fresh _)
    have hdq : dataOf entry q = some d := by
      rwa [hdata, dataOf_update, Function.update_of_ne hne]
    obtain ⟨eq, heq, -⟩ := exists_entry_of_dataOf hdq
    exact Option.isSome_iff_exists.mpr ⟨eq, heq⟩
  let t' : HashT β := t₃.setEntry p { e' with value := some v }
  have hnext' : nextOf t'.entry = nextOf entry := by
    change nextOf (Function.update entry p _) = _
    rw [nextOf_update]
    exact Function.update_eq_self_iff.mpr hnextp.symm
  have hdata' : dataOf t'.entry = Function.update (dataOf t.entry) p
      (some ⟨t.hashFunc key, storedKey key, some v⟩) := by
    change dataOf (Function.update entry p _) = _
    rw [dataOf_update, hdata, dataOf_update, Function.update_idem]
    simp [HashEntry.data, hhash, hkey, e]
  have hcount' : t'.count.toNat = t.count.toNat + 1 := by
    change (t.count + 1).toNat = _
    rw [UInt32.toNat_add]
    exact Nat.mod_eq_of_lt hcount
  refine ⟨t', recycled', ?_, .inserted missing fresh ⟨rfl, rfl, rfl⟩ rfl hdata',
    h.insert ⟨rfl, rfl, rfl⟩ hi fresh rfl rfl harray ?_ hdata' hfree hrecycled hnodup hcount',
    htakes, hdata'⟩
  · rw [ht₁] at htake
    simp only [HashT.hashPush, findOrInsert, hfind, htake, Option.bind_eq_bind, Option.bind_some,
      Bool.false_eq_true, if_false]
    change (((t₂.writeLink (linkAfter (bucketOf t key) (chain (bucketOf t key))) (some p)).bind
      _).bind _) = _
    simp only [hwrite, Option.bind_some]
    change (t₃.readLink (linkAfter (bucketOf t key) (chain (bucketOf t key)))).bind _ = _
    simp only [hread, he', Option.bind_some, hvalue]
    rfl
  · rw [hnext', hnext, hnext₂]

theorem Chained.push_insert (h : Chained t chain recycled) (v : β) {mem : Option EntryPtr}
    (arrayMem : Bool) (hmem : ∀ q, mem = some q → t.entry q = none)
    (hcount : t.count.toNat + 1 < 2 ^ 32)
    (missing : ∀ q ∈ chain (bucketOf t key), ¬ Matches t key q)
    (hfind : t.find key = some (linkAfter (bucketOf t key) (chain (bucketOf t key)), false))
    {value : Option β} {t₁ : HashT β} (htake : t.takeEntry mem = some (p, value, t₁)) :
    ∃ t' chain' recycled', t.hashPush key v mem arrayMem = grown arrayMem none t' ∧
      Pushes t chain key v none t' chain' ∧ Chained t' chain' recycled' := by
  obtain ⟨t', recycled', hpush, hpushes, hchained, -⟩ :=
    h.push_takes v arrayMem hmem hcount missing hfind htake
  exact ⟨t', _, recycled', hpush, hpushes, hchained⟩

/-- A push that returns. -/
theorem Chained.hashPush (h : Chained t chain recycled) {v : β} {mem : Option EntryPtr}
    {arrayMem : Bool} (hmem : ∀ q, mem = some q → t.entry q = none)
    (hcount : t.count.toNat + 1 < 2 ^ 32) {r : Option β × HashT β}
    (hpush : t.hashPush key v mem arrayMem = some r) :
    ∃ ret t' chain' recycled', grown arrayMem ret t' = some r ∧
      Pushes t chain key v ret t' chain' ∧ Chained t' chain' recycled' := by
  rcases h.find_eq key with ⟨pre, p, post, hcut, hit, -, hfind⟩ | ⟨missing, hfind⟩
  · obtain ⟨ret, t', heq, hpushes, hchained⟩ :=
      h.push_replace v mem arrayMem hcut hit hfind
    exact ⟨ret, t', chain, recycled, heq ▸ hpush, hpushes, hchained⟩
  · cases htake : t.takeEntry mem with
    | none =>
        simp [HashT.hashPush, findOrInsert, hfind, htake] at hpush
    | some taken =>
        obtain ⟨p, value, t₁⟩ := taken
        obtain ⟨t', chain', recycled', heq, hpushes, hchained⟩ :=
          h.push_insert v arrayMem hmem hcount missing hfind htake
        exact ⟨none, t', chain', recycled', heq ▸ hpush, hpushes, hchained⟩

end BliveQueue.Hash
