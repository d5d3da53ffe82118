/-
# The table as a finite map

Forgetting buckets, free list and array, the table is a finite map from keys to values,
and the calls made so far determine it. Every operation answers by that map and changes
it as the call says, through any number of expansions and recycled entries, as long as
the table holds fewer than 2^31 entries. The expansion at that number asks for an array
of no slots at all.
-/

import Mathlib.Data.Nat.Digits.Lemmas
import BliveQueue.Hash.Contents
import BliveQueue.Hash.Creation

namespace BliveQueue.Hash

open BliveQueue.Math BliveQueue.Utils BliveQueue.Utils.Hash BliveQueue.Utils.Hash.HashT

variable {β : Type} {t t' : HashT β} {chain : ℕ → List EntryPtr} {recycled : List EntryPtr}
variable {m : CString → Option β} {key : CString}

/-! ## The map of a history -/

/-- What a call does to the map. -/
def mapAfter (m : CString → Option β) : HashCall β → CString → Option β
  | .push key value _ => Function.update m key (some value)
  | .pop key => Function.update m key none
  | .count | .foreach _ => m

/-- The map that the calls of a history leave. -/
def stored (history : List (HashCall β × HashRet β)) : CString → Option β :=
  history.foldl (fun m label => mapAfter m label.1) fun _ => none

@[simp] theorem stored_nil : stored ([] : List (HashCall β × HashRet β)) = fun _ => none := rfl

theorem stored_concat (history : List (HashCall β × HashRet β)) (call : HashCall β)
    (ret : HashRet β) : stored (history ++ [(call, ret)]) = mapAfter (stored history) call := by
  simp [stored]

/-- The answer of a finite map to a call. -/
def Answers (m : CString → Option β) : HashCall β → HashRet β → Prop
  | .push key _ _, .value old => old = m key
  | .pop key, .value old => old = m key
  | .count, .count n =>
    ∃ keys : Finset CString, (∀ key, key ∈ keys ↔ m key ≠ none) ∧ n = keys.card
  | .foreach callback, .given given =>
    ∃ pairs, Lists m pairs ∧ given = (feed callback [] pairs).1
  | _, _ => False

/-- Every call of the history is answered by the map of the calls before it. -/
def MapView (history : List (HashCall β × HashRet β)) : Prop :=
  ∀ before call ret after, history = before ++ (call, ret) :: after →
    Answers (stored before) call ret

/-! ## Creation -/

theorem exists_max_of_create {size : UInt32} {hashFunc : Option (CString → UInt32)}
    (hsize : size.toNat < 2 ^ 29) (hcreate : hashCreate size hashFunc = some t) :
    ∃ max : UInt32, (∃ k ≤ 30, max.toNat + 1 = 2 ^ k) ∧ t = newTable max hashFunc := by
  obtain ⟨max, k, hnew, -, hmask, hsmall⟩ := exists_newTable_of_create hcreate
  have hbound : needed size ≤ 2 ^ 30 := by
    rw [needed]
    omega
  exact ⟨max, ⟨k, hsmall hbound, hmask⟩, hnew⟩

/-- A new table holds the empty map. -/
theorem exists_maps_of_init (h : (hashSystem β).init t) :
    ∃ chain recycled, Maps t chain recycled fun _ => none := by
  obtain ⟨size, hashFunc, hsize, hcreate⟩ := h
  obtain ⟨max, ⟨k, hk, hmax⟩, rfl⟩ := exists_max_of_create hsize hcreate
  have hk' : k ≤ 31 := by omega
  refine ⟨fun _ => [], [], chained_newTable (allocSlots_of_pow hk' hmax), ?_, ?_, ?_,
    Nat.zero_le _, ⟨k, hk', hmax⟩, by simp [newTable, dataOf]⟩
  · rintro p ⟨i, hi⟩
    exact absurd hi List.not_mem_nil
  · intro key v
    refine iff_of_false (by simp) ?_
    rintro ⟨p, ⟨i, hi⟩, -⟩
    exact absurd hi List.not_mem_nil
  · rintro p q d d' ⟨i, hi⟩
    exact absurd hi List.not_mem_nil

/-! ## Calls and runs -/

/-- The table may take one more entry, if the call inserts one. -/
def BelowLimit (t : HashT β) : HashCall β → Prop
  | .push key _ _ =>
    (t.find key).map Prod.snd = some true ∨ t.count.toNat + 1 < 2 ^ 31
  | .pop _ | .count | .foreach _ => True

/-- A call below the limit returns, answers by the map and changes it. -/
theorem Maps.run (h : Maps t chain recycled m) {call : HashCall β} (hcontract : call.Contract t)
    (hbelow : BelowLimit t call) :
    ∃ ret t' chain' recycled', call.run t = some (ret, t') ∧ Answers m call ret ∧
      Maps t' chain' recycled' (mapAfter m call) := by
  cases call with
  | push key v mem =>
      obtain ⟨⟨-, hkey⟩, hmem⟩ := hcontract
      obtain ⟨t', chain', recycled', hpush, hmaps⟩ :=
        h.hashPush hkey v hmem (hbelow.imp_left h.find_iff.mp)
      exact ⟨.value (m key), t', chain', recycled', by rw [HashCall.run, hpush]; rfl, rfl, hmaps⟩
  | pop key =>
      obtain ⟨t', chain', recycled', hpop, hmaps⟩ := h.hashPop key
      exact ⟨.value (m key), t', chain', recycled', by rw [HashCall.run, hpop]; rfl, rfl, hmaps⟩
  | count =>
      obtain ⟨keys, hkeys, hcard⟩ := h.card_eq
      refine ⟨.count t.hashCount, t, chain, recycled, rfl, ⟨keys, hkeys, ?_⟩, h⟩
      rw [h.hashCount_eq, hcard]
  | foreach callback =>
      have hwalk := h.chained.hashForeach_eq callback
      refine ⟨.given _, t, chain, recycled, by rw [HashCall.run, hwalk]; rfl, ?_, h⟩
      exact ⟨_, h.lists, rfl⟩

/-- A call beyond the limit leaves the array. -/
theorem Maps.run_eq_none (h : Maps t chain recycled m) {call : HashCall β}
    (hcontract : call.Contract t) (hbeyond : ¬ BelowLimit t call) : call.run t = none := by
  cases call with
  | push key v mem =>
      obtain ⟨⟨-, hkey⟩, hmem⟩ := hcontract
      obtain ⟨hfind, hlimit⟩ := not_or.mp hbeyond
      have hnone : m key = none := not_not.mp fun hm => hfind (h.find_iff.mpr hm)
      rw [HashCall.run, h.hashPush_eq_none hkey v hmem hnone hlimit]
      rfl
  | pop key => exact absurd trivial hbeyond
  | count => exact absurd trivial hbeyond
  | foreach callback => exact absurd trivial hbeyond

/-- The runs in which no push inserts an entry beyond the limit. -/
abbrev RunBelow (history : List (HashCall β × HashRet β)) (t : HashT β) : Prop :=
  (hashSystem β).Run (fun t label => BelowLimit t label.1) history t

theorem Run.maps {history : List (HashCall β × HashRet β)} (run : RunBelow history t) :
    ∃ chain recycled, Maps t chain recycled (stored history) := by
  apply run.invariant
    (I := fun history t => ∃ chain recycled, Maps t chain recycled (stored history))
  · exact fun t hinit => exists_maps_of_init hinit
  · rintro history t ⟨call, ret⟩ t' - ⟨chain, recycled, hmaps⟩ hbelow ⟨hcontract, hrun⟩
    obtain ⟨ret', t'', chain', recycled', hrun', -, hmaps'⟩ := hmaps.run hcontract hbelow
    obtain ⟨rfl, rfl⟩ := Prod.mk.inj (Option.some.inj (hrun.symm.trans hrun'))
    rw [stored_concat]
    exact ⟨chain', recycled', hmaps'⟩

theorem Run.mapView {history : List (HashCall β × HashRet β)} (run : RunBelow history t) :
    MapView history := by
  rintro before call ret after rfl
  obtain ⟨t₀, t', hbefore, hbelow, hcontract, hrun⟩ := run.exists_step
  obtain ⟨chain, recycled, hmaps⟩ := Run.maps hbefore
  obtain ⟨ret', t'', chain', recycled', hrun', hanswers, -⟩ := hmaps.run hcontract hbelow
  obtain ⟨rfl, rfl⟩ := Prod.mk.inj (Option.some.inj (hrun.symm.trans hrun'))
  exact hanswers

/-- The table refines a finite map as long as no push inserts an entry while the table
already holds 2^31 - 1. The next call returns what the map says exactly when it does not
do that either. -/
theorem table_refines_map {history : List (HashCall β × HashRet β)} (run : RunBelow history t) :
    MapView history ∧ ∀ call : HashCall β, call.Contract t →
      ((∃ ret t', call.run t = some (ret, t') ∧ Answers (stored history) call ret) ↔
        BelowLimit t call) := by
  refine ⟨Run.mapView run, fun call hcontract => ?_⟩
  obtain ⟨chain, recycled, hmaps⟩ := Run.maps run
  constructor
  · rintro ⟨ret, t', hrun, -⟩
    by_contra hbeyond
    rw [hmaps.run_eq_none hcontract hbeyond] at hrun
    cases hrun
  · intro hbelow
    obtain ⟨ret, t', -, -, hrun, hanswers, -⟩ := hmaps.run hcontract hbelow
    exact ⟨ret, t', hrun, hanswers⟩

/-! ## Executions -/

/-- The key of a number: its digits to the base 255, none of them as the byte zero. -/
def numberKey (k : ℕ) : CString := (Nat.digits 255 k).map fun d => UInt8.ofNat (d + 1)

theorem toNat_digit {d : ℕ} (hd : d < 255) : (UInt8.ofNat (d + 1)).toNat = d + 1 :=
  UInt8.toNat_ofNat_of_lt' (Nat.succ_lt_succ hd)

/-- The number of a key. -/
theorem ofDigits_numberKey (k : ℕ) :
    Nat.ofDigits 255 ((numberKey k).map fun b => b.toNat - 1) = k := by
  have hdigit : ∀ d ∈ Nat.digits 255 k, (UInt8.ofNat (d + 1)).toNat - 1 = d := by
    intro d hd
    rw [toNat_digit (Nat.digits_lt_base (by decide) hd), Nat.add_sub_cancel]
  have hdigits : (numberKey k).map (fun b => b.toNat - 1) = Nat.digits 255 k := by
    rw [numberKey, List.map_map]
    exact (List.map_congr_left hdigit).trans (List.map_id _)
  rw [hdigits, Nat.ofDigits_digits]

theorem numberKey_inj {j k : ℕ} (h : numberKey j = numberKey k) : j = k := by
  rw [← ofDigits_numberKey j, h, ofDigits_numberKey]

theorem numberKey_admissible {k : ℕ} (hk : k < 2 ^ 31) :
    0 ∉ numberKey k ∧ (numberKey k).length ≤ 30 := by
  constructor
  · intro hzero
    obtain ⟨d, hd, heq⟩ := List.mem_map.mp hzero
    have hnat := toNat_digit (Nat.digits_lt_base (by decide) hd)
    rw [heq] at hnat
    exact absurd hnat (Nat.succ_ne_zero d).symm
  · rw [numberKey, List.length_map]
    exact (Nat.digits_length_le_iff (by decide) k).mpr (hk.trans_le (by norm_num))

/-- The size of a table that holds exactly the keys of the first numbers. -/
theorem Maps.count_of_numberKeys (h : Maps t chain recycled m) {n : ℕ}
    (hkeys : ∀ key, m key ≠ none ↔ ∃ k < n, key = numberKey k) : t.count.toNat = n := by
  obtain ⟨keys, hmem, hcard⟩ := h.card_eq
  have himage : keys = (Finset.range n).image numberKey := by
    ext key
    simp only [hmem, hkeys, Finset.mem_image, Finset.mem_range, eq_comm]
  rw [hcard, himage, Finset.card_image_of_injective _ fun j k => numberKey_inj, Finset.card_range]

/-- A table can be created. -/
theorem exists_init : ∃ t, (hashSystem β).init t := ⟨_, 0, none, by decide, rfl⟩

/-- A table can be filled with the keys of the first numbers. -/
theorem exists_run_of_numberKeys {n : ℕ} (hn : n < 2 ^ 31) :
    ∃ (history : List (HashCall ℕ × HashRet ℕ)) (t : HashT ℕ), RunBelow history t ∧
      ∀ key, stored history key ≠ none ↔ ∃ k < n, key = numberKey k := by
  induction n with
  | zero =>
      obtain ⟨t, hinit⟩ := exists_init (β := ℕ)
      exact ⟨[], t, .start hinit, by simp⟩
  | succ n ih =>
      obtain ⟨history, t, run, hkeys⟩ := ih (by omega)
      obtain ⟨chain, recycled, hmaps⟩ := Run.maps run
      obtain ⟨mem, hmem⟩ := hmaps.exists_fresh
      have hcount := hmaps.count_of_numberKeys hkeys
      have hcontract : (HashCall.push (numberKey n) n mem).Contract t :=
        ⟨numberKey_admissible (by omega), hmem⟩
      have hbelow : BelowLimit t (.push (numberKey n) n mem) := Or.inr (by omega)
      obtain ⟨ret, t', -, -, hrun, -⟩ := hmaps.run hcontract hbelow
      have hstep : (hashSystem ℕ).step t (.push (numberKey n) n mem, ret) t' := ⟨hcontract, hrun⟩
      refine ⟨_, t', run.extend hbelow hstep, fun key => ?_⟩
      rw [stored_concat, mapAfter]
      rcases eq_or_ne key (numberKey n) with rfl | hne
      · rw [Function.update_self]
        exact iff_of_true (by simp) ⟨n, Nat.lt_succ_self n, rfl⟩
      · rw [Function.update_of_ne hne, hkeys]
        constructor
        · rintro ⟨k, hk, rfl⟩
          exact ⟨k, by omega, rfl⟩
        · rintro ⟨k, hk, rfl⟩
          have hkn : k ≠ n := fun heq => hne (congrArg numberKey heq)
          exact ⟨k, by omega, rfl⟩

/-- A table of two keys answers by the map of two keys. -/
theorem table_refines_map_of_two_keys :
    ∃ (history : List (HashCall ℕ × HashRet ℕ)) (t : HashT ℕ), RunBelow history t ∧
      stored history (numberKey 1) ≠ none ∧ MapView history ∧
        ∀ call : HashCall ℕ, call.Contract t →
          ((∃ ret t', call.run t = some (ret, t') ∧ Answers (stored history) call ret) ↔
            BelowLimit t call) := by
  obtain ⟨history, t, run, hkeys⟩ := exists_run_of_numberKeys (show 2 < 2 ^ 31 by decide)
  exact ⟨history, t, run, (hkeys _).mpr ⟨1, by decide, rfl⟩, table_refines_map run⟩

/-- A table of 2^31 - 1 keys does not take another one: the array for the next size would
have 2^32 slots, and their number wraps to zero. -/
theorem exists_run_beyond_limit :
    ¬ ∀ (history : List (HashCall ℕ × HashRet ℕ)) (t : HashT ℕ),
      (hashSystem ℕ).Trace history t → ∀ call : HashCall ℕ, call.Contract t →
        ∃ ret t', call.run t = some (ret, t') ∧ Answers (stored history) call ret := by
  intro hevery
  have hlast : 2 ^ 31 - 1 < 2 ^ 31 := by decide
  obtain ⟨history, t, run, hkeys⟩ := exists_run_of_numberKeys hlast
  obtain ⟨chain, recycled, hmaps⟩ := Run.maps run
  obtain ⟨mem, hmem⟩ := hmaps.exists_fresh
  have hcontract : (HashCall.push (numberKey (2 ^ 31 - 1)) 0 mem).Contract t :=
    ⟨numberKey_admissible hlast, hmem⟩
  obtain ⟨ret, t', hrun, -⟩ := hevery history t run.trace _ hcontract
  have hcount := hmaps.count_of_numberKeys hkeys
  have hbeyond : ¬ BelowLimit t (.push (numberKey (2 ^ 31 - 1)) 0 mem) := by
    rintro (hfind | hroom)
    · obtain ⟨k, hk, heq⟩ := (hkeys _).mp (hmaps.find_iff.mp hfind)
      have hlt := numberKey_inj heq
      omega
    · omega
  rw [hmaps.run_eq_none hcontract hbeyond] at hrun
  cases hrun

end BliveQueue.Hash
