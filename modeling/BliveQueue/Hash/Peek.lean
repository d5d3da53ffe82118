/-
# Peeking

`find_entry` reports a missing key by the last link of the bucket, which holds NULL,
never by a null address. A removal tests what the link holds; a peek only tests the
address. So a peek agrees with a removal at the keys of the table and follows a null
pointer at all the others.
-/

import BliveQueue.Hash.MapView

namespace BliveQueue.Hash

open BliveQueue.Math BliveQueue.Utils.Hash BliveQueue.Utils.Hash.HashT

variable {β : Type} {t : HashT β} {chain : ℕ → List EntryPtr} {recycled : List EntryPtr}
variable {m : CString → Option β} {key : CString}

/-- A peek at a key of the table answers its value and changes nothing. -/
theorem Maps.hashPeek_of_mem (h : Maps t chain recycled m) (hm : m key ≠ none) :
    t.hashPeek key = some (m key, t) := by
  rcases h.chained.find_eq key with ⟨pre, p, post, hcut, hit, -, hfind⟩ | ⟨missing, -⟩
  · have ⟨d, held, _⟩ := hit
    have hstored : InTable chain p := ⟨bucketOf t key, by simp [hcut]⟩
    obtain ⟨v, rfl, hvalue⟩ := h.data_of_matches hstored hit held
    obtain ⟨e, he, hdata, -⟩ := exists_entry_of_dataOf held
    have hread := h.chained.readLink_cut hcut
    have hsame : e.value = m key := (congrArg EntryData.value hdata).trans hvalue.symm
    simp only [hashPeek, hfind, hread, he, hsame, Option.bind_eq_bind, Option.bind_some]
  · exact absurd (h.eq_none_of_missing missing) hm

/-- A peek at a missing key follows a null pointer. -/
theorem Maps.hashPeek_of_missing (h : Maps t chain recycled m) (hm : m key = none) :
    t.hashPeek key = none := by
  rcases h.chained.find_eq key with ⟨pre, p, post, hcut, hit, -, -⟩ | ⟨-, hfind⟩
  · have ⟨d, held, _⟩ := hit
    have hstored : InTable chain p := ⟨bucketOf t key, by simp [hcut]⟩
    obtain ⟨v, -, hvalue⟩ := h.data_of_matches hstored hit held
    rw [hm] at hvalue
    cases hvalue
  · have hread := h.chained.readLink_end (h.chained.bucketOf_lt key)
    simp only [hashPeek, hfind, hread, Option.bind_eq_bind, Option.bind_some]

/-- A call that returned did not go beyond the limit, so every run is one below it. -/
theorem Run.below {history : List (HashCall β × HashRet β)} (run : (hashSystem β).Trace history t) :
    RunBelow history t := by
  induction run with
  | start initial => exact .start initial
  | extend _ _ taken ih =>
      refine ih.extend ?_ taken
      obtain ⟨hcontract, hrun⟩ := taken
      obtain ⟨chain, recycled, hmaps⟩ := Run.maps ih
      by_contra hbeyond
      rw [hmaps.run_eq_none hcontract hbeyond] at hrun
      cases hrun

/-- A removal and a peek both return the value of the key, and the peek changes nothing. -/
def PeekAgrees (t : HashT β) (m : CString → Option β) (key : CString) : Prop :=
  ∃ t', t.hashPop key = some (m key, t') ∧ t.hashPeek key = some (m key, t)

/-- In every table that calls can make, a peek agrees with a removal if and only if the key
is in the table. -/
theorem hashPeek_agrees_iff {history : List (HashCall β × HashRet β)}
    (run : (hashSystem β).Trace history t) :
    PeekAgrees t (stored history) key ↔ stored history key ≠ none := by
  obtain ⟨chain, recycled, hmaps⟩ := Run.maps (Run.below run)
  constructor
  · rintro ⟨t', -, hpeek⟩ hmissing
    rw [hmaps.hashPeek_of_missing hmissing] at hpeek
    cases hpeek
  · intro hm
    obtain ⟨t', -, -, hpop, -⟩ := hmaps.hashPop key
    exact ⟨t', hpop, hmaps.hashPeek_of_mem hm⟩

/-- A table of two keys is peeked at one of them. -/
theorem hashPeek_agrees_of_two_keys :
    ∃ (history : List (HashCall ℕ × HashRet ℕ)) (t : HashT ℕ),
      (hashSystem ℕ).Trace history t ∧ PeekAgrees t (stored history) (numberKey 1) := by
  obtain ⟨history, t, run, hkeys⟩ := exists_run_of_numberKeys (show 2 < 2 ^ 31 by decide)
  have hmem : stored history (numberKey 1) ≠ none := (hkeys _).mpr ⟨1, by decide, rfl⟩
  exact ⟨history, t, run.trace, (hashPeek_agrees_iff run.trace).mpr hmem⟩

/-- A peek at a new table follows a null pointer. -/
theorem exists_peek_of_null :
    ¬ ∀ (history : List (HashCall ℕ × HashRet ℕ)) (t : HashT ℕ),
      (hashSystem ℕ).Trace history t → ∀ key : CString, 0 ∉ key ∧ key.length ≤ 30 →
        ∃ v t', t.hashPop key = some (v, t') ∧ t.hashPeek key = some (v, t) := by
  intro hevery
  obtain ⟨t, hinit⟩ := exists_init (β := ℕ)
  obtain ⟨chain, recycled, hmaps⟩ := exists_maps_of_init hinit
  obtain ⟨v, t', -, hpeek⟩ := hevery [] t (.start hinit) [] (by decide)
  rw [hmaps.hashPeek_of_missing rfl] at hpeek
  cases hpeek

end BliveQueue.Hash
