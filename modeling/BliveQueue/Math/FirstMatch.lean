/-
# The first match in a list

An item is the first match of a predicate if it has the property and no item in front of
it does. There is at most one first match, it is what a search of the indexed list finds,
and it stays where it is when an item is replaced by one that matches just as well.
-/

import Mathlib.Data.List.Basic

namespace BliveQueue.Math

universe u

variable {α : Type u} {P Q : α → Prop} {items : List α} {i j : ℕ} {x y new : α}

/-- The item at an index is the first one with a property. -/
structure IsFirst (items : List α) (P : α → Prop) (i : ℕ) (x : α) : Prop where
  here : items[i]? = some x
  holds : P x
  before : ∀ j < i, ∀ y ∈ items[j]?, ¬ P y

theorem IsFirst.mem (h : IsFirst items P i x) : x ∈ items := List.mem_of_getElem? h.here

/-- There is at most one first match. -/
theorem IsFirst.unique (h : IsFirst items P i x) (h' : IsFirst items P j y) : i = j ∧ x = y := by
  have hij : i = j := by
    rcases Nat.lt_trichotomy i j with hlt | heq | hlt
    · exact absurd h.holds (h'.before i hlt x h.here)
    · exact heq
    · exact absurd h'.holds (h.before j hlt y h'.here)
  subst hij
  exact ⟨rfl, Option.some.inj (h.here.symm.trans h'.here)⟩

/-- Predicates that agree on the items have the same first match. -/
theorem IsFirst.congr (h : IsFirst items P i x) (hiff : ∀ y ∈ items, P y ↔ Q y) :
    IsFirst items Q i x where
  here := h.here
  holds := (hiff x h.mem).mp h.holds
  before j hj y hy := fun hQ => h.before j hj y hy ((hiff y (List.mem_of_getElem? hy)).mpr hQ)

/-- A first match of a weaker predicate which has the stronger property. -/
theorem IsFirst.of_imp (h : IsFirst items P i x) (himp : ∀ y, Q y → P y) (hx : Q x) :
    IsFirst items Q i x where
  here := h.here
  holds := hx
  before j hj y hy := fun hQ => h.before j hj y hy (himp y hQ)

/-- The first match of the rest is one of the whole if the head does not match. -/
theorem IsFirst.cons (h : IsFirst items P i y) (hx : ¬ P x) :
    IsFirst (x :: items) P (i + 1) y := by
  refine ⟨by simpa using h.here, h.holds, fun j hj z hz => ?_⟩
  cases j with
  | zero =>
      obtain rfl : x = z := by simpa using hz
      exact hx
  | succ j => exact h.before j (Nat.lt_of_succ_lt_succ hj) z (by simpa using hz)

theorem isFirst_cons_zero (hx : P x) : IsFirst (x :: items) P 0 x where
  here := rfl
  holds := hx
  before _ hj := absurd hj (Nat.not_lt_zero _)

/-- A search of the indexed list finds the first match. -/
theorem isFirst_of_find? [DecidablePred P] {n k : ℕ}
    (h : (items.zipIdx n).find? (fun e => P e.1) = some (x, k)) :
    n ≤ k ∧ IsFirst items P (k - n) x := by
  induction items generalizing n with
  | nil => cases h
  | cons item items ih =>
      rw [List.zipIdx_cons, List.find?_cons] at h
      by_cases hitem : P item
      · simp only [hitem, decide_true, Option.some.injEq, Prod.mk.injEq] at h
        obtain ⟨rfl, rfl⟩ := h
        rw [Nat.sub_self]
        exact ⟨Nat.le_refl _, isFirst_cons_zero hitem⟩
      · simp only [hitem, decide_false] at h
        obtain ⟨hle, hfirst⟩ := ih h
        have hsucc : k - n = k - (n + 1) + 1 := by omega
        rw [hsucc]
        exact ⟨Nat.le_of_succ_le hle, hfirst.cons hitem⟩

/-- A replaced item that matches as before leaves the first match in its place. -/
theorem IsFirst.set (h : IsFirst items P i x) (hold : items[j]? = some y) (hiff : P new ↔ P y) :
    IsFirst (items.set j new) P i (if j = i then new else x) := by
  have hlt : j < items.length := (List.getElem?_eq_some_iff.mp hold).1
  constructor
  · by_cases hji : j = i
    · subst hji
      rw [if_pos rfl, List.getElem?_set_self hlt]
    · rw [if_neg hji, List.getElem?_set_ne hji]
      exact h.here
  · by_cases hji : j = i
    · subst hji
      obtain rfl := Option.some.inj (hold.symm.trans h.here)
      rw [if_pos rfl]
      exact hiff.mpr h.holds
    · rw [if_neg hji]
      exact h.holds
  · intro k hk z hz
    by_cases hjk : j = k
    · subst hjk
      rw [List.getElem?_set_self hlt] at hz
      obtain rfl := Option.some.inj hz
      exact fun hnew => h.before j hk y hold (hiff.mp hnew)
    · rw [List.getElem?_set_ne hjk] at hz
      exact h.before k hk z hz

/-- And it was in its place before. -/
theorem IsFirst.of_set (h : IsFirst (items.set j new) P i x) (hold : items[j]? = some y)
    (hiff : P new ↔ P y) : IsFirst items P i (if j = i then y else x) := by
  obtain ⟨hlt, hget⟩ := List.getElem?_eq_some_iff.mp hold
  have hback := h.set (List.getElem?_set_self hlt) hiff.symm
  rwa [List.set_set, ← hget, List.set_getElem_self, hget] at hback

end BliveQueue.Math
