/-
# Stable insertion into a non-increasing list

A list ordered by a key keeps the larger keys in front. The stable place of a
new element is behind every element whose key is at least its own and in front
of every element whose key is smaller, so equal keys stay in order of arrival.
A scan from the back that inserts behind the first element it meets with a
large enough key finds exactly this place.
-/

import Mathlib.Data.List.Basic
import Mathlib.Data.List.TakeWhile
import Mathlib.Order.Defs.LinearOrder
import Mathlib.Order.Lattice

namespace BliveQueue.Math

universe u v

variable {α : Type u} {κ : Type v}

/-- Insert `new` behind the last element that satisfies `p`. -/
def insertAfterLast (p : α → Bool) (new : α) : List α → Option (List α)
  | [] => none
  | x :: l =>
    match insertAfterLast p new l with
    | some l' => some (x :: l')
    | none => if p x then some (x :: new :: l) else none

theorem insertAfterLast_eq_none_iff {p : α → Bool} {new : α} {l : List α} :
    insertAfterLast p new l = none ↔ ∀ x ∈ l, p x = false := by
  induction l with
  | nil => simp [insertAfterLast]
  | cons x l ih =>
      cases hrec : insertAfterLast p new l with
      | none =>
          have hall : ∀ y ∈ l, p y = false := ih.mp hrec
          simpa [insertAfterLast, hrec] using fun _ => hall
      | some l' =>
          have : ¬ ∀ x ∈ l, p x = false := fun h => by simp [ih.mpr h] at hrec
          simp only [insertAfterLast, hrec, reduceCtorEq, List.mem_cons, forall_eq_or_imp,
            false_iff, not_and]
          exact fun _ => this

theorem exists_of_insertAfterLast_eq_some {p : α → Bool} {new : α} {l l' : List α}
    (h : insertAfterLast p new l = some l') :
    ∃ front x back, l = front ++ x :: back ∧ p x = true ∧ (∀ y ∈ back, p y = false) ∧
      l' = front ++ x :: new :: back := by
  induction l generalizing l' with
  | nil => simp [insertAfterLast] at h
  | cons y l ih =>
      cases hrec : insertAfterLast p new l with
      | none =>
          simp only [insertAfterLast, hrec, Option.ite_none_right_eq_some,
            Option.some.injEq] at h
          exact ⟨[], y, l, rfl, h.1, insertAfterLast_eq_none_iff.mp hrec, h.2.symm⟩
      | some m =>
          simp only [insertAfterLast, hrec, Option.some.injEq] at h
          obtain ⟨front, x, back, rfl, hx, hback, rfl⟩ := ih hrec
          exact ⟨y :: front, x, back, rfl, hx, hback, by simp [← h]⟩

section Order

variable [LinearOrder κ] (key : α → κ)

/-- Nobody stands in front of an element of a larger key. -/
def NonIncreasing (l : List α) : Prop :=
  l.Pairwise fun a b => key b ≤ key a

instance (l : List α) : Decidable (NonIncreasing key l) :=
  inferInstanceAs (Decidable (l.Pairwise _))

variable {key}

theorem NonIncreasing.insert {front back : List α} {new : α}
    (h : NonIncreasing key (front ++ back))
    (hfront : ∀ x ∈ front, key new ≤ key x) (hback : ∀ x ∈ back, key x ≤ key new) :
    NonIncreasing key (front ++ new :: back) := by
  obtain ⟨hf, hb, hfb⟩ := List.pairwise_append.mp h
  refine List.pairwise_append.mpr ⟨hf, List.pairwise_cons.mpr ⟨hback, hb⟩, ?_⟩
  intro x hx y hy
  rcases List.mem_cons.mp hy with rfl | hy
  · exact hfront x hx
  · exact hfb x hx y hy

/-- Removing elements keeps the order. -/
theorem NonIncreasing.sublist {l l' : List α} (h : NonIncreasing key l)
    (hsub : l'.Sublist l) : NonIncreasing key l' :=
  List.Pairwise.sublist hsub h

/-- Replacing one element keeps the order exactly when its new key still lies
between the keys around it. -/
theorem NonIncreasing.replace_iff {front back : List α} {old new : α}
    (h : NonIncreasing key (front ++ old :: back)) :
    NonIncreasing key (front ++ new :: back) ↔
      (∀ x ∈ front, key new ≤ key x) ∧ ∀ x ∈ back, key x ≤ key new := by
  have hrest : NonIncreasing key (front ++ back) :=
    h.sublist (List.Sublist.append_left (List.sublist_cons_self _ _) _)
  constructor
  · intro h'
    obtain ⟨-, hb, hfb⟩ := List.pairwise_append.mp h'
    exact ⟨fun x hx => hfb x hx new List.mem_cons_self, (List.pairwise_cons.mp hb).1⟩
  · exact fun ⟨hfront, hback⟩ => hrest.insert hfront hback

variable (key) in
/-- The stable place: behind every key at least as large, in front of the rest. -/
def stableInsert (new : α) (l : List α) : List α :=
  l.takeWhile (fun x => decide (key new ≤ key x)) ++
    new :: l.dropWhile fun x => decide (key new ≤ key x)

/-- Any split into large keys and smaller keys is the stable place. -/
theorem stableInsert_eq {front back : List α} {new : α}
    (hfront : ∀ x ∈ front, key new ≤ key x) (hback : ∀ x ∈ back, key x < key new) :
    stableInsert key new (front ++ back) = front ++ new :: back := by
  have hstop : back.takeWhile (fun x => decide (key new ≤ key x)) = [] := by
    cases back with
    | nil => rfl
    | cons y back => simp [hback y List.mem_cons_self]
  have hdrop : back.dropWhile (fun x => decide (key new ≤ key x)) = back := by
    cases back with
    | nil => rfl
    | cons y back => simp [hback y List.mem_cons_self]
  have hall : ∀ x ∈ front, decide (key new ≤ key x) = true := by simpa using hfront
  rw [stableInsert, List.takeWhile_append_of_pos hall, List.dropWhile_append_of_pos hall, hstop,
    hdrop, List.append_nil]

/-- The stable place depends on the keys alone. -/
theorem stableInsert_map {β : Type*} (f : β → α) (new : β) (l : List β) :
    stableInsert key (f new) (l.map f) = (stableInsert (key ∘ f) new l).map f := by
  simp [stableInsert, List.takeWhile_map, List.dropWhile_map, Function.comp_def]

/-- The first element behind the stable place has too small a key, and the rest have no
larger ones. -/
theorem NonIncreasing.lt_of_mem_dropWhile {l : List α} {new x : α} (h : NonIncreasing key l)
    (hx : x ∈ l.dropWhile fun x => decide (key new ≤ key x)) : key x < key new := by
  have hdropped : NonIncreasing key (l.dropWhile fun x => decide (key new ≤ key x)) :=
    h.sublist (List.dropWhile_sublist _)
  cases hdrop : l.dropWhile (fun x => decide (key new ≤ key x)) with
  | nil => simp [hdrop] at hx
  | cons y back =>
      have hy : key y < key new := by
        have := List.head?_dropWhile_not (fun x => decide (key new ≤ key x)) l
        simpa [hdrop] using this
      rw [hdrop] at hx hdropped
      rcases List.mem_cons.mp hx with rfl | hx
      · exact hy
      · exact ((List.pairwise_cons.mp hdropped).1 x hx).trans_lt hy

end Order

end BliveQueue.Math
