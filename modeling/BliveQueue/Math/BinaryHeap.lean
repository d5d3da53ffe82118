/-
# Binary heaps with a hole

A binary heap of size `n` occupies the slots `1..n` of an array; the parent of slot
`i` is slot `i / 2`. Sifting does not exchange elements but moves a hole: the
element under way is held aside, its neighbours are copied over the hole, and it
is written back at the end. This module relates the two views. Moving a hole is
an exchange once the element held aside is put into the hole, so the multiset of
elements does not change, and the order off the hole together with the order
across it is what a hole on its way down preserves.
-/

import Mathlib.Data.Multiset.MapFold
import Mathlib.Data.Finset.Insert
import Mathlib.Order.Interval.Finset.Nat
import Mathlib.Logic.Equiv.Basic

namespace BliveQueue.Math.BinaryHeap

universe u

variable {α : Type u} {slot slot' : ℕ → α} {n h w i j : ℕ} {x : α}

/-! ## The elements of a heap -/

/-- The multiset in the slots `1..n`. -/
def elements (n : ℕ) (slot : ℕ → α) : Multiset α := (Finset.Icc 1 n).val.map slot

@[simp] theorem elements_zero (slot : ℕ → α) : elements 0 slot = 0 := rfl

theorem elements_succ (n : ℕ) (slot : ℕ → α) :
    elements (n + 1) slot = slot (n + 1) ::ₘ elements n slot := by
  have hsplit : Finset.Icc 1 (n + 1) = insert (n + 1) (Finset.Icc 1 n) := by
    ext i
    simp only [Finset.mem_Icc, Finset.mem_insert]
    omega
  have hout : n + 1 ∉ Finset.Icc 1 n := by simp
  rw [elements, hsplit, Finset.insert_val_of_notMem hout, Multiset.map_cons, elements]

theorem elements_congr (heq : ∀ i, 1 ≤ i → i ≤ n → slot i = slot' i) :
    elements n slot = elements n slot' :=
  Multiset.map_congr rfl fun i hi => by
    obtain ⟨h1, hn⟩ := Finset.mem_Icc.mp (Finset.mem_val.mp hi)
    exact heq i h1 hn

theorem mem_elements : x ∈ elements n slot ↔ ∃ i, 1 ≤ i ∧ i ≤ n ∧ slot i = x := by
  simp [elements, and_assoc]

/-- Exchanging two slots keeps the elements. -/
theorem elements_swap (hi : 1 ≤ i ∧ i ≤ n) (hj : 1 ≤ j ∧ j ≤ n) (slot : ℕ → α) :
    elements n (slot ∘ Equiv.swap i j) = elements n slot := by
  have hperm : (Finset.Icc 1 n).map (Equiv.swap i j).toEmbedding = Finset.Icc 1 n := by
    ext k
    rw [Finset.mem_map_equiv, Equiv.symm_swap, Finset.mem_Icc, Finset.mem_Icc]
    rcases eq_or_ne k i with rfl | hki
    · simp [hi, hj]
    · rcases eq_or_ne k j with rfl | hkj
      · simp [hi, hj]
      · rw [Equiv.swap_apply_of_ne_of_ne hki hkj]
  calc elements n (slot ∘ Equiv.swap i j)
      = ((Finset.Icc 1 n).val.map (Equiv.swap i j).toEmbedding).map slot := by
        rw [elements, Multiset.map_map]
        rfl
    _ = elements n slot := by rw [← Finset.map_val, hperm, elements]

/-- Overwriting a slot exchanges one element. -/
theorem cons_elements_update (hi : 1 ≤ i ∧ i ≤ n) (slot : ℕ → α) (x : α) :
    slot i ::ₘ elements n (Function.update slot i x) = x ::ₘ elements n slot := by
  induction n with
  | zero => omega
  | succ n ih =>
      rw [elements_succ, elements_succ]
      rcases eq_or_ne i (n + 1) with rfl | hne
      · have hkeep : elements n (Function.update slot (n + 1) x) = elements n slot :=
          elements_congr fun k _ hk => Function.update_of_ne (by omega) _ _
        rw [Function.update_self, hkeep, Multiset.cons_swap]
      · rw [Function.update_of_ne hne.symm, Multiset.cons_swap, ih (by omega),
          Multiset.cons_swap]

/-- Moving the hole from `i` to `j` is an exchange once the hole is filled. -/
theorem update_move_hole (hij : i ≠ j) (slot : ℕ → α) (x : α) :
    Function.update (Function.update slot i (slot j)) j x =
      Function.update slot i x ∘ Equiv.swap i j := by
  funext k
  rcases eq_or_ne k j with rfl | hkj
  · simp
  · rcases eq_or_ne k i with rfl | hki
    · simp [hij, hij.symm]
    · simp [Equiv.swap_apply_of_ne_of_ne hki hkj, hki, hkj]

/-- Moving the hole keeps the elements of the filled heap. -/
theorem elements_move_hole (hi : 1 ≤ i ∧ i ≤ n) (hj : 1 ≤ j ∧ j ≤ n) (hij : i ≠ j)
    (slot : ℕ → α) (x : α) :
    elements n (Function.update (Function.update slot i (slot j)) j x) =
      elements n (Function.update slot i x) := by
  rw [update_move_hole hij, elements_swap hi hj]

/-! ## Heap order -/

/-- A comparison that says which of two elements may stand above the other. -/
structure TotalPreorder (above : α → α → Prop) : Prop where
  refl : ∀ x, above x x
  total : ∀ x y, above x y ∨ above y x
  trans : ∀ x y z, above x y → above y z → above x z

variable {above : α → α → Prop}

/-- What does not stand above something stands below it. -/
theorem TotalPreorder.of_not (le : TotalPreorder above) {x y : α} (h : ¬ above x y) :
    above y x :=
  (le.total x y).resolve_left h

/-- Every parent stands above its children. -/
def Ordered (above : α → α → Prop) (n : ℕ) (slot : ℕ → α) : Prop :=
  ∀ i, 2 ≤ i → i ≤ n → above (slot (i / 2)) (slot i)

theorem Ordered.mono (ord : Ordered above n slot) (hmn : h ≤ n) : Ordered above h slot :=
  fun i h2 hi => ord i h2 (hi.trans hmn)

/-- The root stands above everything. -/
theorem Ordered.root (le : TotalPreorder above) (ord : Ordered above n slot) (h1 : 1 ≤ i)
    (hn : i ≤ n) : above (slot 1) (slot i) := by
  induction i using Nat.strong_induction_on with
  | _ i ih =>
      rcases eq_or_ne i 1 with rfl | hne
      · exact le.refl _
      · have hroot := ih (i / 2) (by omega) (by omega) (by omega)
        exact le.trans _ _ _ hroot (ord i (by omega) hn)

/-- The order of a heap with a hole at `h`: every edge off the hole, and the edges
from the parent of the hole to its children. -/
structure HoleOrdered (above : α → α → Prop) (n : ℕ) (slot : ℕ → α) (h : ℕ) : Prop where
  off : ∀ i, 2 ≤ i → i ≤ n → i ≠ h → i / 2 ≠ h → above (slot (i / 2)) (slot i)
  across : ∀ i, 2 ≤ i → i ≤ n → i / 2 = h → 2 ≤ h → above (slot (h / 2)) (slot i)

/-- Any slot of a heap may become the hole. -/
theorem Ordered.hole (le : TotalPreorder above) (ord : Ordered above n slot) (h : ℕ) :
    HoleOrdered above n slot h where
  off i h2 hn _ _ := ord i h2 hn
  across i h2 hn hih hh := by
    have hchild := ord i h2 hn
    rw [hih] at hchild
    exact le.trans _ _ _ (ord h hh (by omega)) hchild

/-- Filling the hole below its parent and above its children restores the order. -/
theorem HoleOrdered.fill (hole : HoleOrdered above n slot h)
    (hparent : 2 ≤ h → above (slot (h / 2)) x)
    (hchildren : ∀ i, 2 ≤ i → i ≤ n → i / 2 = h → above x (slot i)) :
    Ordered above n (Function.update slot h x) := by
  intro i h2 hn
  rcases eq_or_ne i h with rfl | hih
  · rw [Function.update_self, Function.update_of_ne (by omega)]
    exact hparent h2
  · rw [Function.update_of_ne hih]
    rcases eq_or_ne (i / 2) h with rfl | hpar
    · rw [Function.update_self]
      exact hchildren i h2 hn rfl
    · rw [Function.update_of_ne hpar]
      exact hole.off i h2 hn hih hpar

/-- Moving a child that stands above its sibling up into the hole. -/
theorem HoleOrdered.down (hole : HoleOrdered above n slot h) (h2 : 2 ≤ w) (hw : w ≤ n)
    (hwh : w / 2 = h) (hwin : ∀ i, 2 ≤ i → i ≤ n → i / 2 = h → above (slot w) (slot i)) :
    HoleOrdered above n (Function.update slot h (slot w)) w where
  off i hi2 hn hiw hpar := by
    rcases eq_or_ne i h with rfl | hih
    · rw [Function.update_self, Function.update_of_ne (by omega)]
      exact hole.across w h2 hw hwh hi2
    · rw [Function.update_of_ne hih]
      rcases eq_or_ne (i / 2) h with hip | hip
      · rw [hip, Function.update_self]
        exact hwin i hi2 hn hip
      · rw [Function.update_of_ne hip]
        exact hole.off i hi2 hn hih hip
  across i hi2 hn hiw _ := by
    rw [hwh, Function.update_self, Function.update_of_ne (by omega)]
    have hedge := hole.off i hi2 hn (by omega) (by omega)
    rwa [hiw] at hedge

end BliveQueue.Math.BinaryHeap
