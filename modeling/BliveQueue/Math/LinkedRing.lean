/-
# Doubly linked paths and rings

An intrusive circular list stores nothing but a `next` and a `prev` pointer for
each node. A path is a list of nodes whose two pointers agree along it, and a
ring is a path from a sentinel back to itself without repetition. Splicing a
node in or out rewrites four, respectively two, pointers; this module proves
once that such a rewrite turns the ring of one list into the ring of the list
with the node inserted or removed, and that reversing the two pointers reverses
the list.
-/

import Mathlib.Data.List.Nodup
import Mathlib.Logic.Function.Basic

namespace BliveQueue.Math

universe u

variable {P : Type u} {next prev next' prev' : P → P} {a b x y : P} {l r : List P}

/-- Following `next` from `a` visits exactly `l` and then arrives at `b`, and
`prev` undoes every one of these steps. -/
def LinkedPath (next prev : P → P) : P → List P → P → Prop
  | a, [], b => next a = b ∧ prev b = a
  | a, x :: l, b => next a = x ∧ prev x = a ∧ LinkedPath next prev x l b

namespace LinkedPath

/-- A path splits at each of its nodes. -/
theorem append_iff :
    LinkedPath next prev a (l ++ x :: r) b ↔
      LinkedPath next prev a l x ∧ LinkedPath next prev x r b := by
  induction l generalizing a with
  | nil => simp [LinkedPath, and_assoc]
  | cons y l ih => simp [LinkedPath, ih, and_assoc]

/-- The frame rule: a path only reads `next` at its sources and `prev` at its
targets. -/
theorem congr (path : LinkedPath next prev a l b)
    (hnext : ∀ x ∈ a :: l, next' x = next x)
    (hprev : ∀ x ∈ l ++ [b], prev' x = prev x) :
    LinkedPath next' prev' a l b := by
  induction l generalizing a with
  | nil => simpa [LinkedPath, hnext, hprev] using path
  | cons y l ih =>
      obtain ⟨hay, hya, rest⟩ := path
      refine ⟨?_, ?_, ih rest ?_ ?_⟩
      · rw [hnext a (by simp), hay]
      · rw [hprev y (by simp), hya]
      · exact fun x hx => hnext x (List.mem_cons_of_mem _ hx)
      · exact fun x hx => hprev x (List.mem_cons_of_mem _ hx)

theorem next_eq (path : LinkedPath next prev a l b) : next a = l.headD b := by
  cases l with
  | nil => exact path.1
  | cons y l => exact path.1

theorem prev_eq (path : LinkedPath next prev a l b) : prev b = l.getLastD a := by
  induction l generalizing a with
  | nil => exact path.2
  | cons y l ih => rw [List.getLastD_cons]; exact ih path.2.2

/-- Exchanging the two pointers walks the path backwards. -/
theorem reverse (path : LinkedPath next prev a l b) :
    LinkedPath prev next b l.reverse a := by
  induction l generalizing a with
  | nil => exact ⟨path.2, path.1⟩
  | cons y l ih =>
      rw [List.reverse_cons]
      exact append_iff.mpr ⟨ih path.2.2, path.2.1, path.1⟩

/-- Bending the last edge of a path from its end `x` to another node `y`. -/
theorem redirect [DecidableEq P] (path : LinkedPath next prev a l x)
    (hnodup : (a :: l).Nodup) (hy : y ∉ l) :
    LinkedPath (Function.update next (prev x) y) (Function.update prev y (prev x))
      a l y := by
  induction l generalizing a with
  | nil => simp [LinkedPath, path.2]
  | cons z l ih =>
      obtain ⟨haz, hza, rest⟩ := path
      rw [List.nodup_cons] at hnodup
      have hlast : prev x ∈ z :: l := by
        rw [rest.prev_eq]
        exact List.getLastD_mem_cons
      have haprev : a ≠ prev x := fun heq => hnodup.1 (heq ▸ hlast)
      have hzy : z ≠ y := fun heq => hy (heq ▸ List.mem_cons_self)
      exact ⟨by rw [Function.update_of_ne haprev, haz],
        by rw [Function.update_of_ne hzy, hza],
        ih rest hnodup.2 fun hmem => hy (List.mem_cons_of_mem _ hmem)⟩

end LinkedPath

/-- A ring: a repetition-free path from the sentinel `head` back to itself. -/
structure LinkedRing (next prev : P → P) (head : P) (l : List P) : Prop where
  path : LinkedPath next prev head l head
  nodup : (head :: l).Nodup

namespace LinkedRing

variable {head : P}

/-- The empty ring is a sentinel that points at itself. -/
theorem nil (hnext : next head = head) (hprev : prev head = head) :
    LinkedRing next prev head [] :=
  ⟨⟨hnext, hprev⟩, by simp⟩

theorem reverse (ring : LinkedRing next prev head l) :
    LinkedRing prev next head l.reverse :=
  ⟨ring.path.reverse, by simpa using ring.nodup⟩

theorem prev_head (ring : LinkedRing next prev head l) : prev head = l.getLastD head :=
  ring.path.prev_eq

theorem next_head (ring : LinkedRing next prev head l) : next head = l.headD head :=
  ring.path.next_eq

/-- The predecessor of a node of the ring. -/
theorem prev_node (ring : LinkedRing next prev head (l ++ x :: r)) :
    prev x = l.getLastD head :=
  (LinkedPath.append_iff.mp ring.path).1.prev_eq

/-- The successor of a node of the ring. -/
theorem next_node (ring : LinkedRing next prev head (l ++ x :: r)) :
    next x = r.headD head :=
  (LinkedPath.append_iff.mp ring.path).2.next_eq

/-- `prev` undoes `next` on the whole ring, the sentinel included. -/
theorem prev_next (ring : LinkedRing next prev head l) (hx : x ∈ head :: l) :
    prev (next x) = x := by
  rcases List.mem_cons.mp hx with rfl | hmem
  · cases l with
    | nil => rw [ring.path.1, ring.path.2]
    | cons y l => rw [ring.path.1, ring.path.2.1]
  · obtain ⟨l, r, rfl⟩ := List.append_of_mem hmem
    obtain ⟨-, rest⟩ := LinkedPath.append_iff.mp ring.path
    cases r with
    | nil => rw [rest.1, rest.2]
    | cons y r => rw [rest.1, rest.2.1]

/-- `next` undoes `prev` on the whole ring, the sentinel included. -/
theorem next_prev (ring : LinkedRing next prev head l) (hx : x ∈ head :: l) :
    next (prev x) = x :=
  ring.reverse.prev_next (by simpa using hx)

/-- The rest of the ring behind `c`, after `x` is spliced in there. -/
theorem insert_path [DecidableEq P] {c : P} (path : LinkedPath next prev c r head)
    (hnodup : (head :: r).Nodup) (hcx : c ≠ x) (hcr : c ∉ r) (fresh : x ∉ head :: r) :
    LinkedPath (Function.update (Function.update next x (next c)) c x)
      (Function.update (Function.update prev x c) (next c) x) c (x :: r) head := by
  obtain ⟨hxhead, hxr⟩ : x ≠ head ∧ x ∉ r := by simpa using fresh
  have hnextx : next c ≠ x := by
    rw [path.next_eq]
    cases r with
    | nil => exact hxhead.symm
    | cons y r => exact fun heq => hxr (by simp_all)
  refine ⟨by simp, by rw [Function.update_of_ne hnextx.symm]; simp, ?_⟩
  cases r with
  | nil => exact ⟨by simp [Function.update_of_ne hcx.symm, path.1], by simp [path.1]⟩
  | cons y r =>
      obtain ⟨hcy, hyc, rest⟩ := path
      refine ⟨by simp [Function.update_of_ne hcx.symm, hcy], by simp [hcy], ?_⟩
      refine rest.congr ?_ ?_
      · intro z hz
        have hzc : z ≠ c := fun heq => hcr (heq ▸ hz)
        have hzx : z ≠ x := fun heq => hxr (heq ▸ hz)
        simp [hzc, hzx]
      · intro z hz
        have hznx : z ≠ x := by rintro rfl; simp_all
        have hzy : z ≠ next c := by
          rw [hcy]
          rintro rfl
          simp only [List.nodup_cons, List.mem_append, List.mem_cons] at hnodup hz
          grind
        simp [hzy, hznx]

/-- Splicing `x` in behind the last node of `head :: l`: the four pointer writes
of an insertion. -/
theorem insert [DecidableEq P] (ring : LinkedRing next prev head (l ++ r))
    {dst : P} (hdst : dst = l.getLastD head) (fresh : x ∉ head :: (l ++ r)) :
    LinkedRing
      (Function.update (Function.update next x (next dst)) dst x)
      (Function.update (Function.update prev x dst) (next dst) x)
      head (l ++ x :: r) := by
  have hnodup : (head :: (l ++ x :: r)).Nodup := by
    have := ring.nodup
    simp only [List.nodup_cons, List.mem_append, List.mem_cons, List.nodup_append] at this fresh ⊢
    grind
  refine ⟨?_, hnodup⟩
  have hrest : (head :: r).Nodup :=
    ring.nodup.sublist ((List.sublist_append_right l r).cons_cons head)
  have hfresh : x ∉ head :: r := fun hx => fresh (by
    rcases List.mem_cons.mp hx with rfl | hx
    · exact List.mem_cons_self
    · exact List.mem_cons_of_mem _ (List.mem_append_right l hx))
  rcases List.eq_nil_or_concat l with rfl | ⟨l, z, rfl⟩
  · subst hdst
    exact insert_path ring.path hrest (fun heq => hfresh (heq ▸ List.mem_cons_self))
      (List.nodup_cons.mp hrest).1 hfresh
  · obtain rfl : dst = z := by simpa using hdst
    have ring' : LinkedRing next prev head (l ++ dst :: r) := by simpa using ring
    obtain ⟨front, back⟩ := LinkedPath.append_iff.mp ring'.path
    have hn := ring'.nodup
    have hsucc := ring'.next_node
    simp only [List.concat_eq_append, List.nodup_cons, List.nodup_append, List.mem_append,
      List.mem_cons, List.append_assoc, List.singleton_append] at hn fresh
    have hx : dst ≠ x := by rintro rfl; simp at fresh
    have hdst : dst ∉ r := by grind
    rw [List.concat_eq_append, List.append_assoc, List.singleton_append]
    refine LinkedPath.append_iff.mpr ⟨front.congr ?_ ?_, insert_path back hrest hx hdst hfresh⟩
    · intro w hw
      have hwd : w ≠ dst := by grind
      have hwx : w ≠ x := by rintro rfl; grind
      simp [hwd, hwx]
    · intro w hw
      have hwx : w ≠ x := by rintro rfl; grind
      have hwn : w ≠ next dst := by
        rw [hsucc]
        rintro rfl
        cases r with
        | nil => grind
        | cons y r => grind
      simp [hwn, hwx]

/-- Splicing `x` out: the two pointer writes of a removal. -/
theorem remove [DecidableEq P] (ring : LinkedRing next prev head (l ++ x :: r)) :
    LinkedRing (Function.update next (prev x) (next x))
      (Function.update prev (next x) (prev x)) head (l ++ r) := by
  obtain ⟨front, back⟩ := LinkedPath.append_iff.mp ring.path
  have hn := ring.nodup
  have hpred := ring.prev_node
  simp only [List.nodup_cons, List.nodup_append, List.mem_append, List.mem_cons] at hn
  refine ⟨?_, by simp only [List.nodup_cons, List.nodup_append, List.mem_append]; grind⟩
  have hfront : (head :: l).Nodup := by simp only [List.nodup_cons]; grind
  cases r with
  | nil =>
      rw [List.append_nil, back.1]
      exact front.redirect hfront (by grind)
  | cons y r =>
      obtain ⟨hxy, hyx, rest⟩ := back
      rw [hxy]
      refine LinkedPath.append_iff.mpr ⟨front.redirect hfront (by grind), rest.congr ?_ ?_⟩
      · intro z hz
        have : z ≠ prev x := by
          rw [hpred]
          rintro rfl
          rcases List.eq_nil_or_concat l with rfl | ⟨l, w, rfl⟩ <;> grind
        rw [Function.update_of_ne this]
      · intro z hz
        have : z ≠ y := by grind
        rw [Function.update_of_ne this]

end LinkedRing

end BliveQueue.Math
