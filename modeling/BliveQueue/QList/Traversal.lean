/-
# Traversals of a represented sequence

`qlist_foreach` makes `elem_num` steps along `next` or `prev`, so what it shows
is a prefix of the sequence or of its reverse, and all of it while the counter
has not wrapped. The callback may stop the traversal; it has then been called on
exactly the units up to that point. Following `next` until the sentinel comes
round again lists the whole ring, whatever the counter says.
-/

import BliveQueue.QList.Refinement

namespace BliveQueue.QList

open BliveQueue.Math BliveQueue.Utils BliveQueue.Utils.QList
open BliveQueue.Utils.QList.BliveQlist

variable {q : BliveQlist} {s : Sequence} {cells front back : List Cell} {γ : Type}

/-- Feed a list of pairs to a callback until it answers `False`. -/
def feed (cb : UInt32 → QlistUnitData → γ → Bool × γ) :
    List (UInt32 × QlistUnitData) → γ → BliveErrno × γ
  | [], context => (.ok, context)
  | p :: pairs, context =>
    match cb p.1 p.2 context with
    | (false, context) => (.terminate, context)
    | (true, context) => feed cb pairs context

/-- The callback that records what it is shown and stops when `answer`, asked
about everything shown so far, says so. -/
def recorder (answer : List (UInt32 × QlistUnitData) → Bool) (anchorage : UInt32)
    (data : QlistUnitData) (seen : List (UInt32 × QlistUnitData)) :
    Bool × List (UInt32 × QlistUnitData) :=
  (answer (seen ++ [(anchorage, data)]), seen ++ [(anchorage, data)])

theorem feed_record (pairs seen : List (UInt32 × QlistUnitData)) :
    feed (fun a d seen => (true, seen ++ [(a, d)])) pairs seen = (.ok, seen ++ pairs) := by
  induction pairs generalizing seen with
  | nil => simp [feed]
  | cons p pairs ih => simp [feed, ih]

/-- A recorder that first answers `False` on the unit behind `shown` has been
shown exactly the units up to and including that one. -/
theorem feed_recorder {answer : List (UInt32 × QlistUnitData) → Bool}
    {shown rest : List (UInt32 × QlistUnitData)} {p : UInt32 × QlistUnitData}
    {seen : List (UInt32 × QlistUnitData)}
    (hgo : ∀ l, l <+: shown → l ≠ [] → answer (seen ++ l) = true)
    (hstop : answer (seen ++ (shown ++ [p])) = false) :
    feed (recorder answer) (shown ++ p :: rest) seen =
      (.terminate, seen ++ (shown ++ [p])) := by
  induction shown generalizing seen with
  | nil =>
      have hstop' : answer (seen ++ [p]) = false := hstop
      simp [feed, recorder, hstop']
  | cons x shown ih =>
      have hx : answer (seen ++ [x]) = true := hgo [x] (by simp) (by simp)
      rw [List.cons_append, feed, recorder]
      simp only [hx]
      rw [ih]
      · simp
      · intro l hl hne
        simpa using hgo (x :: l) (by simpa using hl) (by simp)
      · simpa using hstop

/-- The successor of the last unit in front of a cut. -/
theorem Linked.next_getLastD {c : Cell} (h : Linked q (front ++ c :: back)) :
    q.next ((front.map Cell.node).getLastD .listHead) = .listNode c.addr := by
  rcases List.eq_nil_or_concat front with rfl | ⟨front, x, rfl⟩
  · exact h.ring.next_head
  · have hring : LinkedRing q.next q.prev .listHead
        (front.map Cell.node ++ x.node :: (c.node :: back.map Cell.node)) := by
      simpa using h.ring
    simpa [Cell.node] using hring.next_node

/-- The loop of `qlist_foreach`, forwards. -/
theorem Linked.foreachLoop_next (h : Linked q (front ++ back))
    (cb : UInt32 → QlistUnitData → γ → Bool × γ) {count : ℕ} (hcount : count ≤ back.length)
    (context : γ) :
    foreachLoop q false cb count ((front.map Cell.node).getLastD .listHead) context =
      some (feed cb ((back.take count).map Cell.pair) context) := by
  induction count generalizing front back context with
  | zero => simp [foreachLoop, feed]
  | succ count ih =>
      cases back with
      | nil => simp at hcount
      | cons c back =>
          have halloc := h.allocated_getLastD (List.subset_append_left front _)
          have hnext : (q.node ((front.map Cell.node).getLastD .listHead)).next =
              .listNode c.addr := h.next_getLastD
          have hread := h.readUnit_eq (c := c) (by simp)
          have h' : Linked q ((front ++ [c]) ++ back) := by simpa using h
          have hlast : ((front ++ [c]).map Cell.node).getLastD .listHead =
              .listNode c.addr := by simp [Cell.node]
          have hrec := fun context => ih h' (by simpa using hcount) context
          rw [hlast] at hrec
          simp only [foreachLoop, readNode, if_pos halloc, hnext, listEntry, hread,
            Option.bind_eq_bind, Option.bind_some, Bool.false_eq_true, ↓reduceIte,
            List.take_succ_cons, List.map_cons, feed, Cell.pair, hrec]
          rcases cb c.unit.anchorage c.unit.data context with ⟨_ | _, context⟩ <;> rfl

/-- The loop of `qlist_foreach`, backwards. -/
theorem Linked.foreachLoop_prev (h : Linked q (front ++ back))
    (cb : UInt32 → QlistUnitData → γ → Bool × γ) {count : ℕ} (hcount : count ≤ front.length)
    (context : γ) :
    foreachLoop q true cb count ((back.map Cell.node).headD .listHead) context =
      some (feed cb ((front.reverse.take count).map Cell.pair) context) := by
  induction count generalizing front back context with
  | zero => simp [foreachLoop, feed]
  | succ count ih =>
      rcases List.eq_nil_or_concat front with rfl | ⟨front, c, rfl⟩
      · simp at hcount
      · obtain ⟨node, hnode, hprev⟩ := h.readNode_headD
        have hprev' : node.prev = .listNode c.addr := by simpa [Cell.node] using hprev
        have hread := h.readUnit_eq (c := c) (by simp)
        have h' : Linked q (front ++ c :: back) := by simpa using h
        have hrec : ∀ context, foreachLoop q true cb count (.listNode c.addr) context = _ :=
          fun context => ih h' (by simpa using hcount) context
        simp only [foreachLoop, hnode, hprev', listEntry, hread, Option.bind_eq_bind,
          Option.bind_some, ↓reduceIte, List.concat_eq_append, List.reverse_append,
          List.reverse_cons, List.reverse_nil, List.nil_append, List.singleton_append,
          List.take_succ_cons, List.map_cons, feed, Cell.pair, hrec]
        rcases cb c.unit.anchorage c.unit.data context with ⟨_ | _, context⟩ <;> rfl

theorem foreachLoop_keeps {P : γ → Prop} {invertSeq : Bool}
    {cb : UInt32 → QlistUnitData → γ → Bool × γ} {context context' : γ} {code : BliveErrno}
    (hcb : ∀ a d context, P context → P (cb a d context).2) {count : ℕ} {listPtr : ListPtr}
    (h : foreachLoop q invertSeq cb count listPtr context = some (code, context'))
    (hcontext : P context) : P context' := by
  induction count generalizing listPtr context with
  | zero =>
      obtain ⟨-, rfl⟩ := Prod.mk.inj (Option.some.inj h)
      exact hcontext
  | succ count ih =>
      obtain ⟨node, -, h⟩ := Option.bind_eq_some_iff.mp h
      obtain ⟨eachUnit, -, h⟩ := Option.bind_eq_some_iff.mp h
      obtain ⟨u, -, h⟩ := Option.bind_eq_some_iff.mp h
      have hkept := hcb u.anchorage u.data context hcontext
      cases hanswer : cb u.anchorage u.data context with
      | mk goesOn context₁ =>
          rw [hanswer] at h hkept
          cases goesOn with
          | false =>
              obtain ⟨-, rfl⟩ := Prod.mk.inj (Option.some.inj h)
              exact hkept
          | true => exact ih h hkept

/-- What every call of the callback keeps is kept by `qlist_foreach`. -/
theorem qlistForeach_keeps {P : γ → Prop} {invertSeq : Bool}
    {cb : UInt32 → QlistUnitData → γ → Bool × γ} {context context' : γ} {code : BliveErrno}
    (hcb : ∀ a d context, P context → P (cb a d context).2)
    (h : qlistForeach q invertSeq cb context = some (code, context')) (hcontext : P context) :
    P context' := by
  unfold qlistForeach at h
  split at h
  · obtain ⟨-, rfl⟩ := Prod.mk.inj (Option.some.inj h)
    exact hcontext
  · exact foreachLoop_keeps hcb h hcontext

/-- The units of a sequence in the direction of a traversal. -/
def Sequence.directed (s : Sequence) (invertSeq : Bool) : List Cell :=
  if invertSeq then s.cells.reverse else s.cells

/-- `qlist_foreach` feeds its callback the first `elem_num` units. -/
theorem Represents.qlistForeach_eq (h : Represents q s) (invertSeq : Bool)
    (cb : UInt32 → QlistUnitData → γ → Bool × γ) (context : γ) :
    qlistForeach q invertSeq cb context =
      some (if s.count = 0 then (.resource, context)
        else feed cb (((s.directed invertSeq).take s.count).map Cell.pair) context) := by
  by_cases hzero : s.count = 0
  · simp [qlistForeach, h.elemNum_eq_zero_iff.mpr hzero, hzero]
  · have hnum : q.elemNum ≠ 0 := fun h0 => hzero (h.elemNum_eq_zero_iff.mp h0)
    have hle : s.count ≤ s.cells.length := Nat.mod_le _ _
    rw [qlistForeach, if_neg hnum, if_neg hzero, h.toNat_elemNum]
    cases invertSeq with
    | false =>
        have hlinked : Linked q ([] ++ s.cells) := h.toLinked
        exact hlinked.foreachLoop_next cb hle context
    | true =>
        have hlinked : Linked q (s.cells ++ []) := by simpa using h.toLinked
        exact hlinked.foreachLoop_prev cb hle context

/-- What a full traversal shows. -/
theorem Represents.traversal_eq (h : Represents q s) (invertSeq : Bool) :
    traversal q invertSeq = some (((s.directed invertSeq).take s.count).map Cell.pair) := by
  rw [traversal, h.qlistForeach_eq, feed_record]
  by_cases hzero : s.count = 0 <;> simp [hzero]

/-- Following `next` from `list_head` lists the units of the sequence. -/
theorem Linked.cycle_eq (h : Linked q cells) : cycle q = some (cells.map Cell.addr) := by
  have walk : ∀ (back front : List Cell) (fuel : ℕ), Linked q (front ++ back) →
      back.length < fuel →
      cycleFrom q fuel ((front.map Cell.node).getLastD .listHead) =
        some (back.map Cell.addr) := by
    intro back
    induction back with
    | nil =>
        intro front fuel hlinked hfuel
        obtain ⟨fuel, rfl⟩ := Nat.exists_eq_succ_of_ne_zero (Nat.ne_of_gt hfuel)
        have hring : LinkedRing q.next q.prev .listHead (front.map Cell.node) := by
          simpa using hlinked.ring
        have hnext : q.next ((front.map Cell.node).getLastD .listHead) = .listHead := by
          rw [← hring.prev_head]
          exact hring.next_prev List.mem_cons_self
        rw [cycleFrom, hnext]
        rfl
    | cons c back ih =>
        intro front fuel hlinked hfuel
        obtain ⟨fuel, rfl⟩ := Nat.exists_eq_succ_of_ne_zero (Nat.ne_of_gt (Nat.zero_lt_of_lt hfuel))
        have hnext := hlinked.next_getLastD
        have hlive : c.addr ∈ q.live := hlinked.live c (by simp)
        have hrec := ih (front ++ [c]) fuel (by simpa using hlinked)
          (Nat.lt_of_succ_lt_succ hfuel)
        have hlast : ((front ++ [c]).map Cell.node).getLastD .listHead =
            .listNode c.addr := by simp [Cell.node]
        rw [hlast] at hrec
        rw [cycleFrom, hnext]
        simp [hlive, hrec]
  exact walk cells [] _ h (Nat.lt_succ_of_le h.length_le_card)

/-- The contents of the ring. -/
theorem Linked.ring_eq (h : Linked q cells) : QList.ring q = some (cells.map Cell.pair) := by
  rw [QList.ring, h.cycle_eq, Option.map_some, List.map_map]
  congr 1
  exact List.map_congr_left fun c hc => by simp [h.stored c hc, Cell.pair]

end BliveQueue.QList
