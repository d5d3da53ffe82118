/-
# The waiting line

What the queue is for, without addresses, cache or counter: a line of pairs of
an anchorage and its data. A call refreshes the data in place, lets a newcomer
in somewhere, refuses it, removes somebody, or only looks. While the counter has
room, every call on the sequence is a step of this line, and the anchorages in
it stay distinct.

The counter has 32 bits and there are `2 ^ 32` anchorages, so exactly one
situation exhausts it: a newcomer that would complete the set of all anchorages.
-/

import Mathlib.Data.UInt
import BliveQueue.QList.Traversal

namespace BliveQueue.QList

open BliveQueue.Math BliveQueue.Utils BliveQueue.Utils.QList

/-- A pair as the traversal shows it. -/
abbrev Pair := UInt32 × QlistUnitData

/-- The key of the queue order. -/
def Pair.weight (p : Pair) : ℕ := p.2.weight.toNat

/-- The anchorage a call is about. -/
def anchorageOf : QlistCall → UInt32
  | .appendUpdate a _ _ => a
  | .subtract a => a
  | .anchorageExistence a => a

/-- Overwrite the data stored for an anchorage. -/
def replaceData (a : UInt32) (d : QlistUnitData) (line : List Pair) : List Pair :=
  line.map fun p => if p.1 = a then (a, d) else p

/-- Remove an anchorage. -/
def dropAnchorage (a : UInt32) (line : List Pair) : List Pair :=
  line.filter fun p => p.1 ≠ a

/-- The steps of a waiting line. -/
inductive LineStep : List Pair → QlistCall → QlistRet → List Pair → Prop
  | refresh {line a d mem} (queued : a ∈ line.map Prod.fst) :
      LineStep line (.appendUpdate a d mem) (.errno .ok) (replaceData a d line)
  | join {front back a d mem} (absent : a ∉ (front ++ back).map Prod.fst) :
      LineStep (front ++ back) (.appendUpdate a d (some mem)) (.errno .ok)
        (front ++ (a, d) :: back)
  | outOfMem {line a d} (absent : a ∉ line.map Prod.fst) :
      LineStep line (.appendUpdate a d none) (.errno .outOfMem) line
  | refuse {line a d mem} (absent : a ∉ line.map Prod.fst) :
      LineStep line (.appendUpdate a d (some mem)) (.errno .unknown) line
  | leave {line a} (queued : a ∈ line.map Prod.fst) :
      LineStep line (.subtract a) (.errno .ok) (dropAnchorage a line)
  | missing {line a} (absent : a ∉ line.map Prod.fst) :
      LineStep line (.subtract a) (.errno .resource) line
  | look {line a} :
      LineStep line (.anchorageExistence a) (.bool (decide (a ∈ line.map Prod.fst))) line

theorem map_fst_replaceData (a : UInt32) (d : QlistUnitData) (line : List Pair) :
    (replaceData a d line).map Prod.fst = line.map Prod.fst := by
  rw [replaceData, List.map_map]
  exact List.map_congr_left fun p _ => by by_cases hp : p.1 = a <;> simp [hp]

theorem dropAnchorage_of_absent {a : UInt32} {line : List Pair} (h : a ∉ line.map Prod.fst) :
    dropAnchorage a line = line :=
  List.filter_eq_self.mpr fun p hp => by
    have hne : p.1 ≠ a := fun heq => h (heq ▸ List.mem_map_of_mem hp)
    simpa using hne

/-- A removal leaves the line without the anchorage, whether it was there or not. -/
theorem LineStep.eq_dropAnchorage {line line' : List Pair} {a : UInt32} {ret : QlistRet}
    (step : LineStep line (.subtract a) ret line') : line' = dropAnchorage a line := by
  cases step with
  | leave => rfl
  | missing absent => exact (dropAnchorage_of_absent absent).symm

/-- A request for a queued anchorage refreshes it. -/
theorem LineStep.eq_replaceData {line line' : List Pair} {a : UInt32} {d : QlistUnitData}
    {mem : Option Addr} {ret : QlistRet} (step : LineStep line (.appendUpdate a d mem) ret line')
    (queued : a ∈ line.map Prod.fst) : line' = replaceData a d line := by
  cases step with
  | refresh => rfl
  | join absent | outOfMem absent | refuse absent => exact absurd queued absent

/-- Distinct anchorages stay distinct. -/
theorem LineStep.nodup {line line' : List Pair} {call : QlistCall} {ret : QlistRet}
    (step : LineStep line call ret line') (h : (line.map Prod.fst).Nodup) :
    (line'.map Prod.fst).Nodup := by
  cases step with
  | refresh => rwa [map_fst_replaceData]
  | join absent =>
      rw [List.map_append, List.map_cons]
      exact List.nodup_middle.mpr (List.nodup_cons.mpr ⟨by simpa using absent, by simpa using h⟩)
  | leave => exact h.sublist (List.Sublist.map _ List.filter_sublist)
  | outOfMem | refuse | missing | look => exact h

/-- Only a newcomer makes the line longer. -/
theorem LineStep.length_lt {line line' : List Pair} {call : QlistCall} {ret : QlistRet} {n : ℕ}
    (step : LineStep line call ret line') (h : line.length < n)
    (hroom : ∀ a d mem, call = .appendUpdate a d mem → a ∉ line.map Prod.fst →
      line.length + 1 < n) : line'.length < n := by
  cases step with
  | refresh => simpa [replaceData] using h
  | join absent => simpa [Nat.add_assoc] using hroom _ _ _ rfl absent
  | leave => exact (List.length_filter_le _ _).trans_lt h
  | outOfMem | refuse | missing | look => exact h

namespace Sequence

variable {s : Sequence} {c : Cell}

/-- The line of a sequence. -/
def line (s : Sequence) : List Pair := s.cells.map Cell.pair

/-- Distinct anchorages, and a counter that has not wrapped. -/
structure Sound (s : Sequence) : Prop where
  distinct : (s.line.map Prod.fst).Nodup
  room : s.cells.length < 2 ^ 32

theorem mem_line_fst {a : UInt32} :
    a ∈ s.line.map Prod.fst ↔ ∃ c ∈ s.cells, c.unit.anchorage = a := by
  simp [line, Cell.pair]

theorem mem_line_of_lookup {a : UInt32} (hlookup : s.lookup a = some c) :
    a ∈ s.line.map Prod.fst :=
  mem_line_fst.mpr ⟨c, mem_of_lookup hlookup⟩

namespace Sound

theorem count_eq (h : s.Sound) : s.count = s.cells.length := Nat.mod_eq_of_lt h.room

theorem count_eq_zero_iff (h : s.Sound) : s.count = 0 ↔ s.cells = [] := by
  rw [h.count_eq, List.length_eq_zero_iff]

theorem eq_of_anchorage (h : s.Sound) {c d : Cell} (hc : c ∈ s.cells) (hd : d ∈ s.cells)
    (heq : c.unit.anchorage = d.unit.anchorage) : c = d := by
  have hdistinct := h.distinct
  rw [line, List.map_map] at hdistinct
  exact List.inj_on_of_nodup_map hdistinct hc hd heq

/-- A lookup finds an anchorage exactly when it is in the line. -/
theorem lookup_eq_none_iff (h : s.Sound) {a : UInt32} :
    s.lookup a = none ↔ a ∉ s.line.map Prod.fst := by
  rw [mem_line_fst]
  constructor
  · rintro hnone ⟨c, hc, rfl⟩
    have hwalk : s.walk c.unit.anchorage ≠ none := by
      intro hw
      have hall := List.find?_eq_none.mp hw c
        (by rw [h.count_eq, ← List.length_reverse, List.take_length]; simpa using hc)
      simp at hall
    have hne : s.count ≠ 0 := fun h0 => by
      rw [h.count_eq_zero_iff.mp h0] at hc; simp at hc
    rw [lookup, if_neg hne] at hnone
    cases hcached : s.cached with
    | none => exact hwalk (by simpa [hcached] using hnone)
    | some d =>
        by_cases hd : d.unit.anchorage = c.unit.anchorage
        · simp [hcached, hd] at hnone
        · exact hwalk (by simpa [hcached, hd] using hnone)
  · intro habsent
    cases hlookup : s.lookup a with
    | none => rfl
    | some c => exact absurd ⟨c, mem_of_lookup hlookup⟩ habsent

/-- Refreshing a unit by its address is refreshing it by its anchorage. -/
theorem map_pair_refresh (h : s.Sound) (haddr : (s.cells.map Cell.addr).Nodup)
    (hc : c ∈ s.cells) (d : QlistUnitData) :
    (refresh c.addr d s.cells).map Cell.pair = replaceData c.unit.anchorage d s.line := by
  rw [refresh, replaceData, line, List.map_map, List.map_map]
  apply List.map_congr_left
  intro e he
  by_cases hea : e.addr = c.addr
  · obtain rfl : e = c := List.inj_on_of_nodup_map haddr he hc hea
    simp [Cell.pair]
  · have hne : e.unit.anchorage ≠ c.unit.anchorage := fun heq =>
      hea (congrArg Cell.addr (h.eq_of_anchorage he hc heq))
    simp [Cell.pair, hea, hne]

/-- Removing a unit by its address is removing its anchorage. -/
theorem map_pair_filter (h : s.Sound) (haddr : (s.cells.map Cell.addr).Nodup)
    (hc : c ∈ s.cells) :
    (s.cells.filter (·.addr ≠ c.addr)).map Cell.pair =
      dropAnchorage c.unit.anchorage s.line := by
  rw [dropAnchorage, line, List.filter_map]
  congr 1
  apply List.filter_congr
  intro e he
  have hiff : e.addr = c.addr ↔ e.unit.anchorage = c.unit.anchorage :=
    ⟨fun hea => by rw [List.inj_on_of_nodup_map haddr he hc hea],
      fun heq => by rw [h.eq_of_anchorage he hc heq]⟩
  exact decide_eq_decide.mpr (not_congr hiff)

/-- A user who is queued gets the new data. -/
theorem line_call_refresh (h : s.Sound) (haddr : (s.cells.map Cell.addr).Nodup) {a : UInt32}
    (hlookup : s.lookup a = some c) (d : QlistUnitData) (mem : Option Addr) :
    (s.call (.appendUpdate a d mem)).2.line = replaceData a d s.line := by
  obtain ⟨hc, rfl⟩ := mem_of_lookup hlookup
  rw [← h.map_pair_refresh haddr hc d]
  simp [Sequence.call, hlookup, line]

/-- A user who is queued leaves. -/
theorem line_call_leave (h : s.Sound) (haddr : (s.cells.map Cell.addr).Nodup) {a : UInt32}
    (hlookup : s.lookup a = some c) :
    (s.call (.subtract a)).2.line = dropAnchorage a s.line := by
  obtain ⟨hc, rfl⟩ := mem_of_lookup hlookup
  rw [← h.map_pair_filter haddr hc]
  simp [Sequence.call, hlookup, line]

/-- Every call on a sound sequence is a step of its line. -/
theorem call_step (h : s.Sound) (haddr : (s.cells.map Cell.addr).Nodup) (call : QlistCall) :
    LineStep s.line call (s.call call).1 (s.call call).2.line := by
  cases call with
  | appendUpdate a d mem =>
      cases hlookup : s.lookup a with
      | some c =>
          have hstep : LineStep s.line (.appendUpdate a d mem) (.errno .ok)
              (replaceData a d s.line) :=
            LineStep.refresh (mem_line_of_lookup hlookup)
          rw [h.line_call_refresh haddr hlookup d mem]
          simpa [Sequence.call, hlookup] using hstep
      | none =>
          have habsent := h.lookup_eq_none_iff.mp hlookup
          cases mem with
          | none => simpa [Sequence.call, hlookup] using LineStep.outOfMem habsent
          | some x =>
              cases hplace : s.place ⟨x, ⟨a, d⟩⟩ with
              | none =>
                  simpa [Sequence.call, hlookup, hplace] using LineStep.refuse habsent
              | some cells =>
                  obtain ⟨front, back, hcells, rfl⟩ := exists_of_place_eq_some hplace
                  have hline : s.line = front.map Cell.pair ++ back.map Cell.pair := by
                    rw [line, hcells, List.map_append]
                  rw [hline] at habsent ⊢
                  have hstep : LineStep (front.map Cell.pair ++ back.map Cell.pair)
                      (.appendUpdate a d (some x)) (.errno .ok)
                      (front.map Cell.pair ++ (a, d) :: back.map Cell.pair) :=
                    LineStep.join habsent
                  simpa [Sequence.call, hlookup, hplace, line, Cell.pair] using hstep
  | subtract a =>
      cases hlookup : s.lookup a with
      | none =>
          simpa [Sequence.call, hlookup] using
            LineStep.missing (h.lookup_eq_none_iff.mp hlookup)
      | some c =>
          rw [h.line_call_leave haddr hlookup]
          simpa [Sequence.call, hlookup] using LineStep.leave (mem_line_of_lookup hlookup)
  | anchorageExistence a =>
      have hlook : LineStep s.line (.anchorageExistence a)
          (.bool (decide (a ∈ s.line.map Prod.fst))) s.line := LineStep.look
      cases hlookup : s.lookup a with
      | none =>
          rw [decide_eq_false (h.lookup_eq_none_iff.mp hlookup)] at hlook
          simpa [Sequence.call, hlookup] using hlook
      | some c =>
          rw [decide_eq_true (mem_line_of_lookup hlookup)] at hlook
          simpa [Sequence.call, hlookup, line] using hlook

end Sound

end Sequence

/-! ## Runs of the pointer model -/

/-- A unit with the anchorage is linked into the ring. -/
def IsQueued (q : BliveQlist) (a : UInt32) : Prop :=
  ∃ line ∈ QList.ring q, a ∈ line.map Prod.fst

instance (q : BliveQlist) (a : UInt32) : Decidable (IsQueued q a) :=
  match h : QList.ring q with
  | none => isFalse (by rintro ⟨line, hline, -⟩; simp [h] at hline)
  | some line => decidable_of_iff (a ∈ line.map Prod.fst) (by simp [IsQueued, h])

/-- The counter has room for the unit the call may add. -/
def HasRoom (q : BliveQlist) (label : QlistCall × QlistRet) : Prop :=
  match label.1 with
  | .appendUpdate a _ _ => IsQueued q a ∨ q.elemNum ≠ 2 ^ 32 - 1
  | _ => True

instance (q : BliveQlist) (label : QlistCall × QlistRet) : Decidable (HasRoom q label) := by
  unfold HasRoom
  split <;> infer_instance

variable {q q' : BliveQlist} {s : Sequence}

theorem emptyQlist_represents : Represents emptyQlist ⟨[], none⟩ :=
  ⟨⟨LinkedRing.nil rfl rfl, by simp, by simp⟩, rfl, rfl, nofun⟩

theorem eq_emptyQlist_of_init (h : qlistSystem.init q) : q = emptyQlist :=
  (Option.some.inj (Prod.mk.inj h).2).symm

/-- A step of the pointer model is the sequence model's answer. -/
theorem Represents.step (h : Represents q s) {label : QlistCall × QlistRet}
    (taken : qlistSystem.step q label q') :
    label.2 = (s.call label.1).1 ∧ Represents q' (s.call label.1).2 := by
  obtain ⟨hmalloc, hcall⟩ := taken
  obtain ⟨q'', hcall', hrep⟩ := h.call hmalloc
  obtain ⟨hret, rfl⟩ := Prod.mk.inj (Option.some.inj (hcall.symm.trans hcall'))
  exact ⟨hret, hrep⟩

/-- Every reachable memory represents a sequence. -/
theorem exists_represents {guard : BliveQlist → QlistCall × QlistRet → Prop}
    {history : List (QlistCall × QlistRet)} (run : qlistSystem.Run guard history q) :
    ∃ s, Represents q s := by
  refine System.Run.invariant (I := fun _ q => ∃ s, Represents q s) ?_ ?_ run
  · intro q hinit
    exact ⟨_, eq_emptyQlist_of_init hinit ▸ emptyQlist_represents⟩
  · rintro _ q label q' - ⟨s, hrep⟩ - taken
    exact ⟨_, (hrep.step taken).2⟩

/-- A unit in the queue after a call was there before, or has the data of the call. -/
theorem Sequence.mem_call {s : Sequence} (haddr : (s.cells.map Cell.addr).Nodup)
    {call : QlistCall} {c : Cell} (hc : c ∈ (s.call call).2.cells) :
    c ∈ s.cells ∨ ∃ mem, call = .appendUpdate c.unit.anchorage c.unit.data mem := by
  cases call with
  | appendUpdate a d mem =>
      cases hlookup : s.lookup a with
      | some found =>
          obtain ⟨hfound, rfl⟩ := mem_of_lookup hlookup
          simp only [Sequence.call, hlookup, refresh] at hc
          obtain ⟨old, hold, rfl⟩ := List.mem_map.mp hc
          by_cases hsame : old.addr = found.addr
          · obtain rfl := List.inj_on_of_nodup_map haddr hold hfound hsame
            rw [if_pos rfl]
            exact Or.inr ⟨mem, rfl⟩
          · rw [if_neg hsame]
            exact Or.inl hold
      | none =>
          cases mem with
          | none => exact Or.inl (by simpa [Sequence.call, hlookup] using hc)
          | some x =>
              cases hplace : s.place ⟨x, ⟨a, d⟩⟩ with
              | none => exact Or.inl (by simpa [Sequence.call, hlookup, hplace] using hc)
              | some cells =>
                  obtain ⟨front, back, hcells, rfl⟩ := exists_of_place_eq_some hplace
                  simp only [Sequence.call, hlookup, hplace] at hc
                  rw [hcells]
                  rcases List.mem_append.mp hc with hfront | hback
                  · exact Or.inl (List.mem_append_left back hfront)
                  · rcases List.mem_cons.mp hback with rfl | hback
                    · exact Or.inr ⟨some x, rfl⟩
                    · exact Or.inl (List.mem_append_right front hback)
  | subtract a =>
      cases hlookup : s.lookup a with
      | none => exact Or.inl (by simpa [Sequence.call, hlookup] using hc)
      | some found =>
          simp only [Sequence.call, hlookup] at hc
          exact Or.inl (List.mem_of_mem_filter hc)
  | anchorageExistence a =>
      cases hlookup : s.lookup a with
      | none => exact Or.inl (by simpa [Sequence.call, hlookup] using hc)
      | some found => exact Or.inl (by simpa [Sequence.call, hlookup] using hc)

/-- A call leaves the units of other anchorages in the queue. -/
theorem Sequence.mem_call_of_ne {s : Sequence} (haddr : (s.cells.map Cell.addr).Nodup)
    {call : QlistCall} {c : Cell} (hc : c ∈ s.cells)
    (hne : c.unit.anchorage ≠ anchorageOf call) : c ∈ (s.call call).2.cells := by
  have hother : ∀ {found : Cell}, s.lookup (anchorageOf call) = some found →
      c.addr ≠ found.addr := by
    intro found hlookup hsame
    obtain ⟨hfound, hanchorage⟩ := mem_of_lookup hlookup
    obtain rfl := List.inj_on_of_nodup_map haddr hc hfound hsame
    exact hne hanchorage
  cases call with
  | appendUpdate a d mem =>
      cases hlookup : s.lookup a with
      | some found =>
          simp only [Sequence.call, hlookup, refresh]
          exact List.mem_map.mpr ⟨c, hc, if_neg (hother hlookup)⟩
      | none =>
          cases mem with
          | none => simpa [Sequence.call, hlookup] using hc
          | some x =>
              cases hplace : s.place ⟨x, ⟨a, d⟩⟩ with
              | none => simpa [Sequence.call, hlookup, hplace] using hc
              | some cells =>
                  obtain ⟨front, back, hcells, rfl⟩ := exists_of_place_eq_some hplace
                  simp only [Sequence.call, hlookup, hplace]
                  rw [hcells] at hc
                  rcases List.mem_append.mp hc with hfront | hback
                  · exact List.mem_append_left _ hfront
                  · exact List.mem_append_right front (List.mem_cons_of_mem _ hback)
  | subtract a =>
      cases hlookup : s.lookup a with
      | none => simpa [Sequence.call, hlookup] using hc
      | some found =>
          simp only [Sequence.call, hlookup]
          exact List.mem_filter.mpr ⟨hc, by simpa using hother hlookup⟩
  | anchorageExistence a =>
      cases hlookup : s.lookup a with
      | none => simpa [Sequence.call, hlookup] using hc
      | some found => simpa [Sequence.call, hlookup] using hc

/-- Whatever holds of all data that the calls of a run brought holds of the queued data. -/
theorem exists_represents_data {P : QlistUnitData → Prop}
    {guard : BliveQlist → QlistCall × QlistRet → Prop}
    (hguard : ∀ q label, guard q label → ∀ a d mem, label.1 = .appendUpdate a d mem → P d)
    {history : List (QlistCall × QlistRet)} (run : qlistSystem.Run guard history q) :
    ∃ s, Represents q s ∧ ∀ c ∈ s.cells, P c.unit.data := by
  refine System.Run.invariant
    (I := fun _ q => ∃ s, Represents q s ∧ ∀ c ∈ s.cells, P c.unit.data) ?_ ?_ run
  · intro q hinit
    exact ⟨_, eq_emptyQlist_of_init hinit ▸ emptyQlist_represents, by simp⟩
  · intro _ q label q' _ hprior hallowed taken
    obtain ⟨s, hrep, hdata⟩ := hprior
    refine ⟨_, (hrep.step taken).2, ?_⟩
    intro c hc
    rcases Sequence.mem_call hrep.addr_injOn hc with hold | ⟨mem, hcall⟩
    · exact hdata c hold
    · exact hguard q label hallowed _ _ mem hcall

namespace Represents

theorem ring_eq_line (h : Represents q s) : QList.ring q = some s.line := h.ring_eq

theorem isQueued_iff (h : Represents q s) {a : UInt32} :
    IsQueued q a ↔ a ∈ s.line.map Prod.fst := by
  simp [IsQueued, h.ring_eq_line]

theorem elemNum_eq_length (h : Represents q s) (hs : s.Sound) :
    q.elemNum.toNat = s.cells.length :=
  h.toNat_elemNum.trans hs.count_eq

/-- The counter is at its end exactly if the line has that many users. -/
theorem elemNum_eq_max_iff (h : Represents q s) (hs : s.Sound) :
    q.elemNum = 2 ^ 32 - 1 ↔ s.line.length = 2 ^ 32 - 1 := by
  rw [← UInt32.toNat_inj, h.elemNum_eq_length hs, Sequence.line, List.length_map]
  rfl

theorem traversal_eq_line (h : Represents q s) (hs : s.Sound) :
    traversal q false = some s.line := by
  rw [h.traversal_eq, hs.count_eq]
  simp [Sequence.directed, Sequence.line]

/-- One step with room keeps the sequence sound and is a step of its line. -/
theorem sound_step (h : Represents q s) (hs : s.Sound) {label : QlistCall × QlistRet}
    (hroom : HasRoom q label) (taken : qlistSystem.step q label q') :
    (s.call label.1).2.Sound ∧ Represents q' (s.call label.1).2 ∧
      LineStep s.line label.1 label.2 (s.call label.1).2.line := by
  obtain ⟨hret, hrep⟩ := h.step taken
  have hstep := hs.call_step h.addr_injOn label.1
  have hlength : ∀ t : Sequence, t.line.length = t.cells.length := fun t => by
    simp [Sequence.line]
  have hlen : (s.call label.1).2.line.length < 2 ^ 32 := by
    apply hstep.length_lt (hlength s ▸ hs.room)
    intro a d mem hcall habsent
    have hnum : q.elemNum ≠ 2 ^ 32 - 1 := by
      rw [HasRoom, hcall] at hroom
      exact hroom.resolve_left fun hq => habsent (h.isQueued_iff.mp hq)
    have hlt := hs.room
    rw [ne_eq, h.elemNum_eq_max_iff hs, hlength] at hnum
    rw [hlength]
    omega
  rw [hlength] at hlen
  exact ⟨⟨hstep.nodup hs.distinct, hlen⟩, hrep, hret ▸ hstep⟩

end Represents

/-- Every run that respects the counter reaches a sound sequence. -/
theorem exists_sound {guard : BliveQlist → QlistCall × QlistRet → Prop}
    (hroom : ∀ q label, guard q label → HasRoom q label)
    {history : List (QlistCall × QlistRet)} (run : qlistSystem.Run guard history q) :
    ∃ s, Represents q s ∧ s.Sound := by
  refine System.Run.invariant (I := fun _ q => ∃ s, Represents q s ∧ s.Sound) ?_ ?_ run
  · intro q hinit
    exact ⟨_, eq_emptyQlist_of_init hinit ▸ emptyQlist_represents,
      by simp [Sequence.line], by simp⟩
  · rintro _ q label q' - ⟨s, hrep, hs⟩ hallowed taken
    obtain ⟨hs', hrep', -⟩ := hrep.sound_step hs (hroom _ _ hallowed) taken
    exact ⟨_, hrep', hs'⟩

/-! ## Executions -/

/-- A test passed by an execution of the model is passed at the end of a run. -/
theorem exists_run (guard : BliveQlist → QlistCall × QlistRet → Prop)
    [∀ q label, Decidable (guard q label)] (calls : List QlistCall)
    (test : List (QlistCall × QlistRet) × BliveQlist → Bool)
    (h : (System.execute (System.callNext (fun q c => c.MallocContract q) QList.call guard)
      emptyQlist calls).any test = true) :
    ∃ history q, qlistSystem.Run guard history q ∧ test (history, q) = true :=
  System.Run.exists_of_execute System.callNext_sound rfl _ _ h

end BliveQueue.QList
