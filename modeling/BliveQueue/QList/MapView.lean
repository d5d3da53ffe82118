/-
# The queue as a finite map

Forgetting the order, the queue is a finite map from anchorages to data, and the
map is determined by the call history: the most recent successful call on an
anchorage decides whether it is present and which data it carries. The map view
holds in every run in which the counter never wraps, whatever the allocator
answers.
-/

import BliveQueue.QList.Capacity

namespace BliveQueue.QList

open BliveQueue.Math BliveQueue.Utils BliveQueue.Utils.QList

variable {q q' : BliveQlist} {s : Sequence}

/-- The most recent call on an anchorage that returned `BLIVE_ERR_OK`. -/
def lastOk (history : List (QlistCall × QlistRet)) (a : UInt32) : Option QlistCall :=
  (history.reverse.find? fun label => anchorageOf label.1 = a ∧ label.2 = .errno .ok).map
    Prod.fst

/-- The data of that call, if it was a `qlist_append_update`. -/
def stored (history : List (QlistCall × QlistRet)) (a : UInt32) : Option QlistUnitData :=
  match lastOk history a with
  | some (.appendUpdate _ d _) => some d
  | _ => none

theorem lastOk_concat (history : List (QlistCall × QlistRet)) (call : QlistCall)
    (ret : QlistRet) (a : UInt32) :
    lastOk (history ++ [(call, ret)]) a =
      if anchorageOf call = a ∧ ret = .errno .ok then some call else lastOk history a := by
  by_cases h : anchorageOf call = a ∧ ret = .errno .ok <;> simp [lastOk, h]

/-- A call that does not succeed leaves the map alone. -/
theorem stored_concat_of_ne_ok {history : List (QlistCall × QlistRet)} {call : QlistCall}
    {ret : QlistRet} (h : ret ≠ .errno .ok) (a : UInt32) :
    stored (history ++ [(call, ret)]) a = stored history a := by
  rw [stored, lastOk_concat, if_neg fun hok => h hok.2, stored]

/-- A call that succeeds decides about its anchorage alone. -/
theorem stored_concat_of_ok (history : List (QlistCall × QlistRet)) (call : QlistCall)
    (b : UInt32) :
    stored (history ++ [(call, .errno .ok)]) b =
      if anchorageOf call = b then
        match call with
        | .appendUpdate _ d _ => some d
        | _ => none
      else stored history b := by
  rw [stored, lastOk_concat]
  by_cases hab : anchorageOf call = b
  · rw [if_pos ⟨hab, rfl⟩, if_pos hab]
    cases call <;> rfl
  · rw [if_neg fun h => hab h.1, if_neg hab, stored]

theorem stored_concat_append (history : List (QlistCall × QlistRet)) (a b : UInt32)
    (d : QlistUnitData) (mem : Option Addr) :
    stored (history ++ [(.appendUpdate a d mem, .errno .ok)]) b =
      if a = b then some d else stored history b :=
  stored_concat_of_ok history (.appendUpdate a d mem) b

theorem stored_concat_subtract (history : List (QlistCall × QlistRet)) (a b : UInt32) :
    stored (history ++ [(.subtract a, .errno .ok)]) b =
      if a = b then none else stored history b :=
  stored_concat_of_ok history (.subtract a) b

/-! ## Lines that hold a map -/

/-- The pairs of the line are exactly the entries of the map. -/
def HoldsMap (line : List Pair) (m : UInt32 → Option QlistUnitData) : Prop :=
  ∀ a d, (a, d) ∈ line ↔ m a = some d

theorem HoldsMap.isSome_iff {line : List Pair} {m : UInt32 → Option QlistUnitData}
    (h : HoldsMap line m) (a : UInt32) : (m a).isSome ↔ a ∈ line.map Prod.fst := by
  rw [Option.isSome_iff_exists]
  constructor
  · rintro ⟨d, hd⟩
    exact List.mem_map_of_mem (f := Prod.fst) ((h a d).mpr hd)
  · intro hmem
    obtain ⟨⟨b, d⟩, hp, rfl⟩ := List.mem_map.mp hmem
    exact ⟨d, (h b d).mp hp⟩

theorem mem_replaceData_iff {a b : UInt32} {d e : QlistUnitData} {line : List Pair} :
    (b, e) ∈ replaceData a d line ↔
      if a = b then e = d ∧ a ∈ line.map Prod.fst else (b, e) ∈ line := by
  rw [replaceData, List.mem_map]
  by_cases hab : a = b
  · subst hab
    rw [if_pos rfl]
    constructor
    · rintro ⟨p, hp, heq⟩
      by_cases hpa : p.1 = a
      · rw [if_pos hpa] at heq
        exact ⟨(Prod.mk.inj heq).2.symm, hpa ▸ List.mem_map_of_mem hp⟩
      · rw [if_neg hpa] at heq
        exact absurd (congrArg Prod.fst heq) hpa
    · rintro ⟨rfl, hmem⟩
      obtain ⟨p, hp, rfl⟩ := List.mem_map.mp hmem
      exact ⟨p, hp, if_pos rfl⟩
  · rw [if_neg hab]
    constructor
    · rintro ⟨p, hp, heq⟩
      by_cases hpa : p.1 = a
      · rw [if_pos hpa] at heq
        exact absurd (congrArg Prod.fst heq) hab
      · rw [if_neg hpa] at heq
        exact heq ▸ hp
    · exact fun hp => ⟨_, hp, if_neg fun h => hab h.symm⟩

/-- Every step of a line with distinct anchorages keeps the map view. -/
theorem LineStep.holdsMap {line line' : List Pair} {call : QlistCall} {ret : QlistRet}
    {history : List (QlistCall × QlistRet)} (step : LineStep line call ret line')
    (h : HoldsMap line (stored history)) :
    HoldsMap line' (stored (history ++ [(call, ret)])) := by
  intro b e
  cases step with
  | @refresh _ a d mem queued =>
      rw [stored_concat_append, mem_replaceData_iff]
      by_cases hab : a = b
      · rw [if_pos hab, if_pos hab, Option.some.injEq]
        exact ⟨fun heq => heq.1.symm, fun heq => ⟨heq.symm, queued⟩⟩
      · simpa [if_neg hab] using h b e
  | @join front back a d mem absent =>
      rw [stored_concat_append]
      by_cases hab : a = b
      · subst hab
        have hout : (a, e) ∉ front ++ back := fun hmem =>
          absent (List.mem_map_of_mem (f := Prod.fst) hmem)
        have hiff : (a, e) ∈ front ++ (a, d) :: back ↔ e = d ∨ (a, e) ∈ front ++ back := by
          simp [or_left_comm]
        rw [hiff, if_pos rfl, or_iff_left hout, Option.some.injEq, eq_comm]
      · have hiff : (b, e) ∈ front ++ (a, d) :: back ↔ (b, e) ∈ front ++ back := by
          simp [Ne.symm hab]
        rw [hiff, if_neg hab]
        exact h b e
  | @leave _ a queued =>
      rw [stored_concat_subtract, dropAnchorage, List.mem_filter]
      by_cases hab : a = b
      · simp [hab]
      · simpa [if_neg hab, Ne.symm hab] using h b e
  | outOfMem | refuse | missing | look =>
      rw [stored_concat_of_ne_ok (by simp)]
      exact h b e

/-- A step that returns an error moves nothing. -/
theorem LineStep.eq_of_error {line line' : List Pair} {call : QlistCall} {e : BliveErrno}
    (step : LineStep line call (.errno e) line') (h : e ≠ .ok) : line' = line := by
  cases step with
  | refresh | join | leave => exact absurd rfl h
  | outOfMem | refuse | missing => rfl

/-! ## Runs -/

/-- Every run with room reaches a sound sequence that holds the map of its history. -/
theorem exists_holdsMap {history : List (QlistCall × QlistRet)}
    (run : qlistSystem.Run HasRoom history q) :
    ∃ s, Represents q s ∧ s.Sound ∧ HoldsMap s.line (stored history) := by
  refine System.Run.invariant (I := fun history q =>
    ∃ s, Represents q s ∧ s.Sound ∧ HoldsMap s.line (stored history)) ?_ ?_ run
  · intro q hinit
    refine ⟨⟨[], none⟩, eq_emptyQlist_of_init hinit ▸ emptyQlist_represents,
      ⟨by simp [Sequence.line], by simp⟩, fun a d => ?_⟩
    simp [Sequence.line, stored, lastOk]
  · rintro history q label q' - ⟨s, h, hs, hmap⟩ hroom taken
    obtain ⟨hs', h', step⟩ := h.sound_step hs hroom taken
    exact ⟨_, h', hs', step.holdsMap hmap⟩

/-- An error moves nothing and does not count. -/
theorem Represents.unchanged_of_error (h : Represents q s) (hs : s.Sound) {call : QlistCall}
    (hmalloc : call.MallocContract q) {e : BliveErrno}
    (hcall : QList.call q call = some (.errno e, q')) (herror : e ≠ .ok) :
    QList.ring q' = QList.ring q ∧ traversal q' false = traversal q false ∧
      q'.elemNum = q.elemNum := by
  have taken : qlistSystem.step q (call, .errno e) q' := ⟨hmalloc, hcall⟩
  obtain ⟨hret, h'⟩ := h.step taken
  have step := hs.call_step h.addr_injOn call
  rw [← hret] at step
  have hline := step.eq_of_error herror
  have hlength : (s.call call).2.cells.length = s.cells.length := by
    simpa [Sequence.line] using congrArg List.length hline
  have hs' : (s.call call).2.Sound := ⟨hline ▸ hs.distinct, hlength ▸ hs.room⟩
  refine ⟨?_, ?_, ?_⟩
  · rw [h.ring_eq_line, h'.ring_eq_line, hline]
  · rw [h.traversal_eq_line hs, h'.traversal_eq_line hs', hline]
  · rw [h.count, h'.count, hlength]

/-- The state answers as the finite map of its history does. -/
structure MapView (history : List (QlistCall × QlistRet)) (q : BliveQlist) : Prop where
  /-- A lookup succeeds exactly on the present anchorages. -/
  existence : ∀ a, (qlistAnchorageExistence q a).map Prod.fst = some (stored history a).isSome
  /-- The traversal shows exactly the stored data. -/
  data : ∃ line, traversal q false = some line ∧
    ∀ a d, (a, d) ∈ line ↔ stored history a = some d
  /-- A removal succeeds exactly on the present anchorages. -/
  removal : ∀ a, (qlistSubtract q a).map Prod.fst =
    some (if (stored history a).isSome then .ok else .resource)
  /-- A call that returns an error moves nothing. -/
  errors : ∀ (c : QlistCall) (e : BliveErrno) (q' : BliveQlist), c.MallocContract q →
    QList.call q c = some (.errno e, q') → e ≠ .ok →
      QList.ring q' = QList.ring q ∧ traversal q' false = traversal q false ∧
        q'.elemNum = q.elemNum

/-- The queue refines a finite map as long as its counter does not wrap. -/
theorem refines_map {history : List (QlistCall × QlistRet)}
    (run : qlistSystem.Run HasRoom history q) : MapView history q := by
  obtain ⟨s, h, hs, hmap⟩ := exists_holdsMap run
  have hlookup : ∀ a, (stored history a).isSome = (s.lookup a).isSome := by
    intro a
    rw [Bool.eq_iff_iff, hmap.isSome_iff, Option.isSome_iff_ne_none, ne_eq,
      hs.lookup_eq_none_iff, not_not]
  refine ⟨fun a => ?_, ⟨s.line, h.traversal_eq_line hs, hmap⟩, fun a => ?_,
    fun c e q' hmalloc hcall herror => h.unchanged_of_error hs hmalloc hcall herror⟩
  · rw [hlookup]
    cases hl : s.lookup a <;> simp [qlistAnchorageExistence, h.qlistSearch_eq, hl]
  · have hmalloc : QlistCall.MallocContract q (.subtract a) := trivial
    obtain ⟨q', hcall, -⟩ := h.call hmalloc
    obtain ⟨r, hrun, hret⟩ := Option.map_eq_some_iff.mp hcall
    rw [hlookup, hrun, Option.map_some]
    cases hl : s.lookup a <;> simp_all [Sequence.call]

/-- A refused allocation, a refresh and a removal, seen through the map. -/
theorem refines_map_after_removal :
    ∃ history q, qlistSystem.Run HasRoom history q ∧
      history.map Prod.snd = [.errno .ok, .errno .outOfMem, .errno .ok, .errno .ok, .errno .ok] ∧
      MapView history q := by
  obtain ⟨history, q, run, htest⟩ := exists_run HasRoom
    [.appendUpdate 1 (QlistUnitData.zero) (some 0), .appendUpdate 2 QlistUnitData.zero none,
      .appendUpdate 2 QlistUnitData.zero (some 1), .appendUpdate 1 QlistUnitData.zero none,
      .subtract 2]
    (fun r => r.1.map Prod.snd =
      [.errno .ok, .errno .outOfMem, .errno .ok, .errno .ok, .errno .ok])
    (by decide +kernel)
  exact ⟨history, q, run, of_decide_eq_true htest, refines_map run⟩

/-- Once all anchorages are queued the counter is zero, and a lookup of the
anchorage that was queued last fails. -/
theorem exists_run_without_mapView :
    ¬ ∀ history q, qlistSystem.Trace history q → MapView history q := by
  intro hevery
  obtain ⟨history, q, a, x, q', s', run, -, taken, -, -, hnum⟩ := exists_wrapped
  have hview := (hevery _ q' (run.trace.extend trivial taken)).existence a
  rw [stored_concat_append, if_pos rfl] at hview
  simp [qlistAnchorageExistence, qlistSearch, hnum] at hview

end BliveQueue.QList
