/-
# Lookups are inert

A lookup changes nothing but the remembered unit, and the remembered unit steers
the search of later insertions. On an ordered queue that has no effect: what a
call answers and which line it leaves depend on the line alone. So two runs that
make the same calls, one of them with lookups in between, cannot be told apart,
as long as the queue stays ordered.
-/

import BliveQueue.QList.Order

namespace BliveQueue.QList

open BliveQueue.Math BliveQueue.Utils BliveQueue.Utils.QList

variable {q q' : BliveQlist} {s : Sequence}

/-- What a call answers on an ordered line, and the line it leaves. -/
def orderedCall (line : List Pair) : QlistCall → QlistRet × List Pair
  | .appendUpdate a d mem =>
    if a ∈ line.map Prod.fst then (.errno .ok, replaceData a d line)
    else if mem = none then (.errno .outOfMem, line)
    else if Blocked Pair.weight d.weight.toNat line then (.errno .unknown, line)
    else (.errno .ok, stableInsert Pair.weight (a, d) line)
  | .subtract a =>
    if a ∈ line.map Prod.fst then (.errno .ok, dropAnchorage a line)
    else (.errno .resource, line)
  | .anchorageExistence a => (.bool (decide (a ∈ line.map Prod.fst)), line)

/-- On an ordered sequence the line determines the outcome of every call. -/
theorem Sequence.Ordered.orderedCall_eq (hs : s.Ordered) (haddr : (s.cells.map Cell.addr).Nodup)
    (call : QlistCall) :
    ((s.call call).1, (s.call call).2.line) = orderedCall s.line call := by
  cases call with
  | appendUpdate a d mem =>
      cases hlookup : s.lookup a with
      | some c =>
          rw [orderedCall, if_pos (mem_line_of_lookup hlookup), hs.line_call_refresh haddr hlookup]
          simp [Sequence.call, hlookup]
      | none =>
          rw [orderedCall, if_neg (hs.lookup_eq_none_iff.mp hlookup)]
          cases mem with
          | none => simp [Sequence.call, hlookup]
          | some x =>
              rw [if_neg (Option.some_ne_none x)]
              have hblocked : s.place ⟨x, ⟨a, d⟩⟩ = none ↔
                  Blocked Pair.weight d.weight.toNat s.line := by
                rw [place_eq_none_iff_blocked hs.order hs.count_eq_zero_iff.mp, line,
                  blocked_map_iff]
                rfl
              cases hplace : s.place ⟨x, ⟨a, d⟩⟩ with
              | none =>
                  rw [if_pos (hblocked.mp hplace)]
                  simp [Sequence.call, hlookup, hplace]
              | some cells =>
                  have hfree : ¬ Blocked Pair.weight d.weight.toNat s.line := fun h => by
                    simp [hblocked.mpr h] at hplace
                  have hstable : stableInsert Pair.weight (a, d) s.line =
                      (stableInsert Cell.weight ⟨x, ⟨a, d⟩⟩ s.cells).map Cell.pair :=
                    stableInsert_map Cell.pair ⟨x, ⟨a, d⟩⟩ s.cells
                  rw [if_neg hfree, hstable,
                    ← place_eq_stableInsert hs.order hs.count_eq_zero_iff.mp hplace]
                  simp [Sequence.call, hlookup, hplace, line]
  | subtract a =>
      cases hlookup : s.lookup a with
      | none =>
          rw [orderedCall, if_neg (hs.lookup_eq_none_iff.mp hlookup)]
          simp [Sequence.call, hlookup]
      | some c =>
          rw [orderedCall, if_pos (mem_line_of_lookup hlookup), hs.line_call_leave haddr hlookup]
          simp [Sequence.call, hlookup]
  | anchorageExistence a =>
      cases hlookup : s.lookup a with
      | none =>
          simp [orderedCall, Sequence.call, hlookup, hs.lookup_eq_none_iff.mp hlookup]
      | some c =>
          rw [orderedCall, decide_eq_true (mem_line_of_lookup hlookup)]
          simp [Sequence.call, hlookup, line]

/-! ## Two runs -/

/-- The call up to the address that `zero_alloc` answers. -/
def request : QlistCall → QlistCall
  | .appendUpdate a d mem => .appendUpdate a d (mem.map fun _ => 0)
  | c => c

/-- The call only asks. -/
def isLookup : QlistCall → Bool
  | .anchorageExistence _ => true
  | _ => false

/-- The calls of a history that are not lookups, with their answers. -/
def withoutLookups (history : List (QlistCall × QlistRet)) : List (QlistCall × QlistRet) :=
  history.filter fun label => !isLookup label.1

theorem withoutLookups_concat (history : List (QlistCall × QlistRet))
    (label : QlistCall × QlistRet) :
    withoutLookups (history ++ [label]) =
      withoutLookups history ++ if isLookup label.1 then [] else [label] := by
  by_cases hlook : isLookup label.1 <;> simp [withoutLookups, hlook]

theorem orderedCall_request (line : List Pair) (call : QlistCall) :
    orderedCall line (request call) = orderedCall line call := by
  cases call with
  | appendUpdate a d mem => cases mem <;> simp [orderedCall, request]
  | subtract a => rfl
  | anchorageExistence a => rfl

/-- Whether a step keeps the order depends on the line and the request alone. -/
theorem Represents.keepsOrder_iff (h : Represents q s) (hs : s.Sound)
    {label : QlistCall × QlistRet} :
    KeepsOrder q label ↔
      ∀ a d mem, request label.1 = .appendUpdate a d mem →
        (a ∈ s.line.map Prod.fst ∨ s.line.length ≠ 2 ^ 32 - 1) ∧
          (a ∈ s.line.map Prod.fst → Fits a d s.line) := by
  have hnum : q.elemNum ≠ 2 ^ 32 - 1 ↔ s.line.length ≠ 2 ^ 32 - 1 := by
    have hlen : s.line.length = q.elemNum.toNat := by
      rw [h.elemNum_eq_length hs, Sequence.line, List.length_map]
    rw [hlen, not_iff_not]
    exact ⟨fun heq => congrArg UInt32.toNat heq, fun heq => UInt32.toNat_inj.mp heq⟩
  obtain ⟨call, ret⟩ := label
  cases call with
  | appendUpdate a d mem =>
      simp only [KeepsOrder, HasRoom, h.isQueued_iff, h.ring_eq_line, hnum, request,
        Option.mem_def, Option.some.injEq, forall_eq', QlistCall.appendUpdate.injEq, and_imp]
      exact ⟨fun hkeeps a' d' _ ha hd _ => ha ▸ hd ▸ hkeeps, fun hkeeps =>
        hkeeps a d _ rfl rfl rfl⟩
  | subtract a => simp [KeepsOrder, HasRoom, request]
  | anchorageExistence a => simp [KeepsOrder, HasRoom, request]

/-- A step on an ordered sequence follows the line. -/
theorem Represents.orderedCall_step (h : Represents q s) (hs : s.Ordered)
    {label : QlistCall × QlistRet} (hkeeps : KeepsOrder q label)
    (taken : qlistSystem.step q label q') :
    ∃ s', Represents q' s' ∧ s'.Ordered ∧ (label.2, s'.line) = orderedCall s.line label.1 := by
  obtain ⟨hs', hrep⟩ := h.ordered_step hs hkeeps taken
  refine ⟨_, hrep, hs', ?_⟩
  rw [(h.step taken).1]
  exact hs.orderedCall_eq h.addr_injOn label.1

/-- The run with lookups follows the run without: same answers, same line. -/
theorem exists_same_line {history history' : List (QlistCall × QlistRet)}
    (run : qlistSystem.Run KeepsOrder history q) (run' : qlistSystem.Trace history' q')
    (hsame : (withoutLookups history').map (request ∘ Prod.fst) =
      history.map (request ∘ Prod.fst)) :
    (withoutLookups history').map Prod.snd = history.map Prod.snd ∧
      ∃ s s', Represents q s ∧ Represents q' s' ∧ s.Ordered ∧ s'.Ordered ∧ s'.line = s.line := by
  induction run' generalizing history q with
  | start initial =>
      obtain rfl : history = [] := by simpa [withoutLookups] using hsame.symm
      obtain ⟨s, hrep, hs⟩ := exists_ordered (fun _ _ h => h) run
      obtain rfl := eq_emptyQlist_of_init initial
      obtain rfl := eq_emptyQlist_of_init run.init_of_nil
      exact ⟨rfl, s, s, hrep, hrep, hs, hs, rfl⟩
  | @extend history' q' q'' label' prior' _ taken' ih =>
      rw [withoutLookups_concat] at hsame ⊢
      by_cases hlook : isLookup label'.1
      · -- a lookup: the run without it does not move
        simp only [hlook, ↓reduceIte, List.append_nil] at hsame ⊢
        obtain ⟨hrets, s, s', hrep, hrep', hs, hs', hline⟩ := ih run hsame
        have hkeeps : KeepsOrder q' label' := by
          obtain ⟨call, ret⟩ := label'
          cases call with
          | anchorageExistence a => exact ⟨trivial, trivial⟩
          | _ => simp [isLookup] at hlook
        obtain ⟨s'', hrep'', hs'', houtcome⟩ := hrep'.orderedCall_step hs' hkeeps taken'
        refine ⟨hrets, s, s'', hrep, hrep'', hs, hs'', ?_⟩
        obtain ⟨call, ret⟩ := label'
        cases call with
        | anchorageExistence a => exact (Prod.mk.inj houtcome).2.trans hline
        | _ => simp [isLookup] at hlook
      · -- any other call: both runs make it, on the same line
        simp only [hlook, ↓reduceIte, Bool.false_eq_true, List.map_append] at hsame ⊢
        obtain ⟨history, label, rfl⟩ : ∃ init last, history = init ++ [last] := by
          rcases List.eq_nil_or_concat history with rfl | ⟨init, last, rfl⟩
          · simp at hsame
          · exact ⟨init, last, by simp⟩
        rw [List.map_append] at hsame
        obtain ⟨hprior, hlast⟩ := List.append_inj' hsame rfl
        have hrequest : request label'.1 = request label.1 := by simpa using hlast
        obtain ⟨q₀, run₀, hkeeps, taken⟩ := run.exists_of_concat
        obtain ⟨hrets, s, s', hrep, hrep', hs, hs', hline⟩ := ih run₀ hprior
        have hkeeps' : KeepsOrder q' label' := by
          rw [hrep'.keepsOrder_iff hs'.toSound, hline, hrequest]
          exact (hrep.keepsOrder_iff hs.toSound).mp hkeeps
        obtain ⟨t, hrept, ht, houtcome⟩ := hrep.orderedCall_step hs hkeeps taken
        obtain ⟨t', hrept', ht', houtcome'⟩ := hrep'.orderedCall_step hs' hkeeps' taken'
        have hoc : (label'.2, t'.line) = (label.2, t.line) := by
          rw [houtcome, houtcome', hline, ← orderedCall_request, hrequest, orderedCall_request]
        obtain ⟨hret, hline'⟩ := Prod.mk.inj hoc
        exact ⟨by simp [hrets, hret], t, t', hrept, hrept', ht, ht', hline'⟩

/-- Lookups are inert: between two runs that make the same appends and removals,
the first without lookups and with the order kept, no answer and no traversal
tells them apart. -/
theorem lookups_inert {history history' : List (QlistCall × QlistRet)}
    (run : qlistSystem.Run KeepsOrder history q) (run' : qlistSystem.Trace history' q')
    (hsame : (withoutLookups history').map (request ∘ Prod.fst) =
      history.map (request ∘ Prod.fst)) :
    (withoutLookups history').map Prod.snd = history.map Prod.snd ∧
      ∃ line, traversal q false = some line ∧ traversal q' false = some line := by
  obtain ⟨hrets, s, s', hrep, hrep', hs, hs', hline⟩ := exists_same_line run run' hsame
  exact ⟨hrets, s.line, hrep.traversal_eq_line hs.toSound,
    hline ▸ hrep'.traversal_eq_line hs'.toSound⟩

/-- Weights 9, 5, 5, 1 join, the first two are lowered to 3 and 1, and a fifth
user of weight 3 joins; `asked` are the lookups in front of that. -/
def loweredThenJoin (asked : List QlistCall) : List QlistCall :=
  [.appendUpdate 1 (ofWeight 9) (some 0), .appendUpdate 2 (ofWeight 5) (some 1),
    .appendUpdate 3 (ofWeight 5) (some 2), .appendUpdate 4 (ofWeight 1) (some 3),
    .appendUpdate 1 (ofWeight 3) none, .appendUpdate 2 (ofWeight 1) none] ++
  asked ++ [.appendUpdate 5 (ofWeight 3) (some 4)]

/-- Once a refresh has broken the order, a lookup decides about a newcomer: without
it the newcomer is refused, behind a lookup of the last user it is let in. -/
theorem exists_runs_told_apart :
    ¬ ∀ history history' q q', qlistSystem.Trace history q → qlistSystem.Trace history' q' →
      (∀ label ∈ history, isLookup label.1 = false) →
      (withoutLookups history').map (request ∘ Prod.fst) =
        history.map (request ∘ Prod.fst) →
      (withoutLookups history').map Prod.snd = history.map Prod.snd ∧
        ∃ line, traversal q false = some line ∧ traversal q' false = some line := by
  intro hevery
  obtain ⟨history, q, run, htest⟩ := exists_run System.anyStep (loweredThenJoin [])
    (fun r => r.1.map Prod.fst = loweredThenJoin [] ∧
      r.1.map Prod.snd = List.replicate 6 (.errno .ok) ++ [.errno .unknown])
    (by decide +kernel)
  obtain ⟨history', q', run', htest'⟩ := exists_run System.anyStep
    (loweredThenJoin [.anchorageExistence 4])
    (fun r => (withoutLookups r.1).map Prod.fst = loweredThenJoin [] ∧
      (withoutLookups r.1).map Prod.snd = List.replicate 7 (.errno .ok))
    (by decide +kernel)
  obtain ⟨hcalls, hrets⟩ := of_decide_eq_true htest
  obtain ⟨hcalls', hrets'⟩ := of_decide_eq_true htest'
  have hlookups : ∀ label ∈ history, isLookup label.1 = false := by
    intro label hlabel
    have hall : ∀ c ∈ loweredThenJoin [], isLookup c = false := by decide +kernel
    exact hall _ (hcalls ▸ List.mem_map_of_mem hlabel)
  have hsame := (hevery history history' q q' run run' hlookups (by
    rw [← List.map_map, ← List.map_map, hcalls, hcalls'])).1
  rw [hrets, hrets'] at hsame
  exact absurd hsame (by decide)

/-- Two runs of an ordered queue, one with a lookup. -/
theorem lookups_inert_of_two_joins :
    ∃ history history' q q', qlistSystem.Run KeepsOrder history q ∧
      qlistSystem.Trace history' q' ∧ history' ≠ history ∧
      (withoutLookups history').map Prod.snd = history.map Prod.snd ∧
      ∃ line, traversal q false = some line ∧ traversal q' false = some line := by
  obtain ⟨history, q, run, htest⟩ := exists_run KeepsOrder
    [.appendUpdate 1 (ofWeight 5) (some 0), .appendUpdate 2 (ofWeight 1) (some 1)]
    (fun r => r.1.map Prod.fst =
      [.appendUpdate 1 (ofWeight 5) (some 0), .appendUpdate 2 (ofWeight 1) (some 1)])
    (by decide +kernel)
  obtain ⟨history', q', run', htest'⟩ := exists_run System.anyStep
    [.appendUpdate 1 (ofWeight 5) (some 0), .anchorageExistence 1,
      .appendUpdate 2 (ofWeight 1) (some 1)]
    (fun r => r.1.length = 3 ∧ (withoutLookups r.1).map Prod.fst =
      [.appendUpdate 1 (ofWeight 5) (some 0), .appendUpdate 2 (ofWeight 1) (some 1)])
    (by decide +kernel)
  have hcalls := of_decide_eq_true htest
  obtain ⟨hlength, hcalls'⟩ := of_decide_eq_true htest'
  refine ⟨history, history', q, q', run, run', ?_, lookups_inert run run' ?_⟩
  · rintro rfl
    have := congrArg List.length hcalls
    rw [List.length_map, hlength] at this
    exact absurd this (by decide)
  · rw [← List.map_map, ← List.map_map, hcalls, hcalls']

end BliveQueue.QList
