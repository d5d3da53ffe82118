/-
# The capacity of the counter

A newcomer of the common weight joins a queue of equal weights at the tail. With
enough memory a client can therefore queue every one of the `2 ^ 32` anchorages;
the last of these calls succeeds like the others and wraps `elem_num` to zero.
The guard `HasRoom` on runs leaves out exactly this last call.
-/

import Mathlib.Data.Fintype.EquivFin
import BliveQueue.QList.Line

namespace BliveQueue.QList

open BliveQueue.Math BliveQueue.Utils BliveQueue.Utils.QList

variable {q : BliveQlist} {s : Sequence} {new : Cell}

/-- Among equal weights a newcomer of that weight goes to the tail. -/
theorem Sequence.place_eq_concat (hcount : s.count = 0 → s.cells = [])
    (hequal : ∀ c ∈ s.cells, c.weight = new.weight) :
    s.place new = some (s.cells ++ [new]) := by
  by_cases hzero : s.count = 0
  · rw [place, if_pos hzero, hcount hzero]
    rfl
  · rw [place, if_neg hzero]
    cases hcells : s.cells with
    | nil => rfl
    | cons front rest =>
        have hweight : ∀ c ∈ front :: rest, c.weight = new.weight := fun c hc =>
          hequal c (hcells ▸ hc)
        have hfront : ¬ front.weight < new.weight := by
          rw [hweight front List.mem_cons_self]
          exact lt_irrefl _
        have hlast : new.weight ≤ (rest.getLastD front).weight :=
          (hweight _ List.getLastD_mem_cons).ge
        simp only [if_neg hfront, if_pos hlast]

/-- The line of the first `n` anchorages, all with the same data. -/
def anchoragesWith (d : QlistUnitData) (n : ℕ) : List Pair :=
  (List.range n).map fun i => (UInt32.ofNat i, d)

@[simp] theorem length_anchoragesWith (d : QlistUnitData) (n : ℕ) :
    (anchoragesWith d n).length = n := by
  simp [anchoragesWith]

theorem map_fst_anchoragesWith (d : QlistUnitData) (n : ℕ) :
    (anchoragesWith d n).map Prod.fst = (List.range n).map UInt32.ofNat := by
  simp [anchoragesWith]

theorem anchoragesWith_succ (d : QlistUnitData) (n : ℕ) :
    anchoragesWith d (n + 1) = anchoragesWith d n ++ [(UInt32.ofNat n, d)] := by
  simp [anchoragesWith, List.range_succ]

/-- The first `n` anchorages do not wrap. -/
theorem ofNat_notMem_range {n : ℕ} (hn : n < 2 ^ 32) :
    UInt32.ofNat n ∉ (List.range n).map UInt32.ofNat := by
  intro hmem
  obtain ⟨i, hi, heq⟩ := List.mem_map.mp hmem
  have hlt := List.mem_range.mp hi
  have hval := congrArg UInt32.toNat heq
  rw [UInt32.toNat_ofNat_of_lt' (hlt.trans hn), UInt32.toNat_ofNat_of_lt' hn] at hval
  exact absurd hval hlt.ne

/-- Queueing one more anchorage with the common data. -/
theorem exists_join (h : Represents q s) (hs : s.Sound) {d : QlistUnitData} {n : ℕ}
    (hn : n < 2 ^ 32) (hline : s.line = anchoragesWith d n) :
    ∃ x q' s', qlistSystem.step q
        (.appendUpdate (UInt32.ofNat n) d (some x), .errno .ok) q' ∧
      Represents q' s' ∧ s'.line = anchoragesWith d (n + 1) := by
  obtain ⟨x, hfresh⟩ := Infinite.exists_notMem_finset q.live
  let new : Cell := ⟨x, ⟨UInt32.ofNat n, d⟩⟩
  have hmalloc : QlistCall.MallocContract q
      (.appendUpdate (UInt32.ofNat n) d (some x)) := hfresh
  obtain ⟨q', hcall, hrep⟩ := h.call hmalloc
  have hlookup : s.lookup (UInt32.ofNat n) = none :=
    hs.lookup_eq_none_iff.mpr
      (by rw [hline, map_fst_anchoragesWith]; exact ofNat_notMem_range hn)
  have hplace : s.place new = some (s.cells ++ [new]) := by
    apply Sequence.place_eq_concat hs.count_eq_zero_iff.mp
    intro c hc
    have hpair : c.pair ∈ anchoragesWith d n := hline ▸ List.mem_map_of_mem hc
    obtain ⟨i, -, heq⟩ := List.mem_map.mp hpair
    show c.pair.2.weight.toNat = d.weight.toNat
    rw [← heq]
  have houtcome : s.call (.appendUpdate (UInt32.ofNat n) d (some x)) =
      (.errno .ok, ⟨s.cells ++ [new], s.tmp⟩) := by
    have hplace' : s.place ⟨x, ⟨UInt32.ofNat n, d⟩⟩ = _ := hplace
    simp [Sequence.call, hlookup, hplace']
  rw [houtcome] at hcall hrep
  refine ⟨x, q', _, ⟨hmalloc, hcall⟩, hrep, ?_⟩
  rw [anchoragesWith_succ, ← hline, Sequence.line, Sequence.line, List.map_append]
  rfl

/-- The steps of a client who queues newcomers with the common data. -/
def QueuesOnly (d : QlistUnitData) (q : BliveQlist) (label : QlistCall × QlistRet) : Prop :=
  HasRoom q label ∧ ∃ a mem, label.1 = .appendUpdate a d mem

/-- A client can queue any number of anchorages that the counter has room for. -/
theorem exists_filled (d : QlistUnitData) {n : ℕ} (hn : n < 2 ^ 32) :
    ∃ history q s, qlistSystem.Run (QueuesOnly d) history q ∧ Represents q s ∧ s.Sound ∧
      s.line = anchoragesWith d n := by
  induction n with
  | zero =>
      exact ⟨[], emptyQlist, ⟨[], none⟩, .start rfl, emptyQlist_represents,
        ⟨by simp [Sequence.line], by simp⟩, rfl⟩
  | succ n ih =>
      obtain ⟨history, q, s, run, h, hs, hline⟩ := ih (Nat.lt_of_succ_lt hn)
      obtain ⟨x, q', s', taken, h', hline'⟩ := exists_join h hs (Nat.lt_of_succ_lt hn) hline
      have hlength : s.line.length = n := by
        simpa using congrArg List.length hline
      have hroom : HasRoom q (.appendUpdate (UInt32.ofNat n) d (some x), .errno .ok) := by
        apply Or.inr
        intro hfull
        rw [h.elemNum_eq_max_iff hs, hlength] at hfull
        omega
      obtain ⟨hs', hrep', -⟩ := h.sound_step hs hroom taken
      have hsame : s'.line = (s.call (.appendUpdate (UInt32.ofNat n) d (some x))).2.line := by
        have hring := h'.ring_eq_line
        rw [hrep'.ring_eq_line] at hring
        exact (Option.some.inj hring).symm
      exact ⟨_, q', _, run.extend ⟨hroom, _, _, rfl⟩ taken, hrep', hs', hsame ▸ hline'⟩

theorem length_cells_of_line {s : Sequence} {d : QlistUnitData} {n : ℕ}
    (hline : s.line = anchoragesWith d n) : s.cells.length = n := by
  have hlength := congrArg List.length hline
  rwa [length_anchoragesWith, Sequence.line, List.length_map] at hlength

/-- A client can queue all anchorages; the last call wraps the counter. -/
theorem exists_wrapped :
    ∃ history q a x q' s', qlistSystem.Run HasRoom history q ∧
      traversal q false = some (anchoragesWith QlistUnitData.zero (2 ^ 32 - 1)) ∧
      qlistSystem.step q (.appendUpdate a QlistUnitData.zero (some x), .errno .ok) q' ∧
      Represents q' s' ∧ s'.line = anchoragesWith QlistUnitData.zero (2 ^ 32) ∧
      q'.elemNum = 0 := by
  obtain ⟨history, q, s, run, h, hs, hline⟩ :=
    exists_filled QlistUnitData.zero (n := 2 ^ 32 - 1) (by decide)
  obtain ⟨x, q', s', taken, h', hline'⟩ := exists_join h hs (by decide) hline
  have hrun : qlistSystem.Run HasRoom history q := run.mono fun _ _ hguard => hguard.1
  have hshown : traversal q false = some (anchoragesWith QlistUnitData.zero (2 ^ 32 - 1)) :=
    hline ▸ h.traversal_eq_line hs
  refine ⟨history, q, _, x, q', s', hrun, hshown, taken, h', hline', ?_⟩
  rw [h'.count, length_cells_of_line hline']
  rfl

/-- A ring of 2^32 units of weight zero, which `elem_num` counts as none. -/
theorem exists_weightless_wrapped :
    ∃ history q s, qlistSystem.Trace history q ∧ Represents q s ∧ q.elemNum = 0 ∧
      s.cells.length = 2 ^ 32 ∧ ∀ c ∈ s.cells, c.weight = 0 := by
  obtain ⟨history, q, a, x, q', s, run, -, taken, h, hline, hnum⟩ := exists_wrapped
  refine ⟨_, q', s, run.trace.extend trivial taken, h, hnum, length_cells_of_line hline, ?_⟩
  intro c hc
  have hpair : c.pair ∈ anchoragesWith QlistUnitData.zero (2 ^ 32) :=
    hline ▸ List.mem_map_of_mem hc
  obtain ⟨i, -, heq⟩ := List.mem_map.mp hpair
  show c.pair.2.weight.toNat = 0
  rw [← heq]
  rfl

end BliveQueue.QList
