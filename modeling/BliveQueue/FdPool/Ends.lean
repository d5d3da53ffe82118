/-
# A walk left alone ends

Callbacks may leave a dispatch anywhere in the table: at an entry that was removed, in a
bucket that the table has moved, or behind entries that were added in front of it. As long
as nobody changes the table any more, the walk comes to its end from there. A removed entry
ends it at once. Otherwise it follows the bucket of its entry, which gets shorter with every
step although temporary entries are taken out of it, and then the buckets that are left.
-/

import Mathlib.Logic.Relation
import BliveQueue.Engine.Moves
import BliveQueue.FdPool.MapView

namespace BliveQueue.FdPool

open BliveQueue.Engine (IsPool)
open BliveQueue.Hash BliveQueue.Math BliveQueue.Math.LinkedChain BliveQueue.Utils
open BliveQueue.Utils.FdPool BliveQueue.Utils.Hash BliveQueue.Utils.Select

variable {t t' : FdPoll} {chain : ℕ → List EntryPtr} {recycled pre suf post : List EntryPtr}
variable {s s' : Round} {r : Registry} {p : EntryPtr} {j : ℕ} {obs : Observation}
variable {readFds : List Fd} {history : List (Round.Action × Observation)}

/-- Some statements of the walk lead from one state to the other. -/
def Walks : Round → Round → Prop :=
  Relation.ReflTransGen fun s s' => ∃ obs, s.advance = some (obs, s')

theorem Walks.head {s₁ : Round} (h : s.advance = some (obs, s₁)) (walks : Walks s₁ s') :
    Walks s s' :=
  Relation.ReflTransGen.head ⟨obs, h⟩ walks

/-- In front of the rest of a bucket. -/
structure InBucket (s : Round) (chain : ℕ → List EntryPtr) (recycled : List EntryPtr) (j : ℕ)
    (suf : List EntryPtr) : Prop where
  pool : Pool s.fdPoll chain recycled
  cut : ∃ pre, chain j = pre ++ suf
  pc : s.pc = .visiting suf.head?

/-- From one entry of a bucket the walk comes to the next. -/
theorem InBucket.exists_next (h : InBucket s chain recycled j (p :: post)) :
    ∃ s' chain' recycled', Walks s s' ∧ InBucket s' chain' recycled' j post ∧
      s'.index = s.index ∧ s'.fdPoll.max = s.fdPoll.max := by
  obtain ⟨hpool, ⟨pre, hcut⟩, hpc⟩ := h
  have hp : p ∈ chain j := by simp [hcut]
  have hcut' : chain j = (pre ++ [p]) ++ post := by simp [hcut]
  obtain ⟨fd, temporary, hvalid, hd⟩ := hpool.holds p ⟨j, hp⟩
  have hfd := fdOf_of_data hd
  obtain ⟨e, he, hdata, hnextp⟩ := exists_entry_of_dataOf hd
  have hvalue : e.value = some ⟨fd, temporary⟩ := congrArg EntryData.value hdata
  have hnext : e.next = post.head? := by
    have hpath := hpool.chained.bucket j (hpool.chained.lt_slots hp)
    rw [hcut] at hpath
    obtain ⟨mid, -, -, hrest⟩ := path_append.mp hpath
    exact hnextp ▸ hrest.start_eq_head?
  by_cases hread : fd ∈ s.readFds
  · cases temporary with
    | false =>
        have hcall : s.advance = some (.invoked fd,
            { s with pc := .inCallback fd e.next, invoked := s.invoked ++ [fd] }) := by
          simp [Round.advance, hpc, he, hvalue, hread, Round.popTemporary]
        exact ⟨_, chain, recycled, Walks.head hcall (.single ⟨_, rfl⟩),
          ⟨hpool, ⟨_, hcut'⟩, congrArg RoundPc.visiting hnext⟩, rfl, rfl⟩
    | true =>
        -- the entry leaves its bucket, and what is left of the bucket stays as it is
        obtain ⟨ret, t', chain', recycled', hpop, hdeletes, hpool'⟩ := hpool.hashPop hvalid
        have hcall : s.advance = some (.invoked fd,
            { s with
              fdPoll := t'
              pc := .inCallback fd e.next
              invoked := s.invoked ++ [fd] }) := by
          simp [Round.advance, hpc, he, hvalue, hread, Round.popTemporary, hpop]
        cases hdeletes with
        | absent missing => exact absurd hfd (missing p ⟨j, hp⟩)
        | @removed _ i q stored held max others =>
            obtain rfl := hpool.distinct q p fd ⟨i, stored⟩ ⟨j, hp⟩ held hfd
            obtain rfl := hpool.chained.bucket_unique stored hp
            have hrest : Function.update chain i ((chain i).erase q) i = pre ++ post := by
              rw [Function.update_self, hpool.chained.erase_cut hcut]
            exact ⟨_, _, recycled', Walks.head hcall (.single ⟨_, rfl⟩),
              ⟨hpool', ⟨pre, hrest⟩, congrArg RoundPc.visiting hnext⟩, rfl, max⟩
  · have hpass : s.advance = some (.silent, { s with pc := .visiting e.next }) := by
      simp [Round.advance, hpc, he, hvalue, hread]
    exact ⟨_, chain, recycled, .single ⟨_, hpass⟩,
      ⟨hpool, ⟨_, hcut'⟩, congrArg RoundPc.visiting hnext⟩, rfl, rfl⟩

/-- The walk comes to the end of a bucket. -/
theorem InBucket.exists_end (h : InBucket s chain recycled j suf) :
    ∃ s', Walks s s' ∧ (∃ chain' recycled', InBucket s' chain' recycled' j []) ∧
      s'.index = s.index ∧ s'.fdPoll.max = s.fdPoll.max := by
  induction suf generalizing s chain recycled with
  | nil => exact ⟨s, .refl, ⟨chain, recycled, h⟩, rfl, rfl⟩
  | cons p post ih =>
      obtain ⟨s₁, chain₁, recycled₁, hwalks, hin, hindex, hmax⟩ := h.exists_next
      obtain ⟨s', hwalks', hend, hindex', hmax'⟩ := ih hin
      exact ⟨s', hwalks.trans hwalks', hend, hindex'.trans hindex, hmax'.trans hmax⟩

/-- From the end of a bucket the walk comes to the end of the table. -/
theorem exists_finished_of_bucket (h : InBucket s chain recycled j []) :
    ∃ s', Walks s s' ∧ s'.pc = .finished := by
  obtain ⟨n, hn⟩ : ∃ n, s.fdPoll.max.toNat - s.index = n := ⟨_, rfl⟩
  induction n generalizing s chain recycled j with
  | zero =>
      have hlast : ¬ s.index + 1 ≤ s.fdPoll.max.toNat := by omega
      have hfinish : s.advance = some (.silent, { s with pc := .finished }) := by
        simp only [Round.advance, h.pc, List.head?_nil, if_neg hlast]
      exact ⟨_, .single ⟨_, hfinish⟩, rfl⟩
  | succ n ih =>
      have hmore : s.index + 1 ≤ s.fdPoll.max.toNat := by omega
      have hslots : s.index + 1 < s.fdPoll.slots := by
        rw [h.pool.chained.slots]
        exact Nat.lt_succ_of_le hmore
      have hbucket : s.advance = some (.silent,
          { s with
            index := s.index + 1
            pc := .visiting (s.fdPoll.array (s.index + 1)) }) := by
        simp only [Round.advance, h.pc, List.head?_nil, if_pos hmore, HashT.readLink,
          if_pos hslots, Option.map_some]
      have hstart := (h.pool.chained.bucket _ hslots).start_eq_head?
      have hin : InBucket { s with
          index := s.index + 1
          pc := .visiting (s.fdPoll.array (s.index + 1)) } chain recycled (s.index + 1)
          (chain (s.index + 1)) := ⟨h.pool, ⟨[], rfl⟩, congrArg RoundPc.visiting hstart⟩
      obtain ⟨s₁, hwalks, ⟨chain₁, recycled₁, hend⟩, hindex, hmax⟩ := hin.exists_end
      have hleft : s₁.fdPoll.max.toNat - s₁.index = n := by
        rw [hmax, hindex]
        change s.fdPoll.max.toNat - (s.index + 1) = n
        omega
      obtain ⟨s', hwalks', hfinished⟩ := ih hend hleft
      exact ⟨s', Walks.head hbucket (hwalks.trans hwalks'), hfinished⟩

/-- From the entry that it goes to next the walk comes to its end. -/
theorem Serves.exists_finished_of_visiting (h : Serves s.fdPoll r)
    (hpool : Pool s.fdPoll chain recycled) {entry : Option EntryPtr} (hpc : s.pc = .visiting entry)
    (hentry : ∀ p, entry = some p → p ∈ allocated s.fdPoll) :
    ∃ s', Walks s s' ∧ s'.pc = .finished := by
  cases entry with
  | none => exact exists_finished_of_bucket (j := 0) ⟨hpool, ⟨chain 0, by simp⟩, hpc⟩
  | some p =>
      obtain ⟨chain', recycled', hstocked⟩ := h.stocked
      rcases hstocked.mem_allocated_iff.mp (hentry p rfl) with ⟨j, hj⟩ | hidle
      · obtain rfl := hstocked.filed.chained.chain_unique hpool.chained
        obtain ⟨pre, post, hcut⟩ := List.append_of_mem hj
        have hin : InBucket s chain' recycled j (p :: post) := ⟨hpool, ⟨pre, hcut⟩, hpc⟩
        obtain ⟨s₁, hwalks, ⟨chain₁, recycled₁, hend⟩, -⟩ := hin.exists_end
        obtain ⟨s', hwalks', hfinished⟩ := exists_finished_of_bucket hend
        exact ⟨s', hwalks.trans hwalks', hfinished⟩
      · -- an entry of the free list has no value
        obtain ⟨d, hd, hnone⟩ := hstocked.filed.chained.idle p hidle
        obtain ⟨e, he, rfl, -⟩ := exists_entry_of_dataOf hd
        have hvalue : e.value = none := hnone
        have hfinish : s.advance = some (.silent, { s with pc := .finished }) := by
          simp only [Round.advance, hpc, he, hvalue, Option.bind_eq_bind, Option.bind_some]
        exact ⟨_, .single ⟨_, hfinish⟩, rfl⟩

/-- The walk comes to its end from wherever it stands on the table. -/
theorem Serves.exists_finished (h : Serves s.fdPoll r) (hpool : Pool s.fdPoll chain recycled)
    (on : OnTable s) : ∃ s', Walks s s' ∧ s'.pc = .finished := by
  cases hpc : s.pc with
  | finished => exact ⟨s, .refl, hpc⟩
  | visiting entry =>
      exact h.exists_finished_of_visiting hpool hpc
        fun p hp => on.pointer p (by rw [pointer, hpc, hp])
  | inCallback caller next =>
      have hreturn : s.advance = some (.silent, { s with pc := .visiting next }) := by
        simp only [Round.advance, hpc]
      have h' : Serves { s with pc := .visiting next }.fdPoll r := h
      obtain ⟨s', hwalks, hfinished⟩ := h'.exists_finished_of_visiting hpool rfl
        fun p hp => on.pointer p (by rw [pointer, hpc, hp])
      exact ⟨s', Walks.head hreturn hwalks, hfinished⟩

/-! ## Rounds -/

theorem canReach_of_walks {guard : Round → Round.Action × Observation → Prop}
    (hguard : ∀ s obs, guard s (.advance, obs)) (run : (dispatch t readFds).Run guard history s)
    (walks : Walks s s') :
    (dispatch t readFds).CanReach guard (fun label => label.1 = .advance) history (· = s') := by
  induction walks using Relation.ReflTransGen.head_induction_on generalizing history with
  | refl => exact System.CanReach.refl run rfl
  | head hstep _ ih =>
      obtain ⟨obs, hadvance⟩ := hstep
      have taken : (dispatch t readFds).step _ (.advance, obs) _ := ⟨trivial, hadvance⟩
      exact System.CanReach.step rfl (ih (run.extend (hguard _ obs) taken))

theorem isPool_of_round (hpool : IsPool t) (run : (dispatch t readFds).Trace history s) :
    IsPool s.fdPoll := by
  apply run.invariant (I := fun _ s => IsPool s.fdPoll)
  · intro s hstart
    obtain ⟨entry, -, rfl⟩ := Option.map_eq_some_iff.mp hstart
    exact hpool
  · rintro history s ⟨action, obs⟩ s' - hpool - ⟨hcontract, hnext⟩
    cases action with
    | advance => exact hpool.advance hnext
    | call c =>
        obtain ⟨_, _, code, t', -, hrun, -, rfl⟩ := call_eq_some hnext
        exact hpool.call hcontract hrun

/-- A dispatch ends. In whatever state the callbacks have left a round, the walk alone comes
to its end from there. -/
theorem dispatch_ends {calls : List (PoolCall × BliveErrno)} (pool : fdPool.Trace calls t)
    (run : (dispatch t readFds).Trace history s) :
    (dispatch t readFds).CanReach System.anyStep (fun label => label.1 = .advance) history
      fun s' => s'.pc = .finished := by
  obtain ⟨start, -, hserves, -⟩ := serves_of_trace pool
  obtain ⟨on, hserves', -, -⟩ := serves_of_round hserves run
  obtain ⟨chain, recycled, hpool⟩ := isPool_of_round (pool_of_reachable ⟨calls, pool⟩) run
  obtain ⟨s', hwalks, hfinished⟩ := hserves'.exists_finished hpool on
  exact (canReach_of_walks (fun _ _ => trivial) run hwalks).mono fun s'' heq => heq ▸ hfinished

/-- The callback of 5 has removed 261, the entry that the walk goes to next. -/
theorem dispatch_ends_after_removal :
    ∃ (calls : List (PoolCall × BliveErrno)) (t : FdPoll)
      (history : List (Round.Action × Observation)) (s : Round),
      fdPool.Trace calls t ∧ (dispatch t [5, 261, 7]).Trace history s ∧ s.pc ≠ .finished ∧
        ¬ Registered s.fdPoll 261 ∧
          (dispatch t [5, 261, 7]).CanReach System.anyStep (fun label => label.1 = .advance) history
            fun s' => s'.pc = .finished := by
  obtain ⟨t, history, s, ⟨calls, pool⟩, run, htest⟩ := exists_round System.anyStep
    (addAll [5, 261, 7]) [5, 261, 7] (List.replicate 7 .advance ++ [.call (.del 261), .advance])
    (fun r => r.2.2.pc ≠ .finished ∧ ¬ Registered r.2.2.fdPoll 261) (by decide +kernel)
  obtain ⟨hpc, hremoved⟩ := of_decide_eq_true htest
  exact ⟨calls, t, history, s, pool, run, hpc, hremoved, dispatch_ends pool run⟩

end BliveQueue.FdPool
