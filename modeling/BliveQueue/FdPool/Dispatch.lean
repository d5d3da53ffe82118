/-
# Dispatch rounds are exact

A round whose calls keep the walk calls every callback at most once, none for a file
descriptor that was removed and not added again, and at its end exactly once every
callback of a readable file descriptor that only its own callback touched.
-/

import BliveQueue.FdPool.Rounds

namespace BliveQueue.FdPool

open BliveQueue.Hash BliveQueue.Math BliveQueue.Math.Walk BliveQueue.Utils
open BliveQueue.Utils.FdPool BliveQueue.Utils.Hash BliveQueue.Utils.Select

variable {t t' : FdPoll} {chain : ℕ → List EntryPtr} {recycled pre suf : List EntryPtr}
variable {readFds : List Fd} {history : List (Round.Action × Observation)} {s : Round}

/-- A round is a walk over the file descriptors that the pool watched at its start. -/
theorem follows_of_run (hpool : Pool t chain recycled)
    (run : (dispatch t readFds).Run KeepsWalk history s) :
    ∃ w, (walk (· ∈ readFds) (fdsOf t (Stored chain))).Trace (history.map eventOf) w ∧
      Follows readFds s w := by
  refine System.Run.simulate (Follows readFds) eventOf ?_ ?_ run
  · intro s hstart
    exact ⟨_, rfl, follows_start hpool hstart⟩
  · rintro s ⟨action, obs⟩ s' w ⟨chain, recycled, pre, suf, h⟩ hkeeps ⟨hcontract, hnext⟩
    cases action with
    | advance =>
        have hpc : s.pc ≠ .finished := by
          intro hfinished
          simp [Round.next, Round.advance, hfinished] at hnext
        obtain ⟨obs', s'', w', hadvance, hstep, hfollows⟩ := h.advance hpc
        obtain ⟨rfl, rfl⟩ := Prod.mk.inj (Option.some.inj (hadvance.symm.trans hnext))
        exact ⟨w', trivial, hstep, hfollows⟩
    | call c =>
        obtain ⟨w', hstep, hfollows⟩ := h.call hcontract hkeeps hnext
        exact ⟨w', trivial, hstep, hfollows⟩

/-- A finished walk has nothing before it. -/
theorem Tracks.ahead_finished {w : State Fd} (h : Tracks readFds s w chain recycled pre suf)
    (hpc : s.pc = .finished) : w.ahead = ∅ := by
  have hposition := h.position
  rw [hpc] at hposition
  obtain ⟨rfl, hlater⟩ := hposition
  rw [h.ahead]
  ext fd
  constructor
  · rintro ⟨q, hq | ⟨j, hj, hq⟩, -⟩
    · exact absurd hq List.not_mem_nil
    · rw [hlater j hj] at hq
      exact absurd hq List.not_mem_nil
  · exact fun hfd => absurd hfd (Set.notMem_empty fd)

/-! ## The main result -/

/-- Along every run whose calls keep the walk, no file descriptor is called twice and
none after it was removed and not added again; when the round ends, every readable one
that only its own callback touched was called once. -/
theorem dispatch_round_exact (reachable : Reachable t)
    (run : (dispatch t readFds).Run KeepsWalk history s) :
    (calls (history.map eventOf)).Nodup ∧
      (∀ before between after caller fd,
        history.map eventOf =
          before ++ .removed caller fd :: between ++ .called fd :: after →
        ∃ caller', .inserted caller' fd ∈ between) ∧
      (s.pc = .finished → ∀ fd ∈ readFds, Registered t fd →
        LeftAlone (history.map eventOf) fd → (calls (history.map eventOf)).count fd = 1) := by
  obtain ⟨chain, recycled, hpool⟩ := pool_of_reachable reachable
  obtain ⟨w, hwalk, _, _, _, _, htracks⟩ := follows_of_run hpool run
  refine ⟨calls_nodup hwalk, ?_, ?_⟩
  · intro before between after caller fd heq
    rw [heq] at hwalk
    exact inserted_between hwalk
  · intro hpc fd hread hregistered halone
    exact count_calls hwalk (htracks.ahead_finished hpc) (hpool.stored_of_registered hregistered)
      hread halone

/-! ## Executions -/

/-- The calls that add some file descriptors forever, in new entries. -/
def addAll (fds : List Fd) : List PoolCall :=
  fds.zipIdx.map fun p => .add p.1 false ⟨true, some (p.2 + 1), true⟩

/-- The end of a round over the pool of an engine with the pipe 3 and some more file
descriptors. -/
def runRound (guard : Round → Round.Action × Observation → Prop)
    [∀ s label, Decidable (guard s label)] (added : List PoolCall) (readFds : List Fd)
    (actions : List Round.Action) :
    Option (FdPoll × List (Round.Action × Observation) × Round) := do
  let (_, t) ← createPool 3 ⟨true, some 0, true⟩
  let (_, t) ← System.execute
    (System.callNext (fun t c => PoolCall.Contract t c) (fun t c => c.run t) System.anyStep) t added
  let s ← startRound t readFds
  let r ← System.execute (System.callNext Round.Contract Round.next guard) s actions
  some (t, r)

/-- A test that it passes is passed by a run. -/
theorem exists_round (guard : Round → Round.Action × Observation → Prop)
    [∀ s label, Decidable (guard s label)] (added : List PoolCall) (readFds : List Fd)
    (actions : List Round.Action)
    (test : FdPoll × List (Round.Action × Observation) × Round → Bool)
    (h : (runRound guard added readFds actions).any test = true) :
    ∃ t history s, Reachable t ∧ (dispatch t readFds).Run guard history s ∧
      test (t, history, s) = true := by
  obtain ⟨r, hround, htest⟩ := (Option.any_eq_true _ _).mp h
  simp only [runRound, Option.bind_eq_bind, Option.bind_eq_some_iff, Prod.exists] at hround
  obtain ⟨code, t₀, hcreate, calls, t, hcalls, s₀, hstart, history, s, hexec, heq⟩ := hround
  obtain rfl := Option.some.inj heq
  have hinit : fdPool.init t₀ := ⟨3, _, code, by decide, by decide, hcreate⟩
  have hpool : fdPool.Trace [] t₀ := .start hinit
  have hround : (dispatch t readFds).Run guard [] s₀ := .start hstart
  refine ⟨t, history, s, ⟨_, hpool.execute ?_ hcalls⟩, hround.execute ?_ hexec, htest⟩
  · exact fun t c label t' hnext => System.callNext_sound t c label t' hnext
  · exact fun s a label s' hnext => System.callNext_sound s a label s' hnext

/-- The events of a round that change or call something. -/
def loudEvents (history : List (Round.Action × Observation)) : List (Event Fd) :=
  (history.map eventOf).filter fun event => event ≠ .quiet

theorem leftAlone_of_loudEvents {fd : Fd} (h : ∀ event ∈ loudEvents history,
    ∀ caller, event ≠ .removed caller fd ∧ event ≠ .inserted caller fd) :
    LeftAlone (history.map eventOf) fd := by
  have hloud : ∀ event ∈ history.map eventOf, event ≠ .quiet → event ∈ loudEvents history :=
    fun event hmem hne => List.mem_filter.mpr ⟨hmem, by simpa using hne⟩
  constructor
  · intro caller hmem
    exact absurd rfl (h _ (hloud _ hmem nofun) caller).1
  · intro caller hmem
    exact absurd rfl (h _ (hloud _ hmem nofun) caller).2

/-- The callback of 5 removes 7 and the callback of 261, which shares a bucket with 5,
adds it again, once: each is called once. -/
theorem dispatch_round_exact_with_calls :
    ∃ t history s, Reachable t ∧ (dispatch t [5, 261, 7]).Run KeepsWalk history s ∧
      s.pc = .finished ∧
      loudEvents history =
        [.called 5, .removed 5 7, .called 261, .inserted 261 7, .called 7] ∧
      (calls (history.map eventOf)).Nodup ∧
      (∀ before between after caller fd,
        history.map eventOf =
          before ++ .removed caller fd :: between ++ .called fd :: after →
        ∃ caller', .inserted caller' fd ∈ between) ∧
      (calls (history.map eventOf)).count 261 = 1 := by
  obtain ⟨t, history, s, reachable, run, htest⟩ := exists_round KeepsWalk (addAll [5, 261, 7])
    [5, 261, 7]
    (List.replicate 7 .advance ++
      [.call (.del 7), .advance, .advance, .call (.add 7 true ⟨true, none, true⟩)] ++
      List.replicate 254 .advance)
    (fun r => r.2.2.pc = .finished ∧ Registered r.1 261 ∧ loudEvents r.2.1 =
      [.called 5, .removed 5 7, .called 261, .inserted 261 7, .called 7])
    (by decide +kernel)
  obtain ⟨hpc, hregistered, hloud⟩ := of_decide_eq_true htest
  have halone : LeftAlone (history.map eventOf) 261 :=
    leftAlone_of_loudEvents (by rw [hloud]; simp)
  obtain ⟨hnodup, hbetween, hfinished⟩ := dispatch_round_exact reachable run
  exact ⟨t, history, s, reachable, run, hpc, hloud, hnodup, hbetween,
    hfinished hpc 261 (by simp) hregistered halone⟩

/-- The callback of 5 removes 261, the next entry of its bucket: the walk stops at the
removed entry, and 7, which nobody touched, is never called. -/
theorem exists_round_skips :
    ∃ t history s, Reachable t ∧ (dispatch t [5, 261, 7]).Trace history s ∧
      s.pc = .finished ∧ Registered t 7 ∧ LeftAlone (history.map eventOf) 7 ∧
      (calls (history.map eventOf)).count 7 = 0 := by
  obtain ⟨t, history, s, reachable, run, htest⟩ := exists_round System.anyStep
    (addAll [5, 261, 7]) [5, 261, 7]
    (List.replicate 7 .advance ++ [.call (.del 261), .advance, .advance])
    (fun r => r.2.2.pc = .finished ∧ Registered r.1 7 ∧
      loudEvents r.2.1 = [.called 5, .removed 5 261] ∧
      (calls (r.2.1.map eventOf)).count 7 = 0)
    (by decide +kernel)
  obtain ⟨hpc, hregistered, hloud, hcount⟩ := of_decide_eq_true htest
  exact ⟨t, history, s, reachable, run, hpc, hregistered,
    leftAlone_of_loudEvents (by rw [hloud]; simp), hcount⟩

/-- The callback of 5, which was added once, adds 5 once more while the walk has still
to visit 261 in the same bucket: 5 is called twice. -/
theorem exists_round_repeats :
    ∃ t history s, Reachable t ∧ (dispatch t [5, 261]).Trace history s ∧
      s.pc = .finished ∧ calls (history.map eventOf) = [5, 261, 5] := by
  obtain ⟨t, history, s, reachable, run, htest⟩ := exists_round System.anyStep
    [.add 5 true ⟨true, some 1, true⟩, .add 261 false ⟨true, some 2, true⟩] [5, 261]
    (List.replicate 7 .advance ++ [.call (.add 5 true ⟨true, none, true⟩)] ++
      List.replicate 256 .advance)
    (fun r => r.2.2.pc = .finished ∧ calls (r.2.1.map eventOf) = [5, 261, 5])
    (by decide +kernel)
  exact ⟨t, history, s, reachable, run, of_decide_eq_true htest⟩

end BliveQueue.FdPool
