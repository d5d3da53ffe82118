/-
# The pool as a registry of file descriptors

Forgetting buckets, array and free list, the pool is a finite map from file descriptors to
whether they are temporary, which the calls and the callbacks so far determine. The fd set
of a walk lists its domain. This holds in the middle of a dispatch as well, whatever the
callbacks do: a round in which they break the order of the walk still only visits allocated
entries, and only calls the callbacks of file descriptors that are registered then.
-/

import BliveQueue.FdPool.Client
import BliveQueue.Utils.Engine

namespace BliveQueue.FdPool

open BliveQueue.Hash BliveQueue.Math BliveQueue.Utils BliveQueue.Utils.Engine
open BliveQueue.Utils.FdPool BliveQueue.Utils.Hash BliveQueue.Utils.Select

variable {t t' : FdPoll} {m : CString → Option EngineFd} {fd : Fd} {r : Registry}
variable {chain : ℕ → List EntryPtr} {recycled : List EntryPtr} {p : EntryPtr}
variable {readFds : List Fd} {history : List (Round.Action × Observation)} {s s' : Round}

/-! ## The table and the registry -/

/-- What the table holds for a file descriptor. -/
def valueOf (t : FdPoll) (fd : Fd) : Option EngineFd :=
  ((entryOf t fd).bind t.entry).bind HashEntry.value

/-- Lookup, walk and counter of the table answer by the registry. -/
structure Holds (t : FdPoll) (r : Registry) : Prop where
  lookup : ∀ fd, ValidFd fd → valueOf t fd = (r fd).map fun temporary => ⟨fd, temporary⟩
  fdSet : ∃ fds, fdSet t = some fds ∧ fds.Nodup ∧ (∀ fd, fd ∈ fds ↔ r fd ≠ none) ∧
    t.hashCount = fds.length

theorem valueOf_eq (h : Maps t chain recycled m) (fd : Fd) : valueOf t fd = m (fdKey fd) := by
  rcases entryOf_cases h.chained fd with ⟨p, hp, hit, heq⟩ | ⟨missing, heq⟩
  · have ⟨d, hd, _⟩ := hit
    obtain ⟨v, rfl, hm⟩ := h.data_of_matches ⟨_, hp⟩ hit hd
    obtain ⟨e, he, hdata, -⟩ := exists_entry_of_dataOf hd
    have hvalue : e.value = some v := congrArg EntryData.value hdata
    rw [valueOf, heq, Option.bind_some, he, Option.bind_some, hvalue, hm]
  · rw [valueOf, heq, h.eq_none_of_missing missing]
    rfl

/-- The pairs of the walk are the file descriptors under their keys. -/
theorem map_fdKey_fds {pairs : List (CString × Option EngineFd)}
    (h : ∀ x ∈ pairs, ∃ e : EngineFd, x = (fdKey e.fd, some e)) :
    (pairs.filterMap fun pair => pair.2.map EngineFd.fd).map fdKey = pairs.map Prod.fst := by
  induction pairs with
  | nil => rfl
  | cons x pairs ih =>
      obtain ⟨e, rfl⟩ := h x List.mem_cons_self
      have hrest := ih fun y hy => h y (List.mem_cons_of_mem _ hy)
      simpa using hrest

theorem Serves.holds (h : Serves t r) : Holds t r := by
  obtain ⟨calls, run, hwatches⟩ := h
  obtain ⟨chain, recycled, hmaps⟩ := Run.maps run
  refine ⟨fun fd hfd => by rw [valueOf_eq hmaps, hwatches.entry fd hfd], ?_⟩
  obtain ⟨hnodup, hpairs⟩ := hmaps.lists
  have hform : ∀ x ∈ (walk t chain).map (pairOf t.entry),
      ∃ e : EngineFd, x = (fdKey e.fd, some e) := by
    rintro ⟨key, value⟩ hx
    obtain ⟨hvalue, hstored⟩ := (hpairs key value).mp hx
    obtain ⟨e, rfl⟩ := Option.ne_none_iff_exists'.mp hvalue
    obtain ⟨-, rfl⟩ := hwatches.keyed key e hstored
    exact ⟨e, rfl⟩
  have hcontinues : ∀ given : List (CString × Option EngineFd),
      ∀ x ∈ (walk t chain).map (pairOf t.entry),
        (((given ++ [x]).getLast?).bind Prod.snd).isSome = true := by
    intro given x hx
    obtain ⟨e, rfl⟩ := hform x hx
    simp
  have hkeys := map_fdKey_fds hform
  have hwalk := hmaps.chained.hashForeach_eq fun given => (given.getLast?.bind Prod.snd).isSome
  rw [feed_of_continues _ hcontinues, List.nil_append] at hwalk
  refine ⟨_, by rw [fdSet, hwalk]; rfl, ?_, fun fd => ?_, ?_⟩
  · apply List.Nodup.of_map fdKey
    rw [hkeys]
    exact hnodup
  · rw [List.mem_filterMap]
    constructor
    · rintro ⟨⟨key, value⟩, hx, hfd⟩
      obtain ⟨e, heq⟩ := hform _ hx
      obtain ⟨rfl, rfl⟩ := Prod.mk.inj heq
      obtain rfl := Option.some.inj hfd
      rw [(hwatches.registered ((hpairs _ _).mp hx).2).2]
      exact Option.some_ne_none _
    · intro hr
      obtain ⟨temporary, htemporary⟩ := Option.ne_none_iff_exists'.mp hr
      have hstored := hwatches.entry fd (hwatches.valid fd hr)
      rw [htemporary] at hstored
      exact ⟨(fdKey fd, some ⟨fd, temporary⟩), (hpairs _ _).mpr ⟨Option.some_ne_none _, hstored⟩,
        rfl⟩
  · obtain ⟨keys, hmem, hcard⟩ := hmaps.card_eq
    have hset : keys = (((walk t chain).map (pairOf t.entry)).map Prod.fst).toFinset := by
      ext key
      rw [hmem, List.mem_toFinset, List.mem_map]
      constructor
      · exact fun hm => ⟨(key, stored calls key), (hpairs _ _).mpr ⟨hm, rfl⟩, rfl⟩
      · rintro ⟨⟨key, value⟩, hx, rfl⟩
        obtain ⟨hvalue, hstored⟩ := (hpairs key value).mp hx
        exact hstored ▸ hvalue
    rw [hmaps.hashCount_eq, hcard, hset, List.toFinset_card_of_nodup hnodup, ← hkeys,
      List.length_map]

/-- The pool watches what the registry has. -/
theorem Serves.registered_iff (h : Serves t r) : Registered t fd ↔ r fd ≠ none := by
  have hlookup := h.holds.lookup
  constructor
  · intro hfd
    obtain ⟨calls, run, hwatches⟩ := h
    obtain ⟨chain, recycled, hmaps⟩ := Run.maps run
    obtain ⟨e, he, rfl⟩ := Option.map_eq_some_iff.mp hfd
    rw [← valueOf, valueOf_eq hmaps] at he
    rw [(hwatches.registered he).2]
    exact Option.some_ne_none _
  · intro hr
    obtain ⟨calls, -, hwatches⟩ := h
    obtain ⟨temporary, htemporary⟩ := Option.ne_none_iff_exists'.mp hr
    have hvalue := hlookup fd (hwatches.valid fd hr)
    rw [htemporary, Option.map_some, valueOf] at hvalue
    rw [Registered, hvalue]
    rfl

/-! ## Calls -/

/-- Under every sequence of calls, with allocations that may fail, the pool is the registry
that the calls describe: looking a file descriptor up, building the fd set and counting all
answer by it, and every call answered what its arguments and the first allocation say. -/
theorem pool_refines_registry {history : List (PoolCall × BliveErrno)}
    (run : fdPool.Trace history t) :
    ∃ start, Starts start ∧ Holds t (watched start history) ∧
      ∀ label ∈ history, label.2 = answerOf label.1 := by
  obtain ⟨start, hstarts, hserves, hanswers⟩ := serves_of_trace run
  exact ⟨start, hstarts, hserves.holds, hanswers⟩

/-- The registry of two additions and a removal. -/
theorem pool_refines_registry_after_del :
    ∃ (history : List (PoolCall × BliveErrno)) (t : FdPoll), fdPool.Trace history t ∧
      Registered t 261 ∧ ¬ Registered t 5 ∧
        ∃ start, Starts start ∧ Holds t (watched start history) ∧
          ∀ label ∈ history, label.2 = answerOf label.1 := by
  obtain ⟨t, _, _, ⟨history, run⟩, -, htest⟩ := exists_round System.anyStep
    [.add 5 true ⟨true, some 1, true⟩, .add 261 false ⟨true, some 2, true⟩, .del 5] [] []
    (fun r => Registered r.1 261 ∧ ¬ Registered r.1 5) (by decide +kernel)
  obtain ⟨hpresent, habsent⟩ := of_decide_eq_true htest
  exact ⟨history, t, run, hpresent, habsent, pool_refines_registry run⟩

/-! ## Rounds -/

/-- What a step of a round does to the registry: a temporary file descriptor is gone when
its callback starts. -/
def registryStep (r : Registry) : Round.Action × Observation → Registry
  | (.advance, .invoked fd) => if r fd = some true then Function.update r fd none else r
  | (.call c, _) => registryAfter r c
  | _ => r

/-- A statement of the walk registers nothing. -/
theorem registryStep_of_none {obs : Observation} (h : r fd = none) :
    registryStep r (.advance, obs) fd = none := by
  cases obs with
  | invoked fd' =>
      rw [registryStep]
      split
      · by_cases hfd : fd = fd'
        · rw [hfd]
          exact Function.update_self _ _ _
        · rw [Function.update_of_ne hfd, h]
      · exact h
  | silent | called _ _ => exact h

/-- The entry that a round visits next in its bucket. -/
def pointer (s : Round) : Option EntryPtr :=
  match s.pc with
  | .visiting entry => entry
  | .inCallback _ next => next
  | .finished => none

/-- The round stands at a bucket of the table, in front of an allocated entry. -/
structure OnTable (s : Round) : Prop where
  index : s.index ≤ s.fdPoll.max.toNat
  pointer : ∀ p, pointer s = some p → p ∈ allocated s.fdPoll

theorem OnTable.grow (h : OnTable s) (hgrows : Grows s.fdPoll t') :
    OnTable { s with fdPoll := t' } :=
  ⟨h.index.trans hgrows.max, fun p hp => hgrows.live (h.pointer p hp)⟩

theorem Serves.stocked (h : Serves t r) : ∃ chain recycled, Stocked t chain recycled := by
  obtain ⟨calls, run, -⟩ := h
  exact Run.stocked (Run.keyed run)

/-- An allocated entry with a value is the entry of a registered file descriptor. -/
theorem Serves.registered (h : Serves t r) {e : HashEntry EngineFd} {engineFd : EngineFd}
    (he : t.entry p = some e) (hvalue : e.value = some engineFd) :
    ValidFd engineFd.fd ∧ r engineFd.fd = some engineFd.temporary := by
  obtain ⟨chain, recycled, hstocked⟩ := h.stocked
  obtain ⟨calls, run, hwatches⟩ := h
  obtain ⟨chain', recycled', hmaps⟩ := Run.maps run
  obtain rfl := hstocked.filed.chained.chain_unique hmaps.chained
  have hd : dataOf t.entry p = some ⟨e.hash, e.key, e.value⟩ := by simp [dataOf, he, HashEntry.data]
  have hlive : dataOf t.entry p ≠ none := hd ▸ Option.some_ne_none _
  rcases hstocked.covers p hlive with hin | hidle
  · obtain ⟨key, v, hd'⟩ := hmaps.keyed p hin
    have hdata := Option.some.inj (hd.symm.trans hd')
    have hv : e.value = some v := congrArg EntryData.value hdata
    obtain rfl := Option.some.inj (hvalue.symm.trans hv)
    exact hwatches.registered ((hmaps.view key engineFd).mpr ⟨p, hin, hd'⟩)
  · obtain ⟨d, hd', hnone⟩ := hstocked.filed.chained.idle p hidle
    obtain rfl := Option.some.inj (hd.symm.trans hd')
    exact absurd (hvalue.symm.trans hnone) (Option.some_ne_none engineFd)

/-- The removal of a temporary file descriptor before its callback. -/
theorem Serves.popTemporary (h : Serves s.fdPoll r) {engineFd : EngineFd}
    (hvalid : ValidFd engineFd.fd) (hr : r engineFd.fd = some engineFd.temporary) :
    ∃ t', s.popTemporary engineFd = some t' ∧ Grows s.fdPoll t' ∧
      Serves t' (registryStep r (.advance, .invoked engineFd.fd)) := by
  simp only [Round.popTemporary, registryStep, hr]
  cases engineFd.temporary with
  | true =>
      obtain ⟨old, t', hpop, hserves, hgrows⟩ := h.pop hvalid
      exact ⟨t', by rw [if_pos rfl, hpop]; rfl, hgrows, hserves⟩
  | false => exact ⟨s.fdPoll, rfl, .refl _, h⟩

/-- The walk takes a step, after which it stands on the table and the table holds the
registry again; it calls a callback only for a registered file descriptor that is readable. -/
def Advances (r : Registry) (s : Round) : Prop :=
  ∃ obs s', s.advance = some (obs, s') ∧ OnTable s' ∧
    Serves s'.fdPoll (registryStep r (.advance, obs)) ∧ s'.readFds = s.readFds ∧
      ∀ fd, obs = .invoked fd → fd ∈ s.readFds ∧ r fd ≠ none

theorem advances_of_silent (h : Serves s.fdPoll r) (hadvance : s.advance = some (.silent, s'))
    (on : OnTable s') (table : s'.fdPoll = s.fdPoll) (fds : s'.readFds = s.readFds) :
    Advances r s :=
  ⟨.silent, s', hadvance, on, table ▸ h, fds, fun _ heq => Observation.noConfusion heq⟩

/-- At the end of a bucket. -/
theorem Serves.advances_bucket (h : Serves s.fdPoll r) (on : OnTable s)
    (hpc : s.pc = .visiting none) : Advances r s := by
  obtain ⟨chain, recycled, hstocked⟩ := h.stocked
  by_cases hnext : s.index + 1 ≤ s.fdPoll.max.toNat
  · have hslots : s.index + 1 < s.fdPoll.slots := by
      rw [hstocked.filed.chained.slots]
      exact Nat.lt_succ_of_le hnext
    have hadvance : s.advance = some (.silent,
        { s with
          index := s.index + 1
          pc := .visiting (s.fdPoll.array (s.index + 1)) }) := by
      simp only [Round.advance, hpc, if_pos hnext, HashT.readLink, if_pos hslots, Option.map_some]
    exact advances_of_silent h hadvance ⟨hnext, fun p hp => hstocked.mem_of_array hslots hp⟩ rfl rfl
  · have hadvance : s.advance = some (.silent, { s with pc := .finished }) := by
      simp only [Round.advance, hpc, if_neg hnext]
    exact advances_of_silent h hadvance
      ⟨on.index, fun p hp => absurd hp.symm (Option.some_ne_none p)⟩ rfl rfl

/-- At an entry, which may have been removed or reused since the walk read its address. -/
theorem Serves.advances_entry (h : Serves s.fdPoll r) (on : OnTable s)
    (hpc : s.pc = .visiting (some p)) : Advances r s := by
  obtain ⟨chain, recycled, hstocked⟩ := h.stocked
  have hp : p ∈ allocated s.fdPoll := on.pointer p (by rw [pointer, hpc])
  obtain ⟨e, he⟩ := Option.ne_none_iff_exists'.mp hp
  have hahead : ∀ q, e.next = some q → q ∈ allocated s.fdPoll := by
    intro q hq
    apply hstocked.mem_of_next hp
    rw [nextOf, he]
    exact hq
  cases hvalue : e.value with
  | none =>
      have hadvance : s.advance = some (.silent, { s with pc := .finished }) := by
        simp only [Round.advance, hpc, he, hvalue, Option.bind_eq_bind, Option.bind_some]
      exact advances_of_silent h hadvance
        ⟨on.index, fun q hq => absurd hq.symm (Option.some_ne_none q)⟩ rfl rfl
  | some engineFd =>
      obtain ⟨hvalid, hr⟩ := h.registered he hvalue
      by_cases hread : engineFd.fd ∈ s.readFds
      · obtain ⟨t', hpop, hgrows, hserves⟩ := h.popTemporary hvalid hr
        have hadvance : s.advance = some (.invoked engineFd.fd,
            { s with
              fdPoll := t'
              pc := .inCallback engineFd.fd e.next
              invoked := s.invoked ++ [engineFd.fd] }) := by
          simp only [Round.advance, hpc, he, hvalue, hread, hpop, if_true, Option.bind_eq_bind,
            Option.bind_some]
        refine ⟨_, _, hadvance, ⟨on.index.trans hgrows.max, fun q hq => ?_⟩, hserves, rfl, ?_⟩
        · exact hgrows.live (hahead q hq)
        · intro fd heq
          obtain rfl := Observation.invoked.inj heq
          exact ⟨hread, hr ▸ Option.some_ne_none _⟩
      · have hadvance : s.advance = some (.silent, { s with pc := .visiting e.next }) := by
          simp only [Round.advance, hpc, he, hvalue, hread, if_false, Option.bind_eq_bind,
            Option.bind_some]
        exact advances_of_silent h hadvance ⟨on.index, hahead⟩ rfl rfl

/-- A walk that has not finished goes on, whatever the callbacks have done before. -/
theorem Serves.advances (h : Serves s.fdPoll r) (on : OnTable s) (hpc : s.pc ≠ .finished) :
    Advances r s := by
  cases hs : s.pc with
  | finished => exact absurd hs hpc
  | visiting entry =>
      cases entry with
      | none => exact h.advances_bucket on hs
      | some p => exact h.advances_entry on hs
  | inCallback caller next =>
      have hadvance : s.advance = some (.silent, { s with pc := .visiting next }) := by
        simp only [Round.advance, hs]
      refine advances_of_silent h hadvance ⟨on.index, fun p hp => on.pointer p ?_⟩ rfl rfl
      rw [pointer, hs]
      exact hp

/-- A round can start. -/
theorem Serves.exists_startRound (h : Serves t r) (readFds : List Fd) :
    ∃ s, startRound t readFds = some s := by
  obtain ⟨chain, recycled, hstocked⟩ := h.stocked
  have hslots : 0 < t.slots := hstocked.filed.chained.slots ▸ Nat.succ_pos _
  simp only [startRound, HashT.readLink, if_pos hslots, Option.map_some]
  exact ⟨_, rfl⟩

theorem onTable_of_startRound (h : Serves t r) (hstart : startRound t readFds = some s) :
    OnTable s ∧ s.fdPoll = t ∧ s.readFds = readFds := by
  obtain ⟨chain, recycled, hstocked⟩ := h.stocked
  obtain ⟨entry, hread, rfl⟩ := Option.map_eq_some_iff.mp hstart
  have hslots : 0 < t.slots := hstocked.filed.chained.slots ▸ Nat.succ_pos _
  rw [HashT.readLink, if_pos hslots] at hread
  obtain rfl := Option.some.inj hread
  exact ⟨⟨Nat.zero_le _, fun p hp => hstocked.mem_of_array hslots hp⟩, rfl, rfl⟩

/-- The registry in the middle of a round. -/
def watchedIn (r : Registry) (history : List (Round.Action × Observation)) : Registry :=
  history.foldl registryStep r

theorem watchedIn_concat (r : Registry) (history : List (Round.Action × Observation))
    (label : Round.Action × Observation) :
    watchedIn r (history ++ [label]) = registryStep (watchedIn r history) label := by
  simp [watchedIn]

/-- Every callback of the round was called for a file descriptor that was readable and
registered at that moment. -/
def CallsRegistered (r : Registry) (readFds : List Fd)
    (history : List (Round.Action × Observation)) : Prop :=
  ∀ before fd after, history = before ++ (.advance, .invoked fd) :: after →
    fd ∈ readFds ∧ watchedIn r before fd ≠ none

theorem callsRegistered_concat {label : Round.Action × Observation}
    (h : CallsRegistered r readFds history)
    (hlast : ∀ fd, label = (.advance, .invoked fd) → fd ∈ readFds ∧ watchedIn r history fd ≠ none) :
    CallsRegistered r readFds (history ++ [label]) := by
  intro before fd after heq
  rcases List.eq_nil_or_concat' after with rfl | ⟨after, last, rfl⟩
  · obtain ⟨rfl, hlabel⟩ := List.append_inj' heq rfl
    exact hlast fd (List.singleton_inj.mp hlabel)
  · rw [← List.cons_append, ← List.append_assoc] at heq
    exact h before fd after (List.append_inj' heq rfl).1

/-- What holds in the middle of every round over a table that held a registry. -/
theorem serves_of_round (h : Serves t r) (run : (dispatch t readFds).Trace history s) :
    OnTable s ∧ Serves s.fdPoll (watchedIn r history) ∧ s.readFds = readFds ∧
      CallsRegistered r readFds history := by
  apply run.invariant (I := fun history s => OnTable s ∧ Serves s.fdPoll (watchedIn r history) ∧
    s.readFds = readFds ∧ CallsRegistered r readFds history)
  · intro s hstart
    obtain ⟨on, htable, hfds⟩ := onTable_of_startRound h hstart
    refine ⟨on, htable ▸ h, hfds, fun before fd after heq => ?_⟩
    exact absurd heq.symm (List.append_ne_nil_of_right_ne_nil before (List.cons_ne_nil _ after))
  · rintro history s ⟨action, obs⟩ s' - ⟨on, hserves, hfds, hcalls⟩ - ⟨hcontract, hnext⟩
    rw [watchedIn_concat]
    cases action with
    | advance =>
        have hpc : s.pc ≠ .finished := by
          intro hfinished
          simp [Round.next, Round.advance, hfinished] at hnext
        obtain ⟨obs', s'', hadvance, on', hserves', hfds', hinvoked⟩ := hserves.advances on hpc
        obtain ⟨rfl, rfl⟩ := Prod.mk.inj (Option.some.inj (hadvance.symm.trans hnext))
        refine ⟨on', hserves', hfds'.trans hfds, callsRegistered_concat hcalls fun fd heq => ?_⟩
        exact hfds ▸ hinvoked fd (Prod.mk.inj heq).2
    | call c =>
        obtain ⟨caller, next, code, t', -, hrun, -, rfl⟩ := call_eq_some hnext
        obtain ⟨-, hserves', hgrows⟩ := hserves.call hcontract hrun
        refine ⟨on.grow hgrows, hserves', hfds, callsRegistered_concat hcalls fun fd heq => ?_⟩
        exact Round.Action.noConfusion (Prod.mk.inj heq).1

/-- In every round over a pool, with callbacks that add and remove file descriptors at will,
the pool is the registry that the calls and the callbacks leave, a callback is called only
for a readable file descriptor that is registered then, and the walk never stops before its
end: it only follows entries that are still allocated. -/
theorem dispatch_refines_registry {calls : List (PoolCall × BliveErrno)}
    (pool : fdPool.Trace calls t) (run : (dispatch t readFds).Trace history s) :
    ∃ start, Starts start ∧ Holds s.fdPoll (watchedIn (watched start calls) history) ∧
      CallsRegistered (watched start calls) readFds history ∧
        (s.pc ≠ .finished → ∃ obs s', s.advance = some (obs, s')) := by
  obtain ⟨start, hstarts, hserves, -⟩ := serves_of_trace pool
  obtain ⟨on, hserves', -, hcalls⟩ := serves_of_round hserves run
  refine ⟨start, hstarts, hserves'.holds, hcalls, fun hpc => ?_⟩
  obtain ⟨obs, s', hadvance, -⟩ := hserves'.advances on hpc
  exact ⟨obs, s', hadvance⟩

/-- The callback of 5 removes 261, the entry that the walk goes to next: the walk reads the
removed entry and ends the round there. -/
theorem dispatch_refines_registry_over_removed :
    ∃ (calls : List (PoolCall × BliveErrno)) (t : FdPoll)
      (history : List (Round.Action × Observation)) (s : Round),
      fdPool.Trace calls t ∧ (dispatch t [5, 261, 7]).Trace history s ∧ s.pc ≠ .finished ∧
        ¬ Registered s.fdPoll 261 ∧ ∃ start, Starts start ∧
          Holds s.fdPoll (watchedIn (watched start calls) history) ∧
          CallsRegistered (watched start calls) [5, 261, 7] history ∧
          (s.pc ≠ .finished → ∃ obs s', s.advance = some (obs, s')) := by
  obtain ⟨t, history, s, ⟨calls, pool⟩, run, htest⟩ := exists_round System.anyStep
    (addAll [5, 261, 7]) [5, 261, 7] (List.replicate 7 .advance ++ [.call (.del 261), .advance])
    (fun r => r.2.2.pc ≠ .finished ∧ ¬ Registered r.2.2.fdPoll 261) (by decide +kernel)
  obtain ⟨hpc, hremoved⟩ := of_decide_eq_true htest
  exact ⟨calls, t, history, s, pool, run, hpc, hremoved, dispatch_refines_registry pool run⟩

end BliveQueue.FdPool
