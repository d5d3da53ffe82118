/-
# The pool as a client of the table

Every call of the engine's interface makes at most one call of the table, under the key
of its file descriptor. A pool is therefore a table at the end of a run of such calls, and
what the runs of the table keep is kept by the pool: the map under the keys is a registry
of file descriptors, and an entry that was allocated once stays allocated.
-/

import BliveQueue.FdPool.Dispatch
import BliveQueue.Hash.Memory

namespace BliveQueue.FdPool

open BliveQueue.Hash BliveQueue.Math BliveQueue.Utils BliveQueue.Utils.FdPool
open BliveQueue.Utils.Hash BliveQueue.Utils.Select

variable {t t' : FdPoll} {m : CString → Option EngineFd} {fd : Fd} {key : CString}
variable {c : PoolCall} {code : BliveErrno}

/-! ## The registry -/

/-- Whether each watched file descriptor is temporary. -/
abbrev Registry := Fd → Option Bool

/-- The registry of a pool that watches nothing. -/
def nothing : Registry := fun _ => none

/-- What a call does to the registry. -/
def registryAfter (r : Registry) : PoolCall → Registry
  | .add fd temporary mem =>
    if 0 ≤ fd ∧ mem.engineFd = true then Function.update r fd (some temporary) else r
  | .del fd => Function.update r fd none

/-- What a call answers. -/
def answerOf : PoolCall → BliveErrno
  | .add fd _ mem => if fd < 0 then .invalid else if mem.engineFd then .ok else .outOfMem
  | .del fd => if fd < 0 then .invalid else .ok

variable {r : Registry}

/-- The map holds the registry: every file descriptor under its own key, and nothing else. -/
structure Watches (m : CString → Option EngineFd) (r : Registry) : Prop where
  entry : ∀ fd, ValidFd fd → m (fdKey fd) = (r fd).map fun temporary => ⟨fd, temporary⟩
  keyed : ∀ key e, m key = some e → ValidFd e.fd ∧ key = fdKey e.fd
  valid : ∀ fd, r fd ≠ none → ValidFd fd

theorem watches_empty : Watches (fun _ => none) nothing :=
  ⟨fun _ _ => rfl, fun _ e h => absurd h.symm (Option.some_ne_none e), fun _ h => absurd rfl h⟩

/-- Changing the value of one file descriptor. -/
theorem Watches.update (h : Watches m r) (hfd : ValidFd fd) (value : Option Bool) :
    Watches
      (Function.update m (fdKey fd) (value.map fun temporary => ⟨fd, temporary⟩))
      (Function.update r fd value) := by
  refine ⟨fun fd' hfd' => ?_, fun key e he => ?_, fun fd' hfd' => ?_⟩
  · rcases eq_or_ne fd' fd with rfl | hne
    · rw [Function.update_self, Function.update_self]
    · have hkey : fdKey fd' ≠ fdKey fd := fun heq => hne (fdKey_inj hfd' hfd heq)
      rw [Function.update_of_ne hkey, Function.update_of_ne hne]
      exact h.entry fd' hfd'
  · rcases eq_or_ne key (fdKey fd) with rfl | hne
    · rw [Function.update_self] at he
      obtain ⟨temporary, -, rfl⟩ := Option.map_eq_some_iff.mp he
      exact ⟨hfd, rfl⟩
    · rw [Function.update_of_ne hne] at he
      exact h.keyed key e he
  · rcases eq_or_ne fd' fd with rfl | hne
    · exact hfd
    · rw [Function.update_of_ne hne] at hfd'
      exact h.valid fd' hfd'

/-- What is stored is registered. -/
theorem Watches.registered (h : Watches m r) {e : EngineFd} (he : m key = some e) :
    ValidFd e.fd ∧ r e.fd = some e.temporary := by
  obtain ⟨hvalid, rfl⟩ := h.keyed key e he
  rw [h.entry e.fd hvalid] at he
  obtain ⟨temporary, hr, heq⟩ := Option.map_eq_some_iff.mp he
  have htemporary : temporary = e.temporary := congrArg EngineFd.temporary heq
  exact ⟨hvalid, htemporary ▸ hr⟩

/-! ## Allocations -/

section Allocations

variable {β : Type} {t t₀ : HashT β} {v : β} {mem : Option EntryPtr} {arrayMem : Bool}

theorem takeEntry_of_some {taken : EntryPtr × Option β × HashT β}
    (h : t.takeEntry mem = some taken) (q : EntryPtr) :
    t.takeEntry (some (mem.getD q)) = some taken := by
  unfold HashT.takeEntry at h ⊢
  cases hfree : t.free with
  | some p => simpa only [hfree] using h
  | none =>
      simp only [hfree] at h ⊢
      obtain ⟨p, rfl, heq⟩ := Option.map_eq_some_iff.mp h
      exact congrArg some heq

theorem findOrInsert_of_some {place : Link × HashT β} (h : t.findOrInsert key mem = some place)
    (q : EntryPtr) : t.findOrInsert key (some (mem.getD q)) = some place := by
  unfold HashT.findOrInsert at h ⊢
  obtain ⟨⟨link, found⟩, hfind, hfound⟩ := Option.bind_eq_some_iff.mp h
  apply Option.bind_eq_some_iff.mpr
  refine ⟨(link, found), hfind, ?_⟩
  cases found with
  | true => exact hfound
  | false =>
      obtain ⟨taken, htake, hwritten⟩ := Option.bind_eq_some_iff.mp hfound
      exact Option.bind_eq_some_iff.mpr ⟨taken, takeEntry_of_some htake q, hwritten⟩

theorem expandArray_of_some (h : t.expandArray arrayMem = some t₀) :
    t.expandArray true = some t₀ := by
  cases arrayMem with
  | true => exact h
  | false => exact absurd h.symm (Option.some_ne_none t₀)

/-- A push that returns did not use an allocation that failed: with successful ones it
returns the same. -/
theorem hashPush_of_some {answer : Option β × HashT β}
    (h : t.hashPush key v mem arrayMem = some answer) (q : EntryPtr) :
    t.hashPush key v (some (mem.getD q)) true = some answer := by
  unfold HashT.hashPush at h ⊢
  obtain ⟨⟨link, t₁⟩, hinsert, hrest⟩ := Option.bind_eq_some_iff.mp h
  apply Option.bind_eq_some_iff.mpr
  refine ⟨(link, t₁), findOrInsert_of_some hinsert q, ?_⟩
  obtain ⟨found, hread, hstored⟩ := Option.bind_eq_some_iff.mp hrest
  apply Option.bind_eq_some_iff.mpr
  refine ⟨found, hread, ?_⟩
  cases found with
  | none => exact hstored
  | some p =>
      obtain ⟨e, he, hwritten⟩ := Option.bind_eq_some_iff.mp hstored
      apply Option.bind_eq_some_iff.mpr
      refine ⟨e, he, ?_⟩
      dsimp only at hwritten ⊢
      split at hwritten
      next hgrows =>
        obtain ⟨t₂, hexpand, heq⟩ := Option.map_eq_some_iff.mp hwritten
        rw [if_pos hgrows, expandArray_of_some hexpand]
        exact congrArg some heq
      next hfits =>
        rw [if_neg hfits]
        exact hwritten

end Allocations

/-! ## Calls of the table -/

/-- The table is at the end of some calls that leave the registry in it. -/
def Serves (t : FdPoll) (r : Registry) : Prop :=
  ∃ calls, RunBelow calls t ∧ Watches (stored calls) r

/-- A call of the table that returns extends the run. -/
theorem run_concat {calls : List (HashCall EngineFd × HashRet EngineFd)} {call : HashCall EngineFd}
    {ret : HashRet EngineFd} (run : RunBelow calls t) (hcontract : call.Contract t)
    (hrun : call.run t = some (ret, t')) : RunBelow (calls ++ [(call, ret)]) t' ∧ Grows t t' := by
  obtain ⟨chain, recycled, hmaps⟩ := Run.maps run
  have hbelow : BelowLimit t call := by
    by_contra hbeyond
    rw [hmaps.run_eq_none hcontract hbeyond] at hrun
    exact absurd hrun.symm (Option.some_ne_none _)
  have taken : (hashSystem EngineFd).step t (call, ret) t' := ⟨hcontract, hrun⟩
  obtain ⟨_, _, hstocked⟩ := Run.stocked (Run.keyed run)
  have hkeyed : (keyedSystem Created).step t (call, ret) t' := keyed_of_step taken
  obtain ⟨_, _, -, hgrows, -⟩ := hstocked.step hkeyed
  exact ⟨run.extend hbelow taken, hgrows⟩

/-- The insertion or replacement of a file descriptor. -/
theorem Serves.push (h : Serves t r) (hfd : ValidFd fd) {temporary : Bool}
    {mem : Option EntryPtr} {arrayMem : Bool} {old : Option EngineFd}
    (fresh : ∀ q, mem = some q → t.entry q = none)
    (hpush : t.hashPush (fdKey fd) ⟨fd, temporary⟩ mem arrayMem = some (old, t')) :
    Serves t' (Function.update r fd (some temporary)) ∧ Grows t t' := by
  obtain ⟨calls, run, hwatches⟩ := h
  obtain ⟨chain, recycled, hmaps⟩ := Run.maps run
  obtain ⟨q, hq⟩ := hmaps.exists_fresh
  have hcontract : (HashCall.push (fdKey fd) ⟨fd, temporary⟩ (mem.getD q)).Contract t := by
    refine ⟨fdKey_admissible hfd, ?_⟩
    cases mem with
    | none => exact hq
    | some p => exact fresh p rfl
  have hrun : (HashCall.push (fdKey fd) ⟨fd, temporary⟩ (mem.getD q)).run t =
      some (.value old, t') := by
    rw [HashCall.run, hashPush_of_some hpush q]
    rfl
  obtain ⟨run', hgrows⟩ := run_concat run hcontract hrun
  refine ⟨⟨_, run', ?_⟩, hgrows⟩
  rw [Hash.stored_concat]
  exact hwatches.update hfd (some temporary)

/-- The removal of a file descriptor always returns. -/
theorem Serves.pop (h : Serves t r) (hfd : ValidFd fd) :
    ∃ old t', t.hashPop (fdKey fd) = some (old, t') ∧ Serves t' (Function.update r fd none) ∧
      Grows t t' := by
  obtain ⟨calls, run, hwatches⟩ := h
  obtain ⟨chain, recycled, hmaps⟩ := Run.maps run
  obtain ⟨t', -, -, hpop, -⟩ := hmaps.hashPop (fdKey fd)
  have hrun : (HashCall.pop (fdKey fd)).run t = some (.value (stored calls (fdKey fd)), t') := by
    rw [HashCall.run, hpop]
    rfl
  have hcontract : (HashCall.pop (fdKey fd)).Contract t := fdKey_admissible hfd
  obtain ⟨run', hgrows⟩ := run_concat run hcontract hrun
  refine ⟨_, t', hpop, ⟨_, run', ?_⟩, hgrows⟩
  rw [Hash.stored_concat]
  exact hwatches.update hfd none

/-! ## Calls of the pool -/

theorem Serves.valid (h : Serves t r) (hr : r fd ≠ none) : ValidFd fd := by
  obtain ⟨calls, -, hwatches⟩ := h
  exact hwatches.valid fd hr

theorem Serves.engineFdAdd (h : Serves t r) (hfd : ValidFd fd) {temporary : Bool} {mem : PoolMem}
    (hfresh : PoolCall.Fresh t mem) (hadd : engineFdAdd t fd temporary mem = some (code, t')) :
    code = (if mem.engineFd then .ok else .outOfMem) ∧
      Serves t' (if mem.engineFd then Function.update r fd (some temporary) else r) ∧
        Grows t t' := by
  unfold Utils.FdPool.engineFdAdd at hadd
  split at hadd
  next hallocated =>
    obtain ⟨⟨old, t₁⟩, hpush, heq⟩ := Option.map_eq_some_iff.mp hadd
    obtain ⟨rfl, rfl⟩ := Prod.mk.inj heq
    have hentry : ∀ q, mem.entry = some q → t.entry q = none := by
      intro q hq
      simpa only [PoolCall.Fresh, hq] using hfresh
    rw [if_pos hallocated, if_pos hallocated]
    exact ⟨rfl, h.push hfd hentry hpush⟩
  next hfailed =>
    obtain ⟨rfl, rfl⟩ := Prod.mk.inj (Option.some.inj hadd)
    rw [if_neg hfailed, if_neg hfailed]
    exact ⟨rfl, h, .refl t⟩

/-- A call of the engine's interface answers as it does and changes the registry. -/
theorem Serves.call (h : Serves t r) (hcontract : c.Contract t)
    (hrun : c.run t = some (code, t')) :
    code = answerOf c ∧ Serves t' (registryAfter r c) ∧ Grows t t' := by
  cases c with
  | add fd temporary mem =>
      rw [run_add, selectEngineFdAdd] at hrun
      split at hrun
      next hneg =>
        obtain ⟨rfl, rfl⟩ := Prod.mk.inj (Option.some.inj hrun)
        rw [answerOf, if_pos hneg, registryAfter, if_neg fun hpos => not_lt.mpr hpos.1 hneg]
        exact ⟨rfl, h, .refl t⟩
      next hnonneg =>
        obtain ⟨hcode, hserves, hgrows⟩ :=
          h.engineFdAdd ⟨not_lt.mp hnonneg, hcontract.1⟩ hcontract.2 hrun
        rw [answerOf, if_neg hnonneg]
        refine ⟨hcode, ?_, hgrows⟩
        simpa only [registryAfter, not_lt.mp hnonneg, true_and] using hserves
  | del fd =>
      rw [PoolCall.run, selectEngineFdDel] at hrun
      split at hrun
      next hneg =>
        obtain ⟨rfl, rfl⟩ := Prod.mk.inj (Option.some.inj hrun)
        have hnone : r fd = none := not_not.mp fun hr => not_lt.mpr (h.valid hr).1 hneg
        have hsame : Function.update r fd none = r := Function.update_eq_self_iff.mpr hnone.symm
        rw [answerOf, if_pos hneg, registryAfter, hsame]
        exact ⟨rfl, h, .refl t⟩
      next hnonneg =>
        obtain ⟨old, t₁, hpop, hserves, hgrows⟩ := h.pop ⟨not_lt.mp hnonneg, hcontract⟩
        simp only [engineFdDel, hpop, Option.map_some] at hrun
        obtain ⟨rfl, rfl⟩ := Prod.mk.inj (Option.some.inj hrun)
        rw [answerOf, if_neg hnonneg]
        exact ⟨rfl, hserves, hgrows⟩

/-! ## Creation -/

/-- The registry of an engine that watches its pipe, if the pipe could be added. -/
def Starts (r : Registry) : Prop :=
  r = nothing ∨ ∃ manageFd, ValidFd manageFd ∧ r = Function.update nothing manageFd (some false)

theorem serves_empty : Serves emptyPool nothing := by
  have hinit : (hashSystem EngineFd).init emptyPool :=
    ⟨100, some fdPollHashFunc, by decide, hashCreate_pool⟩
  exact ⟨[], .start hinit, watches_empty⟩

theorem serves_of_createPool {manageFd : Fd} {mem : PoolMem} (hfd : ValidFd manageFd)
    (hcreate : createPool manageFd mem = some (code, t)) :
    ∃ r, (r = nothing ∨ r = Function.update nothing manageFd (some false)) ∧ Serves t r := by
  rw [createPool, hashCreate_pool] at hcreate
  have hfresh : PoolCall.Fresh emptyPool mem := by
    unfold PoolCall.Fresh
    split
    · trivial
    · rfl
  obtain ⟨-, hserves, -⟩ := serves_empty.engineFdAdd hfd hfresh hcreate
  split at hserves
  · exact ⟨_, Or.inr rfl, hserves⟩
  · exact ⟨_, Or.inl rfl, hserves⟩

/-- The registry that the calls of a history leave. -/
def watched (start : Registry) (history : List (PoolCall × BliveErrno)) : Registry :=
  history.foldl (fun r label => registryAfter r label.1) start

theorem watched_concat (start : Registry) (history : List (PoolCall × BliveErrno))
    (label : PoolCall × BliveErrno) :
    watched start (history ++ [label]) = registryAfter (watched start history) label.1 := by
  simp [watched]

/-- Every pool holds the registry of its calls, and every call was answered as it says. -/
theorem serves_of_trace {history : List (PoolCall × BliveErrno)}
    (run : fdPool.Trace history t) : ∃ start, Starts start ∧ Serves t (watched start history) ∧
      ∀ label ∈ history, label.2 = answerOf label.1 := by
  apply run.invariant (I := fun history t => ∃ start, Starts start ∧
    Serves t (watched start history) ∧ ∀ label ∈ history, label.2 = answerOf label.1)
  · rintro t ⟨manageFd, mem, code, hnonneg, hlt, hcreate⟩
    obtain ⟨start, hstarts, hserves⟩ := serves_of_createPool ⟨hnonneg, hlt⟩ hcreate
    have hstarts' : Starts start := hstarts.imp_right fun heq => ⟨manageFd, ⟨hnonneg, hlt⟩, heq⟩
    exact ⟨start, hstarts', hserves, fun label hmem => absurd hmem List.not_mem_nil⟩
  · rintro history t ⟨c, code⟩ t' - ⟨start, hstarts, hserves, hanswers⟩ - ⟨hcontract, hrun⟩
    obtain ⟨hcode, hserves', -⟩ := hserves.call hcontract hrun
    refine ⟨start, hstarts, by rwa [watched_concat], fun label hmem => ?_⟩
    rcases List.mem_append.mp hmem with hold | hnew
    · exact hanswers label hold
    · obtain rfl := List.mem_singleton.mp hnew
      exact hcode

end BliveQueue.FdPool
