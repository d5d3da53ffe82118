/-
# Runs that leave the pipe to the engine

A client who adds or removes the file descriptor of the pipe takes the pipe from the engine:
the loop does not watch it any more, or it calls the callback of the client. As long as no call
names this file descriptor, an engine whose creation has registered the pipe keeps it: the entry
is not temporary, so no dispatch removes it, its callback stays `__manage_fd_callback`, and the
pipe is in every fd set that the loop builds.
-/

import BliveQueue.Engine.Lock

namespace BliveQueue.Engine

open BliveQueue.FdPool BliveQueue.Math BliveQueue.Utils BliveQueue.Utils.Engine
open BliveQueue.Utils.Engine.SelectEngineT BliveQueue.Utils.FdPool BliveQueue.Utils.Select

variable {s s' : SelectEngineT} {act : SelectEngineT.Action} {r : Registry} {fd : Fd}
variable {caller : Option Caller} {history : List SelectEngineT.Action}

/-- No push finds the queue full, and no call names the file descriptor of the pipe. -/
def LeavesPipe (s : SelectEngineT) (act : SelectEngineT.Action) : Prop :=
  PushesFit s act ∧
    match act with
    | .poolCall _ p => p.fd ≠ s.loop.manageFd
    | _ => True

/-- An engine that watches its pipe for good. -/
structure Attended (s : SelectEngineT) : Prop where
  awake : Awake s
  steady : Steady s
  kept : ∃ r, Serves s.round.fdPoll r ∧ r s.loop.manageFd = some false
  reads : ReadsPipe s.loop
  callback : s.manageCb = true

theorem Attended.watches (h : Attended s) : WatchesPipe s := by
  obtain ⟨r, hserves, hr⟩ := h.kept
  exact hserves.registered_iff.mpr (hr ▸ Option.some_ne_none false)

/-- Outside a callback the engine's own thread has no call under way. -/
theorem Attended.idle (h : Attended s) (hout : ¬ s.loop.InCallback) :
    s.loop.callState .engine = .idle :=
  h.awake.quiet hout

/-! ## Steps -/

theorem Moves.manageFd_eq (move : Moves s caller s') : s'.loop.manageFd = s.loop.manageFd := by
  cases move with
  | perform _ _ performs => cases performs <;> rfl
  | call _ calls => cases calls <;> rfl
  | watch | wake | dispatch | advance | manage | refuse | pool | stop | tick => rfl

/-- A call leaves the entries of the other file descriptors alone. -/
theorem registryAfter_of_ne {p : PoolCall} (hne : fd ≠ p.fd) : registryAfter r p fd = r fd := by
  cases p with
  | add fd' temporary mem =>
      rw [registryAfter]
      split
      · exact Function.update_of_ne hne _ _
      · rfl
  | del fd' => exact Function.update_of_ne hne _ _

/-- The walk leaves the entries that are not temporary alone. -/
theorem registryStep_of_lasting {obs : FdPool.Observation} (hlasting : r fd ≠ some true) :
    registryStep r (.advance, obs) fd = r fd := by
  cases obs with
  | invoked fd' =>
      rw [registryStep]
      split
      next htemporary =>
        have hne : fd ≠ fd' := by
          rintro rfl
          exact hlasting htemporary
        exact Function.update_of_ne hne _ _
      next => rfl
  | silent | called _ _ => rfl

/-- A step that leaves the pipe alone leaves its entry alone, if that is not temporary. -/
theorem serves_of_step (hstands : Stands s) (hserves : Serves s.round.fdPoll r)
    (hleaves : LeavesPipe s act) (hlasting : r s.loop.manageFd ≠ some true)
    (hstep : engineSystem.step s act s') :
    ∃ r', Serves s'.round.fdPoll r' ∧ r' s.loop.manageFd = r s.loop.manageFd := by
  obtain ⟨hcontract, hnext⟩ := hstep
  cases act with
  | perform ret readable =>
      rcases perform_cases hnext with
        ⟨_, _, _, -, -, -, ⟨hsame, -⟩ | hstart⟩ | ⟨hpc, -, obs, hadvance⟩
      · exact ⟨r, hsame ▸ hserves, rfl⟩
      · exact ⟨r, table_of_startRound hstart ▸ hserves, rfl⟩
      · have hnot : s.round.pc ≠ .finished := by
          intro hfinished
          simp [Round.advance, hfinished] at hadvance
        obtain ⟨obs', round, hadvance', -, hserves', -⟩ :=
          hserves.advances (hstands.walk hpc) hnot
        obtain ⟨rfl, rfl⟩ := Prod.mk.inj (Option.some.inj (hadvance'.symm.trans hadvance))
        exact ⟨_, hserves', registryStep_of_lasting hlasting⟩
  | poolCall c p =>
      change s.poolCall c p = _ at hnext
      unfold SelectEngineT.poolCall at hnext
      split at hnext
      next =>
        obtain ⟨⟨code, t⟩, hrun, rfl⟩ := Option.map_eq_some_iff.mp hnext
        have hne : s.loop.manageFd ≠ p.fd := hleaves.2.symm
        exact ⟨_, (hserves.call hcontract hrun).2.1, registryAfter_of_ne hne⟩
      next => exact absurd hnext.symm (Option.some_ne_none _)
  | manageFdCallback =>
      obtain ⟨r', -, rfl⟩ := loop_of_manageFdCallback hnext
      exact ⟨r, hserves, rfl⟩
  | call c a =>
      obtain ⟨r', -, rfl⟩ := loop_of_call hnext
      exact ⟨r, hserves, rfl⟩
  | stop | tick _ =>
      obtain rfl := Option.some.inj hnext
      exact ⟨r, hserves, rfl⟩

theorem Moves.manageCb_eq (move : Moves s none s') : s'.manageCb = s.manageCb := by
  cases move <;> rfl

/-- Only a call that names the pipe gives it another callback. -/
theorem manageCb_of_step (hpool : IsPool s.round.fdPoll) (hleaves : LeavesPipe s act)
    (hstep : engineSystem.step s act s') : s'.manageCb = s.manageCb := by
  have hmove := moves_of_step hpool hstep
  obtain ⟨-, hnext⟩ := hstep
  cases act with
  | perform _ _ | manageFdCallback | stop | tick _ => exact hmove.manageCb_eq
  | call c a =>
      obtain ⟨r, -, rfl⟩ := loop_of_call hnext
      rfl
  | poolCall c p =>
      change s.poolCall c p = _ at hnext
      unfold SelectEngineT.poolCall at hnext
      split at hnext
      next =>
        obtain ⟨⟨code, t⟩, -, rfl⟩ := Option.map_eq_some_iff.mp hnext
        have hnot : ¬ s.Replaces p code := by
          cases p with
          | add fd temporary mem => exact fun hreplaces => hleaves.2 hreplaces.1
          | del fd => exact id
        simp [hnot]
      next => exact absurd hnext.symm (Option.some_ne_none _)

theorem Attended.step (h : Attended s) (hleaves : LeavesPipe s act)
    (hstep : engineSystem.step s act s') : Attended s' := by
  obtain ⟨r, hserves, hr⟩ := h.kept
  have hmove := moves_of_step h.awake.pool hstep
  have hlasting : r s.loop.manageFd ≠ some true := by simp [hr]
  obtain ⟨r', hserves', hr'⟩ := serves_of_step h.steady.toStands hserves hleaves hlasting hstep
  refine ⟨h.awake.move hmove, h.steady.step hleaves.1 hstep, ⟨r', hserves', ?_⟩, ?_, ?_⟩
  · rw [hmove.manageFd_eq, hr', hr]
  · exact h.reads.move h.awake.pool hmove fun _ _ => h.watches
  · rw [manageCb_of_step h.awake.pool hleaves hstep, h.callback]

/-! ## Runs -/

instance (s : SelectEngineT) : (act : SelectEngineT.Action) → Decidable (LeavesPipe s act)
  | .poolCall c p => inferInstanceAs (Decidable (PushesFit s (.poolCall c p) ∧ p.fd ≠ _))
  | .perform ret readable =>
    inferInstanceAs (Decidable (PushesFit s (.perform ret readable) ∧ True))
  | .manageFdCallback => inferInstanceAs (Decidable (PushesFit s .manageFdCallback ∧ True))
  | .call c a => inferInstanceAs (Decidable (PushesFit s (.call c a) ∧ True))
  | .stop => inferInstanceAs (Decidable (PushesFit s .stop ∧ True))
  | .tick d => inferInstanceAs (Decidable (PushesFit s (.tick d) ∧ True))

end BliveQueue.Engine
