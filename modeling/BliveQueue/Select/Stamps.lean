/-
# Stamps

No event is pushed twice, along every run: every event is built once and pushed by
the call that built it.
-/

import BliveQueue.Select.Steps

namespace BliveQueue.Select

open BliveQueue.Utils.Select BliveQueue.Utils.Select.SelectEngine

variable {s s' : SelectEngine} {act : Action} {obs : Observation} {c : Caller}
variable {a : CallAction} {pushed : List EngineEvent}

/-- The events pushed so far are distinct, and the ones under way are distinct, new and
each in the hands of one caller. -/
structure Stamps (pushed : List EngineEvent) (s : SelectEngine) : Prop where
  nodup : pushed.Nodup
  old : ∀ e ∈ pushed, e.id < s.events
  fresh : ∀ c e, s.callState c = .stamped e → e.id < s.events ∧ e ∉ pushed
  distinct : ∀ c c' e, s.callState c = .stamped e → s.callState c' = .stamped e → c = c'

theorem Stamps.congr (h : Stamps pushed s) (hcalls : s'.callState = s.callState)
    (hevents : s'.events = s.events) : Stamps pushed s' where
  nodup := h.nodup
  old := by rw [hevents]; exact h.old
  fresh := by rw [hevents, hcalls]; exact h.fresh
  distinct := by rw [hcalls]; exact h.distinct

/-- What the other callers hold after a step of one call. -/
theorem stamped_of_update {st : CallState} {c' : Caller} {e : EngineEvent}
    (hst : ∀ e, st ≠ .stamped e)
    (h : Function.update s.callState c st c' = .stamped e) :
    c' ≠ c ∧ s.callState c' = .stamped e := by
  rcases eq_or_ne c' c with rfl | hne
  · rw [Function.update_self] at h
    exact absurd h (hst e)
  · rw [Function.update_of_ne hne] at h
    exact ⟨hne, h⟩

/-- A call that goes on without an event in hand. -/
theorem Stamps.update (st : CallState) (h : Stamps pushed s) (hst : ∀ e, st ≠ .stamped e)
    (hcalls : s'.callState = Function.update s.callState c st) (hevents : s'.events = s.events) :
    Stamps pushed s' where
  nodup := h.nodup
  old := by rw [hevents]; exact h.old
  fresh c' e hc' := by
    rw [hcalls] at hc'
    rw [hevents]
    exact h.fresh c' e (stamped_of_update hst hc').2
  distinct c' c'' e hc' hc'' := by
    rw [hcalls] at hc' hc''
    exact h.distinct c' c'' e (stamped_of_update hst hc').2 (stamped_of_update hst hc'').2

/-- A call builds its event. -/
theorem Stamps.stamp {e : EngineEvent} (h : Stamps pushed s) (hid : e.id = s.events)
    (hcalls : s'.callState = Function.update s.callState c (.stamped e))
    (hevents : s'.events = s.events + 1) : Stamps pushed s' where
  nodup := h.nodup
  old e' he' := by
    rw [hevents]
    exact Nat.lt_succ_of_lt (h.old e' he')
  fresh c' e' hc' := by
    rw [hcalls] at hc'
    rw [hevents]
    rcases eq_or_ne c' c with rfl | hne
    · rw [Function.update_self] at hc'
      obtain rfl := CallState.stamped.inj hc'
      exact ⟨by omega, fun hmem => absurd (h.old e hmem) (by omega)⟩
    · rw [Function.update_of_ne hne] at hc'
      obtain ⟨hlt, hnew⟩ := h.fresh c' e' hc'
      exact ⟨Nat.lt_succ_of_lt hlt, hnew⟩
  distinct c' c'' e' hc' hc'' := by
    rw [hcalls] at hc' hc''
    -- the new event is older than none, so nobody else holds it
    have hother : ∀ d, d ≠ c → s.callState d ≠ .stamped e := by
      intro d _ hd
      have hlt := (h.fresh d e hd).1
      omega
    rcases eq_or_ne c' c with rfl | hne'
    · rw [Function.update_self] at hc'
      obtain rfl := CallState.stamped.inj hc'
      by_contra hne
      rw [Function.update_of_ne (Ne.symm hne)] at hc''
      exact hother c'' (Ne.symm hne) hc''
    · rw [Function.update_of_ne hne'] at hc'
      rcases eq_or_ne c'' c with rfl | hne''
      · rw [Function.update_self] at hc''
        obtain rfl := CallState.stamped.inj hc''
        exact absurd hc' (hother c' hne')
      · rw [Function.update_of_ne hne''] at hc''
        exact h.distinct c' c'' e' hc' hc''

/-- A call pushes its event. -/
theorem Stamps.push {e : EngineEvent} (st : CallState) (h : Stamps pushed s)
    (hst : ∀ e, st ≠ .stamped e) (hc : s.callState c = .stamped e)
    (hcalls : s'.callState = Function.update s.callState c st) (hevents : s'.events = s.events) :
    Stamps (pushed ++ [e]) s' where
  nodup := List.nodup_append.mpr ⟨h.nodup, List.nodup_singleton e, fun x hx y hy heq =>
    (h.fresh c e hc).2 (List.mem_singleton.mp hy ▸ heq ▸ hx)⟩
  old e' he' := by
    rw [hevents]
    rcases List.mem_append.mp he' with hold | hnew
    · exact h.old e' hold
    · obtain rfl := List.mem_singleton.mp hnew
      exact (h.fresh c _ hc).1
  fresh c' e' hc' := by
    rw [hcalls] at hc'
    obtain ⟨hne, hheld⟩ := stamped_of_update hst hc'
    obtain ⟨hlt, hnew⟩ := h.fresh c' e' hheld
    rw [hevents]
    refine ⟨hlt, fun hmem => ?_⟩
    rcases List.mem_append.mp hmem with hold | hsame
    · exact hnew hold
    · obtain rfl := List.mem_singleton.mp hsame
      exact hne (h.distinct c' c _ hheld hc)
  distinct c' c'' e' hc' hc'' := by
    rw [hcalls] at hc' hc''
    exact h.distinct c' c'' e' (stamped_of_update hst hc').2 (stamped_of_update hst hc'').2

/-- A step that pushes nothing. -/
theorem Stamps.quiet (hnone : pushedEvent obs = none) (h : Stamps pushed s') :
    Stamps (pushed ++ (pushedEvent obs).toList) s' := by
  rw [hnone]
  simpa using h

theorem Stamps.calls (h : Stamps pushed s) (calls : Calls s c a obs s') :
    Stamps (pushed ++ (pushedEvent obs).toList) s' := by
  cases calls with
  | stamp _ _ _ => exact quiet rfl (h.stamp rfl rfl rfl)
  | @push _ _ event code q stamped _ =>
      by_cases hok : code = .ok
      · subst hok
        exact h.push .reloading (by simp) stamped rfl rfl
      · have hnone : pushedEvent (.pushed event code) = none := by
          cases code <;> first | rfl | exact absurd rfl hok
        exact quiet hnone (h.update .reloading (by simp) rfl rfl)
  | changeFds _ _ => exact quiet rfl (h.update .reloading (by simp) rfl rfl)
  | lock _ _ => exact quiet rfl (h.update .holding (by simp) rfl rfl)
  | busy _ _ => exact quiet rfl (h.update .signalling (by simp) rfl rfl)
  | unlock _ => exact quiet rfl (h.update .idle (by simp) rfl rfl)
  | signal _ => exact quiet rfl (h.update .idle (by simp) rfl rfl)

theorem Stamps.steps (h : Stamps pushed s) (steps : Steps s act obs s') :
    Stamps (pushed ++ (pushedEvent obs).toList) s' := by
  cases steps with
  | perform performs =>
      obtain ⟨hcalls, hevents, -, hnone⟩ := performs.frame
      exact quiet hnone (h.congr hcalls hevents)
  | call calls => exact h.calls calls
  | manage _ => exact quiet rfl (h.congr rfl rfl)
  | stop => exact quiet rfl (h.congr rfl rfl)
  | tick => exact quiet rfl (h.congr rfl rfl)

end BliveQueue.Select
