/-
# Labelled systems and their guarded runs

A system is an initial predicate and a labelled step relation. A run records
the labels it took, oldest first, because most laws of an interactive component
speak about its call history and not only about the state it reached. Every run
carries a guard on the steps it may take; the unguarded runs are the ones whose
guard is always true. Invariants and simulations are proved once here, by
induction on the run, and instantiated by one step lemma each.
-/

import Mathlib.Data.List.Induction

namespace BliveQueue.Math

universe u v w x

/-- An initial predicate and a labelled step relation. -/
structure System (σ : Type u) (Λ : Type v) where
  /-- The states a run may start in. -/
  init : σ → Prop
  /-- One step from a state to a state, observed through its label. -/
  step : σ → Λ → σ → Prop

namespace System

variable {σ : Type u} {Λ : Type v} {τ : Type w} {Ω : Type x}

/-- The finite runs all of whose steps satisfy `guard`, with their labels in
the order in which they were taken. -/
inductive Run (M : System σ Λ) (guard : σ → Λ → Prop) : List Λ → σ → Prop
  | start {s : σ} (initial : M.init s) : Run M guard [] s
  | extend {history : List Λ} {s s' : σ} {label : Λ} (prior : Run M guard history s)
      (allowed : guard s label) (taken : M.step s label s') :
      Run M guard (history ++ [label]) s'

/-- The guard that admits every step. -/
def anyStep (_ : σ) (_ : Λ) : Prop := True

/-- The unguarded runs. -/
abbrev Trace (M : System σ Λ) : List Λ → σ → Prop := M.Run anyStep

variable {M : System σ Λ} {guard : σ → Λ → Prop}

/-- A property of histories and states that holds initially and survives every
guarded step holds along every guarded run. The step may use the run itself. -/
theorem Run.invariant {I : List Λ → σ → Prop}
    (initial : ∀ s, M.init s → I [] s)
    (preserved : ∀ history s label s', M.Run guard history s → I history s →
      guard s label → M.step s label s' → I (history ++ [label]) s')
    {history : List Λ} {s : σ} (run : M.Run guard history s) : I history s := by
  induction run with
  | start hinit => exact initial _ hinit
  | extend prior allowed taken ih => exact preserved _ _ _ _ prior ih allowed taken

/-- Weakening the guard keeps every run. -/
theorem Run.mono {weaker : σ → Λ → Prop}
    (himp : ∀ s label, guard s label → weaker s label)
    {history : List Λ} {s : σ} (run : M.Run guard history s) :
    M.Run weaker history s := by
  induction run with
  | start hinit => exact .start hinit
  | extend _ allowed taken ih => exact ih.extend (himp _ _ allowed) taken

/-- Every guarded run is an unguarded one. -/
theorem Run.trace {history : List Λ} {s : σ} (run : M.Run guard history s) :
    M.Trace history s :=
  run.mono fun _ _ _ => trivial

/-- A run without steps is in an initial state. -/
theorem Run.init_of_nil {s : σ} (run : M.Run guard [] s) : M.init s := by
  generalize hnil : ([] : List Λ) = history at run
  cases run with
  | start initial => exact initial
  | extend _ _ _ => simp at hnil

/-- The last step of a run. -/
theorem Run.exists_of_concat {history : List Λ} {label : Λ} {s' : σ}
    (run : M.Run guard (history ++ [label]) s') :
    ∃ s, M.Run guard history s ∧ guard s label ∧ M.step s label s' := by
  cases hlabels : history ++ [label] with
  | nil => simp at hlabels
  | cons _ _ =>
      generalize hall : history ++ [label] = labels at run
      cases run with
      | start _ => simp at hall
      | extend prior allowed taken =>
          obtain ⟨rfl, hlabel⟩ := List.append_inj' hall rfl
          obtain rfl : label = _ := by simpa using hlabel
          exact ⟨_, prior, allowed, taken⟩

/-- Every prefix of a history is the history of a run. -/
theorem Run.exists_of_append {before after : List Λ} {s : σ}
    (run : M.Run guard (before ++ after) s) : ∃ s, M.Run guard before s := by
  induction after using List.reverseRecOn generalizing s with
  | nil => exact ⟨s, by simpa using run⟩
  | append_singleton after label ih =>
      rw [← List.append_assoc] at run
      obtain ⟨t, hrun, -⟩ := run.exists_of_concat
      exact ih hrun

/-- Behind every prefix of a history a step was taken. -/
theorem Run.exists_step {before after : List Λ} {label : Λ} {s : σ}
    (run : M.Run guard (before ++ label :: after) s) :
    ∃ s₀ s₁, M.Run guard before s₀ ∧ guard s₀ label ∧ M.step s₀ label s₁ := by
  rw [List.append_cons] at run
  obtain ⟨s₁, hprefix⟩ := run.exists_of_append
  obtain ⟨s₀, hbefore, hallowed, taken⟩ := hprefix.exists_of_concat
  exact ⟨s₀, s₁, hbefore, hallowed, taken⟩

/-! ## Continuations -/

/-- A run with this history can be continued by steps with admitted labels to a state with
the property. -/
def CanReach (M : System σ Λ) (guard : σ → Λ → Prop) (admitted : Λ → Prop) (history : List Λ)
    (P : σ → Prop) : Prop :=
  ∃ after s, (∀ label ∈ after, admitted label) ∧ M.Run guard (history ++ after) s ∧ P s

variable {admitted : Λ → Prop} {P Q : σ → Prop}

/-- A run that is there already. -/
theorem CanReach.refl {history : List Λ} {s : σ} (run : M.Run guard history s) (hP : P s) :
    M.CanReach guard admitted history P :=
  ⟨[], s, fun label hmem => absurd hmem List.not_mem_nil, by simpa using run, hP⟩

/-- One step first. -/
theorem CanReach.step {history : List Λ} {label : Λ} (hlabel : admitted label)
    (h : M.CanReach guard admitted (history ++ [label]) P) :
    M.CanReach guard admitted history P := by
  obtain ⟨after, s, hafter, run, hP⟩ := h
  refine ⟨label :: after, s, fun l hl => ?_, by simpa using run, hP⟩
  rcases List.mem_cons.mp hl with rfl | hmem
  · exact hlabel
  · exact hafter l hmem

theorem CanReach.mono {history : List Λ} (h : M.CanReach guard admitted history P)
    (himp : ∀ s, P s → Q s) : M.CanReach guard admitted history Q := by
  obtain ⟨after, s, hafter, run, hP⟩ := h
  exact ⟨after, s, hafter, run, himp s hP⟩

/-! ## Simulations and executions -/

/-- A run of one system is followed step by step by a run of another when the
relation holds initially and each related step can be answered. -/
theorem Run.simulate {N : System τ Ω} {answerGuard : τ → Ω → Prop}
    (R : σ → τ → Prop) (image : Λ → Ω)
    (initial : ∀ s, M.init s → ∃ t, N.init t ∧ R s t)
    (answered : ∀ s label s' t, R s t → guard s label → M.step s label s' →
      ∃ t', answerGuard t (image label) ∧ N.step t (image label) t' ∧ R s' t')
    {history : List Λ} {s : σ} (run : M.Run guard history s) :
    ∃ t, N.Run answerGuard (history.map image) t ∧ R s t := by
  induction run with
  | start hinit =>
      obtain ⟨t, ht, hrel⟩ := initial _ hinit
      exact ⟨t, .start ht, hrel⟩
  | extend _ allowed taken ih =>
      obtain ⟨t, hrun, hrel⟩ := ih
      obtain ⟨t', hallowed, hstep, hrel'⟩ := answered _ _ _ _ hrel allowed taken
      exact ⟨t', by simpa using hrun.extend hallowed hstep, hrel'⟩

/-- A run is followed by a run of another system that stands still while a step has no
image. -/
theorem Run.stutter {N : System τ Ω} {answerGuard : τ → Ω → Prop}
    (R : σ → τ → Prop) (image : Λ → Option Ω)
    (initial : ∀ s, M.init s → ∃ t, N.init t ∧ R s t)
    (silent : ∀ s label s' t, R s t → guard s label → M.step s label s' →
      image label = none → R s' t)
    (answered : ∀ s label s' t answer, R s t → guard s label → M.step s label s' →
      image label = some answer →
        ∃ t', answerGuard t answer ∧ N.step t answer t' ∧ R s' t')
    {history : List Λ} {s : σ} (run : M.Run guard history s) :
    ∃ t, N.Run answerGuard (history.filterMap image) t ∧ R s t := by
  induction run with
  | start hinit =>
      obtain ⟨t, ht, hrel⟩ := initial _ hinit
      exact ⟨t, .start ht, hrel⟩
  | @extend history s s' label _ allowed taken ih =>
      obtain ⟨t, hrun, hrel⟩ := ih
      rw [List.filterMap_append]
      cases himage : image label with
      | none =>
          refine ⟨t, ?_, silent _ _ _ _ hrel allowed taken himage⟩
          simpa [himage] using hrun
      | some answer =>
          obtain ⟨t', hallowed, hstep, hrel'⟩ := answered _ _ _ _ _ hrel allowed taken himage
          refine ⟨t', ?_, hrel'⟩
          simpa [himage] using hrun.extend hallowed hstep

/-- Feed a list of inputs to an executable transition function. -/
def execute {ι : Type x} (next : σ → ι → Option (Λ × σ)) : σ → List ι → Option (List Λ × σ)
  | s, [] => some ([], s)
  | s, input :: inputs =>
    match next s input with
    | none => none
    | some (label, s') => (execute next s' inputs).map fun r => (label :: r.1, r.2)

/-- An execution of allowed steps extends a run. -/
theorem Run.execute {ι : Type x} {next : σ → ι → Option (Λ × σ)}
    (sound : ∀ s input label s', next s input = some (label, s') →
      guard s label ∧ M.step s label s')
    {history labels : List Λ} {s t : σ} (run : M.Run guard history s) {inputs : List ι}
    (h : execute next s inputs = some (labels, t)) : M.Run guard (history ++ labels) t := by
  induction inputs generalizing history labels s with
  | nil =>
      obtain ⟨rfl, rfl⟩ := Prod.mk.inj (Option.some.inj h)
      simpa using run
  | cons input inputs ih =>
      cases hnext : next s input with
      | none => simp [System.execute, hnext] at h
      | some r =>
          obtain ⟨label, s'⟩ := r
          simp only [System.execute, hnext, Option.map_eq_some_iff, Prod.mk.injEq] at h
          obtain ⟨⟨labels', t'⟩, hrest, rfl, rfl⟩ := h
          obtain ⟨hallowed, htaken⟩ := sound _ _ _ _ hnext
          simpa using ih (run.extend hallowed htaken) hrest

/-- A test that an execution passes holds at the end of a run. -/
theorem Run.exists_of_execute {ι : Type x} {next : σ → ι → Option (Λ × σ)}
    (sound : ∀ s input label s', next s input = some (label, s') →
      guard s label ∧ M.step s label s')
    {s : σ} (initial : M.init s) (inputs : List ι) (test : List Λ × σ → Bool)
    (h : (System.execute next s inputs).any test = true) :
    ∃ history t, M.Run guard history t ∧ test (history, t) = true := by
  obtain ⟨⟨labels, t⟩, hexec, htest⟩ := (Option.any_eq_true _ _).mp h
  exact ⟨labels, t, by simpa using (Run.start initial).execute sound hexec, htest⟩

/-! ## Systems of calls -/

instance (s : σ) (label : Λ) : Decidable (anyStep s label) := inferInstanceAs (Decidable True)

/-- One call of a client who keeps the contract, when the step passes the guard. -/
def callNext {ι ρ : Type x} (contract : σ → ι → Prop) (call : σ → ι → Option (ρ × σ))
    (guard : σ → ι × ρ → Prop) [∀ s c, Decidable (contract s c)]
    [∀ s label, Decidable (guard s label)] (s : σ) (c : ι) : Option ((ι × ρ) × σ) :=
  if contract s c then
    ((call s c).map fun r => ((c, r.1), r.2)).filter fun r => guard s r.1
  else none

theorem callNext_sound {ι ρ : Type x} {contract : σ → ι → Prop}
    {call : σ → ι → Option (ρ × σ)} {guard : σ → ι × ρ → Prop}
    [∀ s c, Decidable (contract s c)] [∀ s label, Decidable (guard s label)]
    (s : σ) (c : ι) (label : ι × ρ) (s' : σ)
    (h : callNext contract call guard s c = some (label, s')) :
    guard s label ∧ contract s label.1 ∧ call s label.1 = some (label.2, s') := by
  by_cases hkept : contract s c
  · simp only [callNext, if_pos hkept, Option.filter_eq_some_iff, Option.map_eq_some_iff,
      Prod.mk.injEq, decide_eq_true_eq, Prod.exists] at h
    obtain ⟨⟨ret, _, hcall, rfl, rfl⟩, hguard⟩ := h
    exact ⟨hguard, hkept, hcall⟩
  · simp [callNext, hkept] at h

end System

end BliveQueue.Math
