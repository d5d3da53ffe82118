/-
# A walk over a set that changes underneath it

A walk goes through the members of a set and calls those that are wanted. What it has
called inserts and removes members of the set, and an insertion may put members in
front of the walk that it has passed before. As long as no insertion puts a called
member in front of it again and no removal takes another member off its way, the walk
is exact: it calls no member twice, none that was removed, and every wanted member
that only its own call touches.
-/

import Mathlib.Data.List.Nodup
import Mathlib.Order.BooleanAlgebra.Set
import BliveQueue.Math.System

namespace BliveQueue.Math.Walk

universe u

variable {α : Type u}

/-- What the walk and the called members do. -/
inductive Event (α : Type u)
  | quiet
  | called (x : α)
  | removed (caller x : α)
  | inserted (caller x : α)
deriving DecidableEq

/-- The members, those that the walk has still to visit, and those that it has called. -/
structure State (α : Type u) where
  present : Set α
  ahead : Set α
  called : List α

/-- One step of the walk or of a called member. -/
inductive Step (wanted : α → Prop) : State α → Event α → State α → Prop
  | quiet {w : State α} : Step wanted w .quiet w
  | pass {w : State α} {x : α} (unwanted : ¬ wanted x) :
      Step wanted w .quiet { w with ahead := w.ahead \ {x} }
  | call {w : State α} {x : α} {present : Set α} (next : x ∈ w.ahead)
      (kept : w.present \ {x} ⊆ present) (within : present ⊆ w.present) :
      Step wanted w (.called x)
        { present := present, ahead := w.ahead \ {x}, called := w.called ++ [x] }
  | remove {w : State α} {caller x : α} (running : caller ∈ w.called) :
      Step wanted w (.removed caller x)
        { w with present := w.present \ {x}, ahead := w.ahead \ {x} }
  | insert {w : State α} {caller x : α} {ahead : Set α} (more : w.ahead ⊆ ahead)
      (within : ahead ⊆ insert x w.present)
      (fresh : ∀ y ∈ ahead, y ∈ w.ahead ∨ y ∉ w.called) :
      Step wanted w (.inserted caller x)
        { w with present := insert x w.present, ahead := ahead }

/-- The walks over some members. -/
def walk (wanted : α → Prop) (members : Set α) : System (State α) (Event α) where
  init w := w = ⟨members, members, []⟩
  step := Step wanted

def Event.called? : Event α → Option α
  | .called x => some x
  | _ => none

/-- The members that were called, in order. -/
def calls (events : List (Event α)) : List α := events.filterMap Event.called?

@[simp] theorem calls_nil : calls ([] : List (Event α)) = [] := rfl

@[simp] theorem calls_concat (events : List (Event α)) (event : Event α) :
    calls (events ++ [event]) = calls events ++ event.called?.toList := by
  rw [calls, calls, List.filterMap_append]
  cases event <;> rfl

/-- Only the call of `x` itself removes or inserts `x`. -/
def LeftAlone (events : List (Event α)) (x : α) : Prop :=
  (∀ caller, .removed caller x ∈ events → caller = x) ∧
    ∀ caller, .inserted caller x ∈ events → caller = x

/-- The member was removed and not inserted since. -/
def Gone (events : List (Event α)) (x : α) : Prop :=
  ∃ before caller after, events = before ++ .removed caller x :: after ∧
    ∀ caller', .inserted caller' x ∉ after

theorem LeftAlone.of_concat {events : List (Event α)} {event : Event α} {x : α}
    (h : LeftAlone (events ++ [event]) x) : LeftAlone events x :=
  ⟨fun caller hmem => h.1 caller (List.mem_append_left _ hmem),
    fun caller hmem => h.2 caller (List.mem_append_left _ hmem)⟩

theorem Gone.of_concat {events : List (Event α)} {event : Event α} {x : α}
    (h : Gone (events ++ [event]) x) :
    (∃ caller, event = .removed caller x) ∨
      Gone events x ∧ ∀ caller, event ≠ .inserted caller x := by
  obtain ⟨before, caller, after, heq, hnone⟩ := h
  rcases List.eq_nil_or_concat after with rfl | ⟨after, last, rfl⟩
  · obtain ⟨-, hlast⟩ := List.append_inj' heq rfl
    exact Or.inl ⟨caller, by simpa using hlast⟩
  · rw [List.concat_eq_append] at heq hnone
    rw [← List.cons_append, ← List.append_assoc] at heq
    obtain ⟨rfl, hlast⟩ := List.append_inj' heq rfl
    obtain rfl : event = last := by simpa using hlast
    refine Or.inr ⟨⟨before, caller, after, rfl, fun c hc => hnone c (by simp [hc])⟩, ?_⟩
    rintro c rfl
    exact hnone c (by simp)

/-- What holds along every walk. -/
structure Exact (wanted : α → Prop) (members : Set α) (events : List (Event α))
    (w : State α) : Prop where
  called : w.called = calls events
  within : w.ahead ⊆ w.present
  once : w.called.Nodup
  fresh : ∀ x ∈ w.ahead, x ∉ w.called
  gone : ∀ x, Gone events x → x ∉ w.present
  kept : ∀ x ∈ members, wanted x → LeftAlone events x → x ∈ w.ahead ∨ x ∈ w.called

theorem exact_init (wanted : α → Prop) (members : Set α) :
    Exact wanted members [] ⟨members, members, []⟩ := by
  refine ⟨rfl, subset_rfl, List.nodup_nil, fun x _ => List.not_mem_nil, ?_,
    fun x hx _ _ => Or.inl hx⟩
  rintro x ⟨before, caller, after, heq, -⟩
  simp at heq

variable {wanted : α → Prop} {members : Set α} {events : List (Event α)} {event : Event α}
variable {w w' : State α}

/-- One step keeps a walk exact. -/
theorem Exact.step (h : Exact wanted members events w) (hstep : Step wanted w event w') :
    Exact wanted members (events ++ [event]) w' := by
  have hgone : ∀ x, Gone (events ++ [event]) x →
      (∃ caller, event = .removed caller x) ∨
        x ∉ w.present ∧ ∀ caller, event ≠ .inserted caller x :=
    fun x hx => hx.of_concat.imp_right (And.imp_left (h.gone x))
  have hkept : ∀ x ∈ members, wanted x → LeftAlone (events ++ [event]) x →
      x ∈ w.ahead ∨ x ∈ w.called :=
    fun x hx hwanted halone => h.kept x hx hwanted halone.of_concat
  cases hstep with
  | quiet =>
      refine ⟨by simpa [Event.called?] using h.called, h.within, h.once, h.fresh, ?_, hkept⟩
      intro x hx
      exact ((hgone x hx).resolve_left (by simp)).1
  | @pass y unwanted =>
      refine ⟨by simpa [Event.called?] using h.called, Set.sdiff_subset.trans h.within, h.once,
        fun x hx => h.fresh x hx.1, ?_, fun x hx hwanted halone => ?_⟩
      · intro x hx
        exact ((hgone x hx).resolve_left (by simp)).1
      · refine (hkept x hx hwanted halone).imp_left fun hahead => ⟨hahead, ?_⟩
        rintro rfl
        exact unwanted hwanted
  | @call y present next kept within =>
      refine ⟨by simp [Event.called?, h.called], ?_, ?_, ?_, ?_, fun x hx hwanted halone => ?_⟩
      · exact (Set.sdiff_subset_sdiff_left h.within).trans kept
      · refine List.nodup_append.mpr ⟨h.once, List.nodup_singleton y, fun x hx z hz => ?_⟩
        rintro rfl
        exact h.fresh x (List.mem_singleton.mp hz ▸ next) hx
      · rintro x ⟨hahead, hne⟩ hx
        rcases List.mem_append.mp hx with hold | hnew
        · exact h.fresh x hahead hold
        · exact hne (List.mem_singleton.mp hnew)
      · intro x hx hpresent
        exact ((hgone x hx).resolve_left (by simp)).1 (within hpresent)
      · rcases eq_or_ne x y with rfl | hne
        · exact Or.inr (by simp)
        · exact (hkept x hx hwanted halone).imp (fun hahead => ⟨hahead, hne⟩)
            (List.mem_append_left _)
  | @remove caller y running =>
      refine ⟨by simpa [Event.called?] using h.called, Set.sdiff_subset_sdiff_left h.within, h.once,
        fun x hx => h.fresh x hx.1, ?_, fun x hx hwanted halone => ?_⟩
      · rintro x hx ⟨hpresent, hne⟩
        rcases hgone x hx with ⟨caller', heq⟩ | ⟨habsent, -⟩
        · exact hne (Event.removed.inj heq).2.symm
        · exact habsent hpresent
      · rcases eq_or_ne x y with rfl | hne
        · -- only the call of the member itself removes it
          obtain rfl := halone.1 caller (by simp)
          exact Or.inr running
        · exact (hkept x hx hwanted halone).imp_left fun hahead => ⟨hahead, hne⟩
  | @insert caller y ahead more within fresh =>
      refine ⟨by simpa [Event.called?] using h.called, within, h.once,
        fun x hx => (fresh x hx).elim (h.fresh x) id, ?_,
        fun x hx hwanted halone => (hkept x hx hwanted halone).imp_left fun hahead => more hahead⟩
      intro x hx hpresent
      obtain ⟨habsent, hother⟩ := (hgone x hx).resolve_left (by simp)
      rcases hpresent with rfl | hold
      · exact hother caller rfl
      · exact habsent hold

variable {guard : State α → Event α → Prop}

/-- Every walk is exact. -/
theorem exact_of_run (run : (walk wanted members).Run guard events w) :
    Exact wanted members events w := by
  refine System.Run.invariant ?_ ?_ run
  · rintro w rfl
    exact exact_init wanted members
  · intro history w event w' _ h _ hstep
    exact h.step hstep

/-- No member is called twice. -/
theorem calls_nodup (run : (walk wanted members).Run guard events w) : (calls events).Nodup :=
  (exact_of_run run).called ▸ (exact_of_run run).once

/-- A removed member is not called before it is inserted again. -/
theorem inserted_between {before between after : List (Event α)} {caller x : α}
    (run : (walk wanted members).Run guard
      (before ++ .removed caller x :: between ++ .called x :: after) w) :
    ∃ caller', .inserted caller' x ∈ between := by
  by_contra hnone
  obtain ⟨v, w', hprior, -, hstep⟩ := run.exists_step
  have hexact := exact_of_run hprior
  have habsent : x ∉ v.present :=
    hexact.gone x ⟨before, caller, between, rfl, fun caller' hmem => hnone ⟨caller', hmem⟩⟩
  cases hstep with
  | call next _ _ => exact habsent (hexact.within next)

/-- At the end of a walk every wanted member that was left alone was called once. -/
theorem count_calls [DecidableEq α] (run : (walk wanted members).Run guard events w)
    (finished : w.ahead = ∅) {x : α} (hx : x ∈ members) (hwanted : wanted x)
    (halone : LeftAlone events x) : (calls events).count x = 1 := by
  have hexact := exact_of_run run
  apply List.count_eq_one_of_mem (calls_nodup run)
  rcases hexact.kept x hx hwanted halone with hahead | hcalled
  · rw [finished] at hahead
    exact absurd hahead (Set.notMem_empty x)
  · exact hexact.called ▸ hcalled

end BliveQueue.Math.Walk
