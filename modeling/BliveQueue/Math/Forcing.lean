/-
# Moves against the environment

A party that wants to get somewhere chooses its moves, but not what a move brings about: a
move admits several steps, and the environment picks one of them. A property can be forced
from a state if moves can be chosen, each in view of the answers so far, so that after
finitely many of them it holds whatever was answered. Every move on the way must have some
answer, so nothing is forced by getting stuck.
-/

import BliveQueue.Math.System

namespace BliveQueue.Math.System

universe u v w x

variable {σ : Type u} {Λ : Type v} {μ : Type w} {ν : Type x}

/-- Some moves lead from the state to one with the property, whatever the answers are. -/
inductive Forces (M : System σ Λ) (moves : μ → σ → Λ → Prop) (P : σ → Prop) : σ → Prop
  | here {s : σ} (arrived : P s) : Forces M moves P s
  | move {s : σ} (m : μ) (possible : ∃ label s', moves m s label ∧ M.step s label s')
      (next : ∀ label s', moves m s label → M.step s label s' → Forces M moves P s') :
      Forces M moves P s

variable {M : System σ Λ} {moves : μ → σ → Λ → Prop} {P Q : σ → Prop} {s : σ}

/-- One property after the other. -/
theorem Forces.trans (h : M.Forces moves P s) (hnext : ∀ t, P t → M.Forces moves Q t) :
    M.Forces moves Q s := by
  induction h with
  | here arrived => exact hnext _ arrived
  | move m possible _ ih => exact .move m possible ih

theorem Forces.mono (h : M.Forces moves P s) (himp : ∀ t, P t → Q t) : M.Forces moves Q s :=
  h.trans fun t ht => .here (himp t ht)

end BliveQueue.Math.System
