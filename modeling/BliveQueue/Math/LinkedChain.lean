/-
# Singly linked chains

A `next` map threads nodes together; a path from a start pointer visits a list of
nodes and arrives at a stop pointer. The pointer that an operation redirects is the
last link of a path: the start pointer itself when the path is empty, and otherwise
the `next` of its last node. Redirecting it continues the path elsewhere, and paths
through other nodes do not notice.
-/

import Mathlib.Data.List.Induction
import Mathlib.Data.List.Nodup
import Mathlib.Logic.Function.Basic

namespace BliveQueue.Math.LinkedChain

universe u

variable {P : Type u} {next next' : P → Option P} {start stop mid : Option P} {p q : P}
variable {cells cells' : List P}

/-- Following `next` from `start` visits `cells` and arrives at `stop`. -/
def Path (next : P → Option P) : Option P → List P → Option P → Prop
  | start, [], stop => start = stop
  | start, p :: cells, stop => start = some p ∧ Path next (next p) cells stop

@[simp] theorem path_nil : Path next start [] stop ↔ start = stop := Iff.rfl

@[simp] theorem path_cons :
    Path next start (p :: cells) stop ↔ start = some p ∧ Path next (next p) cells stop := Iff.rfl

theorem path_append :
    Path next start (cells ++ cells') stop ↔
      ∃ mid, Path next start cells mid ∧ Path next mid cells' stop := by
  induction cells generalizing start with
  | nil => simp
  | cons p cells ih => simp [ih, and_assoc]

/-- A path only depends on the `next` of the nodes it visits. -/
theorem Path.congr (path : Path next start cells stop) (h : ∀ p ∈ cells, next' p = next p) :
    Path next' start cells stop := by
  induction cells generalizing start with
  | nil => exact path
  | cons p cells ih =>
      obtain ⟨hstart, hrest⟩ := path
      rw [path_cons, h p List.mem_cons_self]
      exact ⟨hstart, ih hrest fun q hq => h q (List.mem_cons_of_mem p hq)⟩

/-- A path to null starts at its first node. -/
theorem Path.start_eq_head? (path : Path next start cells none) : start = cells.head? := by
  cases cells with
  | nil => exact path
  | cons p cells => exact path.1

/-- Two paths from one start to null visit the same nodes. -/
theorem Path.unique (path : Path next start cells none) (path' : Path next start cells' none) :
    cells = cells' := by
  induction cells generalizing start cells' with
  | nil =>
      obtain rfl := path
      cases cells' with
      | nil => rfl
      | cons p cells' => exact absurd path'.1.symm (Option.some_ne_none p)
  | cons p cells ih =>
      obtain ⟨rfl, hrest⟩ := path
      cases cells' with
      | nil => exact absurd path' (Option.some_ne_none p)
      | cons q cells' =>
          obtain ⟨hq, hrest'⟩ := path'
          obtain rfl := Option.some.inj hq
          rw [ih hrest hrest']

/-- What a node of a path to null points to is a node of the path. -/
theorem Path.mem_of_next (path : Path next start cells none) (hp : p ∈ cells)
    (hnext : next p = some q) : q ∈ cells := by
  obtain ⟨pre, post, rfl⟩ := List.append_of_mem hp
  obtain ⟨mid, -, -, hpost⟩ := path_append.mp path
  have hhead : q ∈ post := List.mem_of_mem_head? (hpost.start_eq_head?.symm.trans hnext)
  exact List.mem_append_right pre (List.mem_cons_of_mem p hhead)

variable [DecidableEq P]

/-- Writing the `next` of a node that a path does not visit. -/
theorem Path.update (path : Path next start cells stop) (hp : p ∉ cells) (v : Option P) :
    Path (Function.update next p v) start cells stop :=
  path.congr fun _ hq => Function.update_of_ne (ne_of_mem_of_not_mem hq hp) _ _

/-- The start pointer after the last link of a path is redirected. -/
def redirectStart (start : Option P) (cells : List P) (v : Option P) : Option P :=
  match cells with
  | [] => v
  | _ :: _ => start

/-- The `next` map after the last link of a path is redirected. -/
def redirectNext (next : P → Option P) (cells : List P) (v : Option P) : P → Option P :=
  match cells.getLast? with
  | none => next
  | some q => Function.update next q v

/-- Redirecting the last link of a path. -/
theorem Path.redirect (path : Path next start cells stop) (nodup : cells.Nodup) (v : Option P) :
    Path (redirectNext next cells v) (redirectStart start cells v) cells v := by
  induction cells using List.reverseRecOn with
  | nil => rfl
  | append_singleton init q _ =>
      obtain ⟨mid, hinit, hmid, -⟩ := path_append.mp path
      have hq : q ∉ init := fun hmem => List.disjoint_of_nodup_append nodup hmem (by simp)
      have hnext : redirectNext next (init ++ [q]) v = Function.update next q v := by
        simp [redirectNext]
      have hstart : redirectStart start (init ++ [q]) v = start := by
        cases init <;> rfl
      rw [hnext, hstart]
      refine path_append.mpr ⟨some q, ?_, rfl, Function.update_self _ _ _⟩
      exact hmid ▸ hinit.update hq v

/-- Paths through other nodes do not notice. -/
theorem Path.redirect_other (path : Path next start cells' stop)
    (disjoint : ∀ p ∈ cells', p ∉ cells) (v : Option P) :
    Path (redirectNext next cells v) start cells' stop := by
  unfold redirectNext
  split
  · exact path
  · rename_i q hq
    exact path.update (fun hmem => disjoint q hmem (List.mem_of_getLast? hq)) v

end BliveQueue.Math.LinkedChain
