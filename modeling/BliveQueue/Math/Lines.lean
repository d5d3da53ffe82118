/-
# Lines of a text

A line is what stands up to and including the next terminator, and what stands behind
the last terminator is a line too if it is not empty. The lines of a text put together
are the text. Facts about the lines of every text are proved along them: a text is
empty, or a single line without terminator, or a line with its terminator and a rest.
-/

import Mathlib.Data.List.Basic

namespace BliveQueue.Math.Lines

variable {α : Type*} [DecidableEq α] (terminator : α)

/-- Put an item in front of the first line. -/
def glue (c : α) : List (List α) → List (List α)
  | [] => [[c]]
  | line :: rest => (c :: line) :: rest

/-- The lines of a text, with their terminators. -/
def lines : List α → List (List α)
  | [] => []
  | c :: s => if c = terminator then [c] :: lines s else glue c (lines s)

/-- The lines of a text cut to at most `n` items; the first piece may take `room` items. -/
def pieces (n : ℕ) : ℕ → List α → List (List α)
  | _, [] => []
  | room, c :: s =>
    if c = terminator ∨ room ≤ 1 then [c] :: pieces n n s
    else glue c (pieces n (room - 1) s)

variable {terminator} {line rest s : List α}

/-- The first line, when it has its terminator. -/
theorem lines_terminated (h : terminator ∉ line) (rest : List α) :
    lines terminator (line ++ terminator :: rest) =
      (line ++ [terminator]) :: lines terminator rest := by
  induction line with
  | nil => simp [lines]
  | cons c line ih =>
      rw [List.mem_cons, not_or] at h
      rw [List.cons_append, lines, if_neg (Ne.symm h.1), ih h.2]
      rfl

/-- A text without terminators is one line. -/
theorem lines_open (h : terminator ∉ s) (hne : s ≠ []) : lines terminator s = [s] := by
  induction s with
  | nil => exact absurd rfl hne
  | cons c s ih =>
      rw [List.mem_cons, not_or] at h
      rw [lines, if_neg (Ne.symm h.1)]
      cases s with
      | nil => rfl
      | cons d s => rw [ih h.2 (List.cons_ne_nil d s)]; rfl

variable (terminator) in
/-- A text is empty, a single line without terminator, or a line with its terminator and
a rest. -/
theorem lines_cases {motive : List α → Prop} (nil : motive [])
    (opened : ∀ s, terminator ∉ s → s ≠ [] → motive s)
    (terminated : ∀ line rest, terminator ∉ line → motive (line ++ terminator :: rest))
    (s : List α) : motive s := by
  by_cases hmem : terminator ∈ s
  · obtain ⟨line, rest, rfl, hline⟩ := List.eq_append_cons_of_mem hmem
    exact terminated line rest hline
  · by_cases hne : s = []
    · exact hne ▸ nil
    · exact opened s hmem hne

variable (terminator) in
/-- Induction along the lines of a text. -/
theorem lines_induction {motive : List α → Prop} (nil : motive [])
    (opened : ∀ s, terminator ∉ s → s ≠ [] → motive s)
    (terminated : ∀ line rest, terminator ∉ line → motive rest →
      motive (line ++ terminator :: rest)) (s : List α) : motive s := by
  induction hn : s.length using Nat.strongRecOn generalizing s with
  | _ n ih =>
    cases s using lines_cases terminator with
    | nil => exact nil
    | opened s hs hne => exact opened s hs hne
    | terminated line rest hline =>
        apply terminated line rest hline
        apply ih rest.length _ rest rfl
        rw [← hn, List.length_append, List.length_cons]
        omega

variable (terminator) in
/-- The lines of a text put together are the text. -/
theorem flatten_lines (s : List α) : (lines terminator s).flatten = s := by
  induction s using lines_induction terminator with
  | nil => rfl
  | opened s hs hne => rw [lines_open hs hne, List.flatten_singleton]
  | terminated line rest hline ih =>
      rw [lines_terminated hline, List.flatten_cons, ih, List.append_assoc,
        List.singleton_append]

/-- Only the empty text has no line. -/
theorem lines_eq_nil_iff : lines terminator s = [] ↔ s = [] := by
  constructor
  · intro h
    rw [← flatten_lines terminator s, h]
    rfl
  · intro h
    rw [h]
    rfl

end BliveQueue.Math.Lines
