/-
# Words of a text

The words of a text are its longest runs without separators. Two functions take a text
apart: the next word, and what stands behind it, which is empty or begins with a
separator. The lemmas say what happens to the first and the second word when a text is
continued.
-/

import Mathlib.Data.List.Basic
import Mathlib.Data.List.TakeWhile

namespace BliveQueue.Math.Words

variable {α : Type*} (sep : α → Bool)

/-- The first word, or nothing if there is none. -/
def nextWord (s : List α) : List α := (s.dropWhile sep).takeWhile fun c => !sep c

/-- What stands behind the first word. -/
def afterWord (s : List α) : List α := (s.dropWhile sep).dropWhile fun c => !sep c

/-- The second word, or nothing if there is none. -/
def secondWord (s : List α) : List α := nextWord sep (afterWord sep s)

variable {sep} {s t : List α} {c : α}

@[simp] theorem nextWord_nil : nextWord sep ([] : List α) = [] := rfl

@[simp] theorem afterWord_nil : afterWord sep ([] : List α) = [] := rfl

variable (sep) in
/-- A text is separators, its first word and the rest. -/
theorem takeWhile_append_words (s : List α) :
    s.takeWhile sep ++ (nextWord sep s ++ afterWord sep s) = s := by
  rw [nextWord, afterWord, List.takeWhile_append_dropWhile, List.takeWhile_append_dropWhile]

theorem nextWord_cons (h : sep c = true) (s : List α) :
    nextWord sep (c :: s) = nextWord sep s := by
  rw [nextWord, List.dropWhile_cons_of_pos h]
  rfl

/-- The rest begins with a separator. -/
theorem exists_of_afterWord_ne_nil (h : afterWord sep s ≠ []) :
    ∃ c t, sep c = true ∧ afterWord sep s = c :: t := by
  obtain ⟨c, t, hrest⟩ := List.exists_cons_of_ne_nil h
  have hhead := List.head?_dropWhile_not (fun c => !sep c) (s.dropWhile sep)
  rw [show (s.dropWhile sep).dropWhile (fun c => !sep c) = c :: t from hrest] at hhead
  exact ⟨c, t, by simpa using hhead, hrest⟩

/-- Without a word nothing stands behind it. -/
theorem afterWord_eq_nil_of_nextWord (h : nextWord sep s = []) : afterWord sep s = [] := by
  cases hbody : s.dropWhile sep with
  | nil => rw [afterWord, hbody, List.dropWhile_nil]
  | cons c body =>
      have hhead := List.head?_dropWhile_not sep s
      rw [hbody] at hhead
      have hc : sep c = false := by simpa using hhead
      rw [nextWord, hbody, List.takeWhile_cons_of_pos (by simp [hc])] at h
      cases h

theorem nextWord_ne_nil_of_afterWord (h : afterWord sep s ≠ []) : nextWord sep s ≠ [] :=
  fun hword => h (afterWord_eq_nil_of_nextWord hword)

theorem dropWhile_sep_ne_nil (h : nextWord sep s ≠ []) : s.dropWhile sep ≠ [] := by
  intro hbody
  rw [nextWord, hbody] at h
  exact h rfl

/-! ## Continued texts -/

/-- Behind a finished word a text can be continued freely. -/
theorem words_append (h : afterWord sep s ≠ []) (t : List α) :
    nextWord sep (s ++ t) = nextWord sep s ∧ afterWord sep (s ++ t) = afterWord sep s ++ t := by
  have hbody := dropWhile_sep_ne_nil (nextWord_ne_nil_of_afterWord h)
  have hdrop : (s ++ t).dropWhile sep = s.dropWhile sep ++ t := by
    rw [List.dropWhile_append, if_neg (by simpa using hbody)]
  have hafter : ¬ (s.dropWhile sep).dropWhile (fun c => !sep c) = [] := h
  have hlength : ((s.dropWhile sep).takeWhile fun c => !sep c).length ≠
      (s.dropWhile sep).length := by
    intro heq
    have hsplit := congrArg List.length
      (List.takeWhile_append_dropWhile (p := fun c => !sep c) (l := s.dropWhile sep))
    rw [List.length_append, heq, Nat.add_eq_left, List.length_eq_zero_iff] at hsplit
    exact hafter hsplit
  constructor
  · rw [nextWord, hdrop, List.takeWhile_append, if_neg hlength]
    rfl
  · rw [afterWord, hdrop, List.dropWhile_append, if_neg (by simpa using hafter)]
    rfl

/-- A word at the end of a text is continued up to the next separator. -/
theorem nextWord_append (hword : nextWord sep s ≠ []) (h : afterWord sep s = []) (t : List α) :
    nextWord sep (s ++ t) = nextWord sep s ++ t.takeWhile fun c => !sep c := by
  have hbody := dropWhile_sep_ne_nil hword
  have hdrop : (s ++ t).dropWhile sep = s.dropWhile sep ++ t := by
    rw [List.dropWhile_append, if_neg (by simpa using hbody)]
  have hwhole : (s.dropWhile sep).takeWhile (fun c => !sep c) = s.dropWhile sep := by
    have hsplit := List.takeWhile_append_dropWhile (p := fun c => !sep c)
      (l := s.dropWhile sep)
    rwa [show (s.dropWhile sep).dropWhile (fun c => !sep c) = [] from h,
      List.append_nil] at hsplit
  rw [nextWord, hdrop, List.takeWhile_append, if_pos (by rw [hwhole]), nextWord, hwhole]

/-- A second word in front of a separator stays. -/
theorem secondWord_append_of_finished (h : afterWord sep (afterWord sep s) ≠ []) (t : List α) :
    secondWord sep (s ++ t) = secondWord sep s := by
  have hrest : afterWord sep s ≠ [] := by
    intro hnil
    rw [hnil] at h
    exact h rfl
  rw [secondWord, (words_append hrest t).2, (words_append h t).1]
  rfl

/-- A second word at the end of a text is continued up to the next separator. -/
theorem secondWord_append_of_open (hword : secondWord sep s ≠ [])
    (h : afterWord sep (afterWord sep s) = []) (t : List α) :
    secondWord sep (s ++ t) = secondWord sep s ++ t.takeWhile fun c => !sep c := by
  have hrest : afterWord sep s ≠ [] := by
    intro hnil
    rw [secondWord, hnil] at hword
    exact hword rfl
  rw [secondWord, (words_append hrest t).2, nextWord_append hword h]
  rfl

end BliveQueue.Math.Words
