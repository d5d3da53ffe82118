/-
# Buffers of bytes and the strings in them

A buffer is a block of a fixed number of bytes. The string in it is what stands before
its first zero; a buffer without a zero holds none, and reading one would leave the
block. Every write is checked against the size of the block. A buffer that holds a
string is that string, a zero and the rest of the block, and all operations on strings
are followed on this form.
-/

import Mathlib.Data.List.Basic
import Mathlib.Data.List.GetD
import Mathlib.Data.List.TakeWhile

namespace BliveQueue.Math.CharBuffer

/-- A block of bytes. -/
abbrev Buffer := List UInt8

/-- The bytes of a string literal. -/
def literal (s : String) : List UInt8 := s.toUTF8.data.toList

/-- The bytes before the first zero. -/
def text (b : Buffer) : List UInt8 := b.takeWhile fun c => c ≠ 0

/-- The string in the block, if its zero is in the block too. -/
def string (b : Buffer) : Option (List UInt8) := if 0 ∈ b then some (text b) else none

/-- Write some bytes at an offset, if they fit. -/
def store (b : Buffer) (offset : ℕ) (data : List UInt8) : Option Buffer :=
  if offset + data.length ≤ b.length then
    some (b.take offset ++ data ++ b.drop (offset + data.length))
  else none

/-- The block holds a string without zeros. -/
def Holds (b : Buffer) (s : List UInt8) : Prop := 0 ∉ s ∧ ∃ rest, b = s ++ 0 :: rest

/-- The text of a string. -/
abbrev CString := {s : List UInt8 // 0 ∉ s}

/-- `strncpy` into an array: its first `n` bytes become those of the string, followed by
zeros if the string is shorter; the other bytes stay. -/
def strncpy {k : ℕ} (dst : Vector UInt8 k) (src : CString) (n : ℕ) : Vector UInt8 k :=
  Vector.ofFn fun i => if i.val < n then src.val.getD i.val 0 else dst.get i

/-- `strcmp` of a block with a string, up to the first difference: whether they are
equal, or nothing if the end of the block comes before that. -/
def equalsString : Buffer → List UInt8 → Option Bool
  | [], _ => none
  | c :: _, [] => some (c = 0)
  | c :: b, d :: s => if c = d then equalsString b s else some false

variable {b b' : Buffer} {s t data : List UInt8} {offset : ℕ}

theorem zero_notMem_text (b : Buffer) : 0 ∉ text b := by
  intro hzero
  have hnonzero := List.mem_takeWhile_imp hzero
  simp at hnonzero

/-- The string in the block, as a string. -/
def toCString (b : Buffer) : Option CString :=
  if 0 ∈ b then some ⟨text b, zero_notMem_text b⟩ else none

theorem text_append (h : 0 ∉ s) (t : List UInt8) : text (s ++ t) = s ++ text t := by
  apply List.takeWhile_append_of_pos
  intro c hc
  have hne : c ≠ 0 := ne_of_mem_of_not_mem hc h
  simpa using hne

theorem text_eq_self (h : 0 ∉ s) : text s = s := by
  have htext := text_append h []
  simpa [text] using htext

theorem Holds.text_eq (h : Holds b s) : text b = s := by
  obtain ⟨hs, rest, rfl⟩ := h
  rw [text_append hs]
  simp [text]

theorem Holds.string_eq (h : Holds b s) : string b = some s := by
  have hmem : 0 ∈ b := by
    obtain ⟨-, rest, rfl⟩ := h
    simp
  rw [string, if_pos hmem, h.text_eq]

theorem Holds.toCString_eq (h : Holds b s) : toCString b = some ⟨s, h.1⟩ := by
  have hmem : 0 ∈ b := by
    obtain ⟨-, rest, rfl⟩ := h
    simp
  rw [toCString, if_pos hmem]
  congr 1
  exact Subtype.ext h.text_eq

/-- A block with a zero holds a string. -/
theorem holds_of_mem (h : 0 ∈ b) : Holds b (text b) := by
  refine ⟨zero_notMem_text b, ?_⟩
  obtain ⟨s, rest, rfl, hs⟩ := List.eq_append_cons_of_mem h
  rw [text_append hs]
  exact ⟨rest, by simp [text]⟩

theorem zero_mem_of_string (h : string b = some s) : 0 ∈ b := by
  unfold string at h
  split at h
  next hzero => exact hzero
  next => cases h

/-- Two strings that end inside their blocks are compared as texts. -/
theorem Holds.equalsString_eq (h : Holds b s) (ht : 0 ∉ t) :
    equalsString b t = some (decide (s = t)) := by
  obtain ⟨hs, rest, rfl⟩ := h
  induction s generalizing t with
  | nil =>
      cases t with
      | nil => rfl
      | cons d t =>
          have hne : (0 : UInt8) ≠ d := fun heq => ht (heq ▸ List.mem_cons_self)
          simp [equalsString, hne]
  | cons c s ih =>
      have hc : c ≠ 0 := fun heq => hs (heq ▸ List.mem_cons_self)
      cases t with
      | nil => simp [equalsString, hc]
      | cons d t =>
          have hrest := ih (fun hmem => ht (List.mem_cons_of_mem _ hmem))
            (fun hmem => hs (List.mem_cons_of_mem _ hmem))
          by_cases hcd : c = d
          · simp [equalsString, hcd, hrest]
          · simp [equalsString, hcd]

/-- A block has a zero exactly if its text is shorter. -/
theorem zero_mem_iff : 0 ∈ b ↔ (text b).length < b.length := by
  constructor
  · intro hmem
    obtain ⟨-, rest, heq⟩ := holds_of_mem hmem
    have hlength := congrArg List.length heq
    rw [List.length_append, List.length_cons] at hlength
    omega
  · intro hlt
    apply Classical.byContradiction
    intro hzero
    rw [text_eq_self hzero] at hlt
    exact Nat.lt_irrefl _ hlt

theorem Holds.length_lt (h : Holds b s) : s.length < b.length := by
  obtain ⟨-, rest, rfl⟩ := h
  simp

/-- The text of a block from some place inside its text on. -/
theorem Holds.drop (h : Holds (b.drop offset) (s ++ t)) :
    Holds (b.drop (offset + s.length)) t := by
  obtain ⟨hzero, rest, heq⟩ := h
  refine ⟨fun hmem => hzero (List.mem_append_right s hmem), rest, ?_⟩
  rw [← List.drop_drop, heq, List.append_assoc, List.drop_left]

theorem length_store (h : store b offset data = some b') : b'.length = b.length := by
  unfold store at h
  split at h
  next hfits =>
    obtain rfl := Option.some.inj h
    simp only [List.length_append, List.length_take, List.length_drop]
    omega
  next => cases h

theorem store_eq_none (h : b.length < offset + data.length) : store b offset data = none :=
  if_neg (not_le.mpr h)

/-- Writing a string at the start of a block. -/
theorem store_start (h : data.length ≤ b.length) :
    store b 0 data = some (data ++ b.drop data.length) := by
  rw [store, Nat.zero_add, if_pos h, List.take_zero, List.nil_append]

/-- The text of a block ends at its first zero. -/
theorem text_append_zero (t rest : List UInt8) : text (t ++ 0 :: rest) = text t := by
  induction t with
  | nil => simp [text]
  | cons c t ih =>
      unfold text at ih ⊢
      rw [List.cons_append, List.takeWhile_cons, List.takeWhile_cons, ih]

/-- Bytes with a zero behind them are written at the start of a block. -/
theorem exists_store_line (hfits : t.length < b.length) :
    ∃ b', store b 0 (t ++ [0]) = some b' ∧ Holds b' (text t) := by
  have hroom : (t ++ [0]).length ≤ b.length := by
    rw [List.length_append, List.length_singleton]
    exact hfits
  refine ⟨_, store_start hroom, ?_⟩
  rw [List.append_assoc, List.singleton_append, ← text_append_zero t]
  exact holds_of_mem (by simp)

/-- Writing a string at the start of a block makes it the string of the block. -/
theorem exists_store_string (ht : 0 ∉ t) (hfits : t.length < b.length) :
    ∃ b', store b 0 (t ++ [0]) = some b' ∧ Holds b' t := by
  obtain ⟨b', hstore, hholds⟩ := exists_store_line hfits
  exact ⟨b', hstore, text_eq_self ht ▸ hholds⟩

/-- Zeros over a string leave the empty one. -/
theorem Holds.clear (h : Holds b s) :
    ∃ b', CharBuffer.store b 0 (List.replicate s.length 0) = some b' ∧ Holds b' [] := by
  have hroom : (List.replicate s.length (0 : UInt8)).length ≤ b.length := by
    rw [List.length_replicate]
    exact h.length_lt.le
  refine ⟨_, store_start hroom, by simp, ?_⟩
  obtain ⟨-, rest, rfl⟩ := h
  cases s with
  | nil => exact ⟨rest, by simp⟩
  | cons c s => exact ⟨List.replicate s.length 0 ++ 0 :: rest, by simp [List.replicate_succ]⟩

/-- Writing a string over the zero of another one appends it. -/
theorem Holds.store (h : Holds b s) (ht : 0 ∉ t) (hfits : s.length + t.length + 1 ≤ b.length) :
    ∃ b', CharBuffer.store b s.length (t ++ [0]) = some b' ∧ Holds b' (s ++ t) := by
  obtain ⟨hs, rest, rfl⟩ := h
  have hroom : s.length + (t ++ [0]).length ≤ (s ++ 0 :: rest).length := by
    rwa [List.length_append, List.length_singleton, ← Nat.add_assoc]
  have hst : 0 ∉ s ++ t := by
    rw [List.mem_append, not_or]
    exact ⟨hs, ht⟩
  refine ⟨_, if_pos hroom, hst, List.drop (s.length + (t ++ [0]).length) (s ++ 0 :: rest), ?_⟩
  simp

/-- A string that was written over the zero of another one is appended to it. -/
theorem Holds.of_store (h : Holds b s) (ht : 0 ∉ t)
    (hstore : CharBuffer.store b s.length (t ++ [0]) = some b') : Holds b' (s ++ t) := by
  have hfits : s.length + t.length + 1 ≤ b.length := by
    apply Nat.le_of_not_lt
    intro hover
    rw [store_eq_none (by rw [List.length_append, List.length_singleton]; omega)] at hstore
    cases hstore
  obtain ⟨b'', hstore', hholds⟩ := h.store ht hfits
  obtain rfl := Option.some.inj (hstore.symm.trans hstore')
  exact hholds

/-! ## Copies into arrays -/

variable {k n : ℕ} {dst : Vector UInt8 k} {src : CString}

theorem toList_strncpy (dst : Vector UInt8 k) (src : CString) (hn : n ≤ k) :
    (strncpy dst src n).toList =
      src.val.take n ++ (List.replicate (n - src.val.length) 0 ++ dst.toList.drop n) := by
  have hlength : (strncpy dst src n).toList.length =
      (src.val.take n ++ (List.replicate (n - src.val.length) 0 ++ dst.toList.drop n)).length := by
    simp only [Vector.length_toList, List.length_append, List.length_take, List.length_replicate,
      List.length_drop]
    omega
  apply List.ext_getElem hlength
  intro i hi _
  have hik : i < k := by simpa using hi
  have hget : (strncpy dst src n).toList[i] =
      if i < n then src.val.getD i 0 else dst[i] := by
    simp [strncpy, Vector.get]
  rw [hget]
  by_cases hin : i < n
  · rw [if_pos hin]
    by_cases his : i < src.val.length
    · rw [List.getElem_append_left (by simp; omega), List.getElem_take,
        List.getD_eq_getElem _ _ his]
    · rw [List.getElem_append_right (by simp; omega), List.getElem_append_left (by simp; omega),
        List.getElem_replicate, List.getD_eq_default _ _ (not_lt.mp his)]
  · rw [if_neg hin, List.getElem_append_right (by simp; omega),
      List.getElem_append_right (by simp; omega), List.getElem_drop]
    simp only [List.length_take, List.length_replicate, Vector.getElem_toList]
    congr 1
    omega

/-- A string shorter than the bound is copied whole, with its zero. -/
theorem holds_strncpy (hsrc : src.val.length < n) (hn : n ≤ k) :
    Holds (strncpy dst src n).toList src.val := by
  refine ⟨src.property, List.replicate (n - src.val.length - 1) 0 ++ dst.toList.drop n, ?_⟩
  rw [toList_strncpy dst src hn, List.take_of_length_le hsrc.le, ← List.cons_append,
    ← List.replicate_succ, Nat.sub_add_cancel (Nat.sub_pos_of_lt hsrc)]

/-- What is copied of a string into an array with a zero behind the bound. -/
theorem holds_take_strncpy (hn : n < k) (hdst : dst.toList[n]? = some 0) :
    Holds (strncpy dst src n).toList (src.val.take n) := by
  have hdrop : dst.toList.drop n = 0 :: dst.toList.drop (n + 1) := by
    obtain ⟨hlt, hzero⟩ := List.getElem?_eq_some_iff.mp hdst
    rw [List.drop_eq_getElem_cons hlt, hzero]
  refine ⟨fun hmem => src.property (List.mem_of_mem_take hmem), ?_⟩
  rw [toList_strncpy dst src hn.le]
  cases n - src.val.length with
  | zero => exact ⟨dst.toList.drop (n + 1), by rw [hdrop, List.replicate_zero, List.nil_append]⟩
  | succ m =>
      refine ⟨List.replicate m 0 ++ dst.toList.drop n, ?_⟩
      rw [List.replicate_succ, List.cons_append]

/-- A string that reaches the bound is copied without its zero: the array then holds a
string only if one of the bytes that were not written is a zero. -/
theorem string_strncpy_eq_none (hsrc : n ≤ src.val.length) (hn : n ≤ k)
    (hdst : 0 ∉ dst.toList) : string (strncpy dst src n).toList = none := by
  apply if_neg
  rw [toList_strncpy dst src hn, Nat.sub_eq_zero_of_le hsrc, List.replicate_zero,
    List.nil_append, List.mem_append, not_or]
  exact ⟨fun hmem => src.property (List.mem_of_mem_take hmem),
    fun hmem => hdst (List.mem_of_mem_drop hmem)⟩

end BliveQueue.Math.CharBuffer
