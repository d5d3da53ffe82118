/-
# Requests and the bytes of earlier ones

A request selects a file by its second word. The buffer that holds it is cleared after
an answer only, so the text of a request may run on into the bytes that an earlier,
unanswered one left behind. Whether that changes the selection is decided by the words
of the request: the old bytes must supply the missing second word, or continue the word
"/" that ends the request.
-/

import BliveQueue.Math.Words
import BliveQueue.Utils.Httpd

namespace BliveQueue.Httpd

open BliveQueue.Math BliveQueue.Math.CharBuffer BliveQueue.Math.Words
open BliveQueue.Utils BliveQueue.Utils.Httpd

variable {buf buf' : Buffer} {s t bytes : List UInt8} {start : ℕ}

/-- The separator of the words of a request. -/
def isSpace (c : UInt8) : Bool := c = space

/-- The file that a text selects; a text with fewer than two words selects none. -/
def selection (s : List UInt8) : Option HttpFile :=
  if secondWord isSpace s = [] then none
  else if literal (httpfileMap .home).requestPath = secondWord isSpace s then some .home
  else some .notFound

/-- One buffer has its zeros where the other one has, and perhaps more. -/
def KeepsZeros (buf buf' : Buffer) : Prop :=
  buf'.length = buf.length ∧ ∀ i : ℕ, buf[i]? = some 0 → buf'[i]? = some 0

theorem KeepsZeros.refl (buf : Buffer) : KeepsZeros buf buf := ⟨rfl, fun _ => id⟩

theorem KeepsZeros.trans {buf'' : Buffer} (h : KeepsZeros buf buf')
    (h' : KeepsZeros buf' buf'') : KeepsZeros buf buf'' :=
  ⟨h'.1.trans h.1, fun i hi => h'.2 i (h.2 i hi)⟩

theorem keepsZeros_set (buf : Buffer) (i : ℕ) : KeepsZeros buf (buf.set i 0) := by
  refine ⟨List.length_set, fun j hj => ?_⟩
  rw [List.getElem?_set]
  split
  · next heq =>
      rw [← heq] at hj
      obtain ⟨hlt, -⟩ := List.getElem?_eq_some_iff.mp hj
      rw [if_pos hlt]
  · exact hj

/-! ## `strtok` and `get_filename` -/

theorem takeWhile_ne_space (s : List UInt8) :
    (s.dropWhile (· = space)).takeWhile (· ≠ space) = nextWord isSpace s := by
  rw [nextWord]
  congr 1
  ext c
  simp [isSpace]

theorem dropWhile_ne_space (s : List UInt8) :
    (s.dropWhile (· = space)).dropWhile (· ≠ space) = afterWord isSpace s := by
  rw [afterWord]
  congr 1
  ext c
  simp [isSpace]

/-- `strtok` answers with the next word; it goes on behind that word. -/
theorem strtok_eq (h : Holds (buf.drop start) s) :
    ∃ buf' next, KeepsZeros buf buf' ∧
      strtok buf start =
        some (if nextWord isSpace s = [] then none else some (nextWord isSpace s), buf', next) ∧
      (nextWord isSpace s ≠ [] → ∃ t, Holds (buf'.drop next) t ∧
        nextWord isSpace t = secondWord isSpace s) := by
  have hsplit := takeWhile_append_words isSpace s
  have hbody : s.dropWhile (· = space) = nextWord isSpace s ++ afterWord isSpace s := by
    rw [← takeWhile_ne_space, ← dropWhile_ne_space, List.takeWhile_append_dropWhile]
  rw [strtok, h.string_eq]
  simp only [Option.bind_eq_bind, Option.bind_some, takeWhile_ne_space]
  by_cases hword : nextWord isSpace s = []
  · refine ⟨buf, _, KeepsZeros.refl buf, if_pos hword |>.trans (by rw [if_pos hword]), ?_⟩
    exact fun hne => absurd hword hne
  · rw [if_neg hword]
    by_cases hrest : afterWord isSpace s = []
    · -- the word ends the text: the next call starts on its zero
      have hlength : ¬ (nextWord isSpace s).length < (s.dropWhile (· = space)).length := by
        rw [hbody, hrest, List.append_nil]
        exact Nat.lt_irrefl _
      rw [if_neg hlength]
      refine ⟨buf, _, KeepsZeros.refl buf, by rw [if_neg hword], fun _ => ⟨[], ?_, ?_⟩⟩
      · have hholds : Holds (buf.drop start)
            (s.takeWhile isSpace ++ (nextWord isSpace s ++ [])) := by
          rwa [← hrest, hsplit]
        exact hholds.drop.drop
      · rw [secondWord, hrest]
    · -- a separator follows: it becomes a zero and the next call starts behind it
      obtain ⟨c, t, hc, hafter⟩ := exists_of_afterWord_ne_nil hrest
      have hlength : (nextWord isSpace s).length < (s.dropWhile (· = space)).length := by
        rw [hbody, hafter]
        simp
      rw [if_pos hlength]
      refine ⟨_, _, keepsZeros_set buf _, by rw [if_neg hword], fun _ => ⟨t, ?_, ?_⟩⟩
      · have hholds : Holds (buf.drop start)
            (s.takeWhile isSpace ++ (nextWord isSpace s ++ ([c] ++ t))) := by
          have hcons : [c] ++ t = afterWord isSpace s := hafter.symm
          rwa [hcons, hsplit]
        rw [List.drop_set_of_lt (Nat.lt_succ_self _)]
        exact hholds.drop.drop.drop
      · rw [secondWord, hafter, nextWord_cons hc]

/-- `get_filename` selects by the second word. -/
theorem getFilename_eq (h : Holds buf s) :
    ∃ result buf', KeepsZeros buf buf' ∧ getFilename buf = some (result, buf') ∧
      result.toOption = selection s := by
  have hstart : Holds (buf.drop 0) s := by rwa [List.drop_zero]
  obtain ⟨first, next, hkept, hfirst, hgoes⟩ := strtok_eq hstart
  rw [getFilename, hfirst]
  by_cases hword : nextWord isSpace s = []
  · refine ⟨.error .invalid, first, hkept, by simp [hword], ?_⟩
    rw [selection, secondWord, afterWord_eq_nil_of_nextWord hword]
    rfl
  · obtain ⟨t, hrest, hsecond⟩ := hgoes hword
    obtain ⟨second, next', hkept', hstrtok, -⟩ := strtok_eq hrest
    rw [hsecond] at hstrtok
    simp only [if_neg hword, Option.bind_eq_bind, Option.bind_some, hstrtok]
    by_cases hnone : secondWord isSpace s = []
    · refine ⟨.error .notExsit, second, hkept.trans hkept', by simp [hnone], ?_⟩
      rw [selection, if_pos hnone]
      rfl
    · simp only [if_neg hnone]
      by_cases hhome : literal (httpfileMap .home).requestPath = secondWord isSpace s
      · refine ⟨.ok .home, second, hkept.trans hkept', by rw [if_pos hhome], ?_⟩
        rw [selection, if_neg hnone, if_pos hhome]
        rfl
      · refine ⟨.ok .notFound, second, hkept.trans hkept', by rw [if_neg hhome], ?_⟩
        rw [selection, if_neg hnone, if_neg hhome]
        rfl

/-! ## Turns of the server -/

/-- The buffer of `http_perform` between two connections: its last byte is a zero. -/
structure IsRequestBuffer (buffer : Buffer) : Prop where
  length : buffer.length = bufferSize
  last : buffer[bufferSize - 1]? = some 0

theorem clearedBuffer_isRequestBuffer : IsRequestBuffer clearedBuffer :=
  ⟨List.length_replicate, by rw [clearedBuffer, List.getElem?_replicate, if_pos (by decide)]⟩

variable {buffer buffer' : Buffer}

theorem IsRequestBuffer.of_keepsZeros (h : IsRequestBuffer buffer)
    (hkept : KeepsZeros buffer buffer') : IsRequestBuffer buffer' :=
  ⟨hkept.1.trans h.length, hkept.2 _ h.last⟩

/-- `fd_read` writes in front of the last byte. -/
theorem IsRequestBuffer.store (h : IsRequestBuffer buffer)
    (hread : bytes.length ≤ bufferSize - 1) :
    store buffer 0 bytes = some (bytes ++ buffer.drop bytes.length) ∧
      IsRequestBuffer (bytes ++ buffer.drop bytes.length) := by
  have hfits : bytes.length ≤ buffer.length := by
    rw [h.length]
    exact hread.trans (Nat.sub_le _ _)
  refine ⟨store_start hfits, ?_, ?_⟩
  · rw [List.length_append, List.length_drop, Nat.add_sub_cancel' hfits, h.length]
  · rw [List.getElem?_append_right hread, List.getElem?_drop, Nat.add_sub_cancel' hread]
    exact h.last

/-- The text that `get_filename` sees. -/
def seenText (buffer : Buffer) (bytes : List UInt8) : List UInt8 :=
  text (bytes ++ buffer.drop bytes.length)

/-- A connection that delivers something selects by what is seen in the buffer. -/
theorem IsRequestBuffer.turn (h : IsRequestBuffer buffer)
    (hread : bytes.length ≤ bufferSize - 1) :
    ∃ buffer', httpPerformTurn buffer (some bytes) =
        some (selection (seenText buffer bytes), buffer') ∧ IsRequestBuffer buffer' := by
  obtain ⟨hstore, hrequest⟩ := h.store hread
  have hholds : Holds (bytes ++ buffer.drop bytes.length) (seenText buffer bytes) :=
    holds_of_mem (List.mem_of_getElem? hrequest.last)
  obtain ⟨result, buf', hkept, hfile, hresult⟩ := getFilename_eq hholds
  rw [← hresult]
  cases result with
  | error e =>
      exact ⟨buf', by simp [httpPerformTurn, hstore, hfile, Except.toOption],
        hrequest.of_keepsZeros hkept⟩
  | ok file =>
      exact ⟨clearedBuffer, by simp [httpPerformTurn, hstore, hfile, Except.toOption],
        clearedBuffer_isRequestBuffer⟩

/-- Every turn comes to an end, with a buffer for the next one. -/
theorem IsRequestBuffer.exists_turn (h : IsRequestBuffer buffer) {read : Option (List UInt8)}
    (hread : ∀ bytes ∈ read, bytes.length ≤ bufferSize - 1) :
    ∃ file buffer', httpPerformTurn buffer read = some (file, buffer') ∧
      IsRequestBuffer buffer' := by
  cases read with
  | none => exact ⟨none, buffer, rfl, h⟩
  | some bytes =>
      obtain ⟨buffer', hturn, hnext⟩ := h.turn (hread bytes rfl)
      exact ⟨_, buffer', hturn, hnext⟩

theorem isRequestBuffer_of_run {guard : Buffer → Option (List UInt8) × Option HttpFile → Prop}
    {history : List (Option (List UInt8) × Option HttpFile)}
    (run : httpPerform.Run guard history buffer) : IsRequestBuffer buffer := by
  apply System.Run.invariant (I := fun _ buffer => IsRequestBuffer buffer) ?_ ?_ run
  · intro buffer hinit
    rw [show buffer = clearedBuffer from hinit]
    exact clearedBuffer_isRequestBuffer
  · intro _ buffer label buffer' _ h _ taken
    obtain ⟨file, next, hturn, hnext⟩ := h.exists_turn taken.1
    obtain ⟨-, rfl⟩ := Prod.mk.inj (Option.some.inj (taken.2.symm.trans hturn))
    exact hnext

end BliveQueue.Httpd
