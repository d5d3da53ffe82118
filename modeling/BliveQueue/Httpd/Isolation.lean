/-
# When connections are isolated

The bytes of a connection select what they would select on a fresh server unless old
bytes of the buffer disturb them. A run of the server is isolated, connection by
connection, exactly if no connection of it is disturbed.
-/

import BliveQueue.Httpd.Requests

namespace BliveQueue.Httpd

open BliveQueue.Math BliveQueue.Math.CharBuffer BliveQueue.Math.Words
open BliveQueue.Utils BliveQueue.Utils.Httpd

variable {buffer buffer' : Buffer} {s stale bytes : List UInt8}

/-- The old bytes that are read as if they belonged to the request: those up to the next
zero, if the request itself has none. -/
def staleText (buffer : Buffer) (bytes : List UInt8) : List UInt8 :=
  if 0 ∈ bytes then [] else text (buffer.drop bytes.length)

/-- Old bytes behind a request complete it, by a second word that it does not have, or
they continue its second word, a "/" at the very end. -/
def Disturbs (s stale : List UInt8) : Prop :=
  secondWord isSpace s = [] ∧ secondWord isSpace (s ++ stale) ≠ [] ∨
    secondWord isSpace s = literal (httpfileMap .home).requestPath ∧
      afterWord isSpace (afterWord isSpace s) = [] ∧
      stale.takeWhile (fun c => !isSpace c) ≠ []

instance (s stale : List UInt8) : Decidable (Disturbs s stale) :=
  inferInstanceAs (Decidable (_ ∧ _ ∨ _ ∧ _ ∧ _))

/-- No old bytes disturb the connection. -/
def Undisturbed (buffer : Buffer) (label : Option (List UInt8) × Option HttpFile) : Prop :=
  ∀ bytes ∈ label.1, ¬ Disturbs (text bytes) (staleText buffer bytes)

/-- The connection got what its bytes select as the first request of a fresh server. -/
def Isolated (label : Option (List UInt8) × Option HttpFile) : Prop :=
  ∃ buffer', httpPerformTurn clearedBuffer label.1 = some (label.2, buffer')

/-- What is seen of a request are its bytes and the old ones behind them. -/
theorem seenText_eq (buffer : Buffer) (bytes : List UInt8) :
    seenText buffer bytes = text bytes ++ staleText buffer bytes := by
  by_cases hzero : 0 ∈ bytes
  · obtain ⟨front, rest, heq, hfront⟩ := List.eq_append_cons_of_mem hzero
    rw [staleText, if_pos hzero, List.append_nil, seenText, heq, List.append_assoc,
      text_append hfront, text_append hfront]
    simp [text]
  · rw [staleText, if_neg hzero, seenText, text_append hzero, text_eq_self hzero]

/-- On a fresh server there are no old bytes. -/
theorem seenText_clearedBuffer (bytes : List UInt8) :
    seenText clearedBuffer bytes = text bytes := by
  have hzeros : text (clearedBuffer.drop bytes.length) = [] := by
    rw [clearedBuffer, List.drop_replicate]
    cases bufferSize - bytes.length <;> rfl
  rw [seenText_eq, staleText, hzeros, ite_self, List.append_nil]

theorem home_eq : literal (httpfileMap .home).requestPath = [47] := by decide

theorem selection_eq_none_iff : selection s = none ↔ secondWord isSpace s = [] := by
  unfold selection
  split
  · next hword => simp [hword]
  · next hword =>
      split
      · simp [hword]
      · simp [hword]

theorem selection_of_home (h : secondWord isSpace s = literal (httpfileMap .home).requestPath) :
    selection s = some .home := by
  have hne : secondWord isSpace s ≠ [] := by
    rw [h, home_eq]
    exact List.cons_ne_nil _ _
  rw [selection, if_neg hne, if_pos h.symm]

theorem selection_of_ne_home (hword : secondWord isSpace s ≠ [])
    (h : secondWord isSpace s ≠ literal (httpfileMap .home).requestPath) :
    selection s = some .notFound := by
  rw [selection, if_neg hword, if_neg h.symm]

theorem selection_congr {t : List UInt8} (h : secondWord isSpace s = secondWord isSpace t) :
    selection s = selection t := by
  rw [selection, selection, h]

/-- Bytes that disturb a request change its selection. -/
theorem Disturbs.selection_ne (h : Disturbs s stale) : selection (s ++ stale) ≠ selection s := by
  rcases h with ⟨hword, hmore⟩ | ⟨hhome, hopen, hend⟩
  · rw [selection_eq_none_iff.mpr hword]
    exact fun hnone => hmore (selection_eq_none_iff.mp hnone)
  · have hword : secondWord isSpace s ≠ [] := by
      rw [hhome, home_eq]
      exact List.cons_ne_nil _ _
    have hsecond := secondWord_append_of_open hword hopen stale
    have hmore : secondWord isSpace (s ++ stale) ≠ [] := by
      rw [hsecond]
      exact List.append_ne_nil_of_left_ne_nil hword _
    have hother : secondWord isSpace (s ++ stale) ≠ literal (httpfileMap .home).requestPath := by
      rw [hsecond, hhome, ne_eq, List.append_right_eq_self]
      exact hend
    rw [selection_of_home hhome, selection_of_ne_home hmore hother]
    decide

/-- Bytes that do not disturb a request leave its selection as it is. -/
theorem selection_append_of_not_disturbs (h : ¬ Disturbs s stale) :
    selection (s ++ stale) = selection s := by
  by_cases hword : secondWord isSpace s = []
  · have hnone : secondWord isSpace (s ++ stale) = [] :=
      by_contra fun hmore => h (Or.inl ⟨hword, hmore⟩)
    rw [selection_eq_none_iff.mpr hword, selection_eq_none_iff.mpr hnone]
  · by_cases hopen : afterWord isSpace (afterWord isSpace s) = []
    · have hsecond := secondWord_append_of_open hword hopen stale
      by_cases hhome : secondWord isSpace s = literal (httpfileMap .home).requestPath
      · have hend : stale.takeWhile (fun c => !isSpace c) = [] :=
          by_contra fun hgoes => h (Or.inr ⟨hhome, hopen, hgoes⟩)
        rw [hend, List.append_nil] at hsecond
        exact selection_congr hsecond
      · -- a longer word than one that is not "/" is not "/" either
        have hmore : secondWord isSpace (s ++ stale) ≠ [] := by
          rw [hsecond]
          exact List.append_ne_nil_of_left_ne_nil hword _
        have hother :
            secondWord isSpace (s ++ stale) ≠ literal (httpfileMap .home).requestPath := by
          rw [home_eq] at hhome ⊢
          rw [hsecond, ne_eq, List.append_eq_singleton_iff]
          intro hsplit
          rcases hsplit with ⟨hnil, -⟩ | ⟨hslash, -⟩
          · exact hword hnil
          · exact hhome hslash
        rw [selection_of_ne_home hword hhome, selection_of_ne_home hmore hother]
    · exact selection_congr (secondWord_append_of_finished hopen stale)

/-- One connection is isolated exactly if no old bytes disturb it. -/
theorem isolated_iff (h : IsRequestBuffer buffer)
    {label : Option (List UInt8) × Option HttpFile}
    (taken : httpPerform.step buffer label buffer') :
    Isolated label ↔ Undisturbed buffer label := by
  obtain ⟨read, file⟩ := label
  obtain ⟨hread, hturn⟩ := taken
  cases read with
  | none =>
      obtain ⟨rfl, -⟩ := Prod.mk.inj (Option.some.inj hturn)
      exact ⟨fun _ _ hnone => absurd hnone (by simp), fun _ => ⟨clearedBuffer, rfl⟩⟩
  | some bytes =>
      obtain ⟨next, hseen, -⟩ := h.turn (hread bytes rfl)
      obtain ⟨fresh, hfresh, -⟩ := clearedBuffer_isRequestBuffer.turn (hread bytes rfl)
      obtain ⟨rfl, -⟩ := Prod.mk.inj (Option.some.inj (hseen.symm.trans hturn))
      rw [seenText_clearedBuffer] at hfresh
      rw [seenText_eq] at *
      constructor
      · intro hisolated bytes' hbytes
        obtain rfl : bytes = bytes' := Option.some.inj hbytes
        obtain ⟨fresh', hfresh'⟩ := hisolated
        obtain ⟨hsame, -⟩ := Prod.mk.inj (Option.some.inj (hfresh'.symm.trans hfresh))
        exact fun hdisturbs => hdisturbs.selection_ne hsame
      · intro hundisturbed
        have hsame := selection_append_of_not_disturbs (hundisturbed bytes rfl)
        exact ⟨fresh, by rw [hsame]; exact hfresh⟩

/-- In a run of the server every connection gets the file that its own bytes select if
and only if no connection of the run was disturbed by the bytes of earlier ones. -/
theorem requests_isolated_iff {history : List (Option (List UInt8) × Option HttpFile)}
    (run : httpPerform.Trace history buffer) :
    (∀ label ∈ history, Isolated label) ↔ httpPerform.Run Undisturbed history buffer := by
  constructor
  · intro hall
    induction run with
    | start hinit => exact .start hinit
    | extend prior _ taken ih =>
        rw [List.forall_mem_append, List.forall_mem_singleton] at hall
        have hbuffer := isRequestBuffer_of_run prior
        exact (ih hall.1).extend ((isolated_iff hbuffer taken).mp hall.2) taken
  · intro hrun
    apply System.Run.invariant (I := fun history _ => ∀ label ∈ history, Isolated label) ?_ ?_ hrun
    · intro _ _ label hmem
      cases hmem
    · intro history buffer label buffer' prior hall hundisturbed taken
      rw [List.forall_mem_append, List.forall_mem_singleton]
      have hbuffer := isRequestBuffer_of_run prior
      exact ⟨hall, (isolated_iff hbuffer taken).mpr hundisturbed⟩

/-! ## Executions -/

instance (buffer : Buffer) (label : Option (List UInt8) × Option HttpFile) :
    Decidable (Undisturbed buffer label) :=
  inferInstanceAs (Decidable (∀ bytes ∈ label.1, ¬ Disturbs (text bytes) (staleText buffer bytes)))

/-- A test passed by an execution of the server is passed at the end of a run. -/
theorem exists_served (guard : Buffer → Option (List UInt8) × Option HttpFile → Prop)
    [∀ buffer label, Decidable (guard buffer label)] (reads : List (Option (List UInt8)))
    (test : List (Option (List UInt8) × Option HttpFile) × Buffer → Bool)
    (h : (System.execute (System.callNext
      (fun _ read => ∀ bytes ∈ read, bytes.length ≤ bufferSize - 1) httpPerformTurn guard)
      clearedBuffer reads).any test = true) :
    ∃ history buffer, httpPerform.Run guard history buffer ∧ test (history, buffer) = true :=
  System.Run.exists_of_execute System.callNext_sound rfl _ _ h

/-- A request without a resource name, a failing read, the home page, another page. -/
theorem requests_isolated_of_four :
    ∃ history buffer, httpPerform.Trace history buffer ∧
      history = [(some (literal "GET"), none), (none, none),
        (some (literal "GET / HTTP/1.0\r\n"), some .home),
        (some (literal "GET /q HTTP/1.0\r\n"), some .notFound)] ∧
      ∀ label ∈ history, Isolated label := by
  obtain ⟨history, buffer, run, htest⟩ := exists_served Undisturbed
    [some (literal "GET"), none, some (literal "GET / HTTP/1.0\r\n"),
      some (literal "GET /q HTTP/1.0\r\n")]
    (fun r => r.1 = [(some (literal "GET"), none), (none, none),
      (some (literal "GET / HTTP/1.0\r\n"), some .home),
      (some (literal "GET /q HTTP/1.0\r\n"), some .notFound)])
    (by decide +kernel)
  exact ⟨history, buffer, run.trace, of_decide_eq_true htest,
    (requests_isolated_iff run.trace).mpr run⟩

/-- A request for the home page behind an unanswered longer one gets another page. -/
theorem exists_disturbed_request :
    ∃ history buffer, httpPerform.Trace history buffer ∧
      history = [(some (literal "GETXXXXX"), none), (some (literal "GET /"), some .notFound)] ∧
      (httpPerformTurn clearedBuffer (some (literal "GET /"))).map Prod.fst =
        some (some .home) ∧
      ¬ ∀ label ∈ history, Isolated label := by
  obtain ⟨history, buffer, run, htest⟩ := exists_served System.anyStep
    [some (literal "GETXXXXX"), some (literal "GET /")]
    (fun r => r.1 = [(some (literal "GETXXXXX"), none), (some (literal "GET /"), some .notFound)])
    (by decide +kernel)
  have hhistory : history =
      [(some (literal "GETXXXXX"), none), (some (literal "GET /"), some .notFound)] :=
    of_decide_eq_true htest
  have hfresh : (httpPerformTurn clearedBuffer (some (literal "GET /"))).map Prod.fst =
      some (some .home) := by decide +kernel
  refine ⟨history, buffer, run, hhistory, hfresh, ?_⟩
  intro hall
  have hmem : (some (literal "GET /"), some HttpFile.notFound) ∈ history := by
    rw [hhistory]
    exact List.mem_cons_of_mem _ List.mem_cons_self
  obtain ⟨buffer', hturn⟩ := hall _ hmem
  rw [hturn, Option.map_some] at hfresh
  cases hfresh

end BliveQueue.Httpd
