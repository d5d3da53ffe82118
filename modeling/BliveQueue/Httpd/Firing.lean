/-
# Which callbacks are fired

`do_html_inject` searches the buffer for one label after the other, also after a label
has been replaced, and `http_sendfile` searches what is in the buffer before each of its
writes. Here this is followed on texts alone, for callbacks that print given texts and
log their calls. A connection that breaks at some write ends the log behind the line of
that write, so the logs on all connections tell what was fired for which line.
-/

import BliveQueue.Httpd.Template

namespace BliveQueue.Httpd

open BliveQueue.Math BliveQueue.Math.CharBuffer BliveQueue.Math.Lines
open BliveQueue.Utils BliveQueue.Utils.Httpd

/-! ## Reading the template -/

section Reading

variable {data : Buffer} {rest : List UInt8} {room n : ℕ}

/-- What one `fgets` after the other reads of a file. -/
def filePieces (template : List UInt8) : List (List UInt8) :=
  pieces newline (dataSize - 1) (dataSize - 1) template

/-- A piece that meets the end of the file: it has no newline and leaves room. -/
def Short (piece : List UInt8) : Prop := newline ∉ piece ∧ piece.length < dataSize - 1

instance (piece : List UInt8) : Decidable (Short piece) :=
  inferInstanceAs (Decidable (newline ∉ piece ∧ piece.length < dataSize - 1))

theorem takeLine_eof (room : ℕ) (rest : List UInt8) :
    (takeLine room rest).2.eof = true ↔
      newline ∉ (takeLine room rest).1 ∧ (takeLine room rest).1.length < room := by
  induction room generalizing rest with
  | zero => simp [takeLine]
  | succ room ih =>
      cases rest with
      | nil => simp [takeLine]
      | cons c rest =>
          rw [takeLine]
          by_cases hc : c = newline
          · simp [hc]
          · simp [hc, ih rest, Ne.symm hc]

theorem rest_of_takeLine_eof (h : (takeLine room rest).2.eof = true) :
    (takeLine room rest).2.rest = [] := by
  induction room generalizing rest with
  | zero => simp [takeLine] at h
  | succ room ih =>
      cases rest with
      | nil => rfl
      | cons c rest =>
          rw [takeLine] at h ⊢
          by_cases hc : c = newline
          · simp [hc] at h
          · rw [if_neg hc] at h ⊢
            exact ih h

theorem length_rest_takeLine (hroom : 0 < room) (hne : rest ≠ []) :
    (takeLine room rest).2.rest.length < rest.length := by
  have hle : ∀ room rest, (takeLine room rest).2.rest.length ≤ rest.length := by
    intro room
    induction room with
    | zero => intro rest; simp [takeLine]
    | succ room ih =>
        intro rest
        cases rest with
        | nil => simp [takeLine]
        | cons c rest =>
            rw [takeLine]
            split
            · exact Nat.le_succ _
            · exact (ih rest).trans (Nat.le_succ _)
  obtain ⟨m, rfl⟩ := Nat.exists_eq_succ_of_ne_zero hroom.ne'
  cases rest with
  | nil => exact absurd rfl hne
  | cons c rest =>
      rw [takeLine]
      split
      · exact Nat.lt_succ_self _
      · exact Nat.lt_succ_of_le (hle m rest)

/-- A piece is what one `fgets` takes. -/
theorem pieces_eq_cons (hroom : 0 < room) (hne : rest ≠ []) :
    pieces newline n room rest =
      (takeLine room rest).1 :: pieces newline n n (takeLine room rest).2.rest := by
  induction rest generalizing room with
  | nil => exact absurd rfl hne
  | cons c rest ih =>
      obtain ⟨m, rfl⟩ := Nat.exists_eq_succ_of_ne_zero hroom.ne'
      rw [pieces, takeLine]
      by_cases hc : c = newline
      · rw [if_pos (Or.inl hc), if_pos hc]
      · rw [if_neg hc]
        by_cases hm : m = 0
        · simp [hm, takeLine]
        · rw [if_neg (not_or.mpr ⟨hc, by omega⟩), Nat.succ_sub_one]
          cases rest with
          | nil =>
              obtain ⟨k, rfl⟩ := Nat.exists_eq_succ_of_ne_zero hm
              simp [pieces, glue, takeLine]
          | cons d rest =>
              rw [ih (Nat.pos_of_ne_zero hm) (List.cons_ne_nil d rest)]
              rfl

/-- A piece leaves room for its zero. -/
theorem length_lt_of_mem_filePieces {piece : List UInt8} (h : piece ∈ filePieces rest) :
    piece.length < dataSize := by
  induction hn : rest.length using Nat.strongRecOn generalizing rest with
  | _ n ih =>
    by_cases hne : rest = []
    · rw [hne] at h
      cases h
    · have hroom : 0 < dataSize - 1 := by decide
      rw [filePieces, pieces_eq_cons hroom hne] at h
      rcases List.mem_cons.mp h with rfl | h
      · exact Nat.lt_of_le_of_lt (length_takeLine_le _ _) (by decide)
      · exact ih _ (hn ▸ length_rest_takeLine hroom hne) h rfl

theorem filePieces_ne_nil (hne : rest ≠ []) : filePieces rest ≠ [] := by
  rw [filePieces, pieces_eq_cons (by decide) hne]
  exact List.cons_ne_nil _ _

/-- The texts with which the turns of `http_sendfile` start; `none` for the text that the
last turn has left, if the end of the file was met behind it. -/
def starts (template : List UInt8) : List (Option (List UInt8)) :=
  ((filePieces template).map fun piece => some (text piece)) ++
    if ∀ piece ∈ (filePieces template).getLast?, ¬ Short piece then [none] else []

theorem starts_nil : starts [] = [none] := rfl

theorem starts_eq_cons (hne : rest ≠ []) :
    starts rest = some (text (takeLine (dataSize - 1) rest).1) ::
      if (takeLine (dataSize - 1) rest).2.eof then []
      else starts (takeLine (dataSize - 1) rest).2.rest := by
  have hpieces : filePieces rest = (takeLine (dataSize - 1) rest).1 ::
      filePieces (takeLine (dataSize - 1) rest).2.rest := pieces_eq_cons (by decide) hne
  have hshort : (takeLine (dataSize - 1) rest).2.eof = true ↔
      Short (takeLine (dataSize - 1) rest).1 := takeLine_eof (dataSize - 1) rest
  rw [starts, hpieces]
  by_cases heof : (takeLine (dataSize - 1) rest).2.eof = true
  · have hnil : filePieces (takeLine (dataSize - 1) rest).2.rest = [] := by
      rw [rest_of_takeLine_eof heof]
      rfl
    simp [hnil, heof, hshort.mp heof]
  · rw [if_neg heof, starts]
    cases hrest : filePieces (takeLine (dataSize - 1) rest).2.rest with
    | nil => simp [← hshort, heof]
    | cons next others => simp [List.getLast?_cons_cons]

end Reading

/-! ## One turn -/

section Turn

variable {choice : ℕ → List UInt8} {i n : ℕ} {label s : List UInt8}
  {labels front back : List (List UInt8)} {unit : HttpInjectUnit (List ℕ)}
  {units : List (HttpInjectUnit (List ℕ))} {dst : Buffer} {log : List ℕ}

/-- A text that a callback can print. -/
def Fits (s : List UInt8) : Prop := 0 ∉ s ∧ s.length < dataSize

/-- `do_html_inject` on texts: what is left in the buffer, and the labels that were fired.
The callbacks print the texts of `choice` one after the other, from some call on. -/
def injectText (choice : ℕ → List UInt8) :
    ℕ → List (List UInt8) → List UInt8 → ℕ → List UInt8 × List ℕ
  | _, [], s, _ => (s, [])
  | i, label :: labels, s, n =>
    if label <:+: s then
      ((injectText choice (i + 1) labels (choice n) (n + 1)).1,
        i :: (injectText choice (i + 1) labels (choice n) (n + 1)).2)
    else injectText choice (i + 1) labels s n

/-- The callbacks of some units print the texts of `choice` and log their places. -/
def Scripts (choice : ℕ → List UInt8) : ℕ → List (HttpInjectUnit (List ℕ)) → Prop
  | _, [] => True
  | i, unit :: units =>
    Prints unit (fun log => (choice log.length, log ++ [i])) ∧ Scripts choice (i + 1) units

/-- `do_html_inject` does on the buffer what `injectText` does on texts. -/
theorem Scripts.injects (h : Scripts choice i units) (s : List UInt8) (log : List ℕ) :
    Injects units s log
      ((injectText choice i (units.map HttpInjectUnit.htmlLabelName) s log.length).1, log ++
        (injectText choice i (units.map HttpInjectUnit.htmlLabelName) s log.length).2) := by
  induction units generalizing i s log with
  | nil => simpa [injectText] using Injects.nil s log
  | cons unit units ih =>
      obtain ⟨hprints, hrest⟩ := h
      rw [List.map_cons, injectText]
      by_cases hlabel : unit.htmlLabelName <:+: s
      · have hlater := ih hrest (choice log.length) (log ++ [i])
        rw [List.length_append, List.length_singleton, List.append_assoc,
          List.singleton_append] at hlater
        rw [if_pos hlabel]
        exact .fire hprints hlabel hlater
      · rw [if_neg hlabel]
        exact (ih hrest s log).skip hlabel

/-- Without a label in it a text stays. -/
theorem injectText_of_plain (h : ∀ label ∈ labels, ¬ label <:+: s) :
    injectText choice i labels s n = (s, []) := by
  induction labels generalizing i with
  | nil => rfl
  | cons label labels ih =>
      rw [List.forall_mem_cons] at h
      rw [injectText, if_neg h.1, ih h.2]

theorem fits_injectText (hfits : ∀ n, Fits (choice n)) (hs : Fits s) :
    Fits (injectText choice i labels s n).1 := by
  induction labels generalizing i s n with
  | nil => exact hs
  | cons label labels ih =>
      rw [injectText]
      split
      · exact ih (hfits n)
      · exact ih hs

/-- A label is searched for in what the labels in front of it have left. -/
theorem injectText_append (choice : ℕ → List UInt8) (i : ℕ) (front back : List (List UInt8))
    (s : List UInt8) (n : ℕ) :
    (injectText choice i (front ++ back) s n).2 =
      (injectText choice i front s n).2 ++
        (injectText choice (i + front.length) back (injectText choice i front s n).1
          (n + (injectText choice i front s n).2.length)).2 := by
  induction front generalizing i s n with
  | nil => simp [injectText]
  | cons label front ih =>
      rw [List.cons_append, injectText, injectText]
      by_cases hlabel : label <:+: s
      · rw [if_pos hlabel, if_pos hlabel, ih, List.length_cons, List.length_cons]
        simp only [List.cons_append, Nat.add_assoc, Nat.add_comm 1]
      · rw [if_neg hlabel, if_neg hlabel, ih, List.length_cons]
        simp only [Nat.add_assoc, Nat.add_comm 1]

/-- The places of the labels that are fired. -/
theorem mem_injectText {k : ℕ} (h : k ∈ (injectText choice i labels s n).2) :
    i ≤ k ∧ k < i + labels.length := by
  induction labels generalizing i s n with
  | nil => cases h
  | cons label labels ih =>
      rw [injectText] at h
      rw [List.length_cons]
      split at h
      · rcases List.mem_cons.mp h with rfl | hrest
        · omega
        · have hplace := ih hrest
          omega
      · have hplace := ih h
        omega

theorem mem_injectText_iff :
    i + front.length ∈ (injectText choice i (front ++ label :: back) s n).2 ↔
      label <:+: (injectText choice i front s n).1 := by
  rw [injectText_append, List.mem_append, injectText]
  have hfront : i + front.length ∉ (injectText choice i front s n).2 := by
    intro hmem
    have hplace := mem_injectText hmem
    omega
  by_cases hlabel : label <:+: (injectText choice i front s n).1
  · simp [hlabel]
  · rw [if_neg hlabel]
    simp only [hfront, hlabel, false_or, iff_false]
    intro hmem
    have hplace := mem_injectText hmem
    omega

end Turn

/-! ## The whole response -/

section Response

variable {choice : ℕ → List UInt8} {labels : List (List UInt8)} {cur : List UInt8}
  {handler : HttpdHandler (List ℕ)} {data : Buffer} {fd : Connection} {log : List ℕ}
  {files : HttpFile → Option (List UInt8)} {file used : HttpFile} {template rest : List UInt8}

/-- The labels that are fired in some turns, from the text in the buffer on. -/
def turnFires (labels : List (List UInt8)) (choice : ℕ → List UInt8) :
    List (Option (List UInt8)) → List UInt8 → ℕ → List (List ℕ)
  | [], _, _ => []
  | start :: later, cur, n =>
    (injectText choice 0 labels (start.getD cur) n).2 ::
      turnFires labels choice later (injectText choice 0 labels (start.getD cur) n).1
        (n + (injectText choice 0 labels (start.getD cur) n).2.length)

/-- What is logged in some turns, if the turn of the first write that fails is the last. -/
def firedUntil (succeeds : ℕ → Bool) : ℕ → List (List ℕ) → List ℕ
  | _, [] => []
  | n, fired :: later => fired ++ if succeeds n then firedUntil succeeds (n + 1) later else []

/-- A handler for some labels whose callbacks print the texts of `choice` and log their
places. -/
structure Scripted (choice : ℕ → List UInt8) (labels : List (List UInt8))
    (handler : HttpdHandler (List ℕ)) : Prop where
  labels : handler.injectionList.map HttpInjectUnit.htmlLabelName = labels
  fits : ∀ n, Fits (choice n)
  scripts : Scripts choice 0 handler.injectionList

/-- One turn on the text in the buffer. -/
theorem Scripted.injects (h : Scripted choice labels handler) (s : List UInt8) (log : List ℕ) :
    Injects handler.injectionList s log ((injectText choice 0 labels s log.length).1,
      log ++ (injectText choice 0 labels s log.length).2) := by
  have hinjects := h.scripts.injects s log
  rwa [h.labels] at hinjects

/-- The log at the end of the loop, from some `fgets` on. -/
theorem Scripted.bodyLoop_log (h : Scripted choice labels handler) {fuel : ℕ} {eof : Bool}
    (hfuel : rest.length ≤ fuel) (hsize : data.length = dataSize) (hholds : Holds data cur)
    (fd : Connection) (log : List ℕ) :
    ((fgets data ⟨rest, eof⟩).bind fun r => bodyLoop handler fuel r.1 r.2 fd log).map
        (fun r => r.2.2) =
      some (log ++ firedUntil fd.succeeds fd.written.length
        (turnFires labels choice (starts rest) cur log.length)) := by
  induction fuel generalizing rest data cur fd log eof with
  | zero =>
      obtain rfl : rest = [] := List.length_eq_zero_iff.mp (Nat.le_zero.mp hfuel)
      rw [fgets_end hsize, Option.bind_some, (h.injects cur log).bodyLoop_eof hsize hholds]
      simp [starts_nil, turnFires, firedUntil]
  | succ fuel ih =>
      by_cases hne : rest = []
      · rw [hne, fgets_end hsize, Option.bind_some, (h.injects cur log).bodyLoop_eof hsize hholds]
        simp [starts_nil, turnFires, firedUntil]
      · obtain ⟨data', hread, hsize', hholds'⟩ := exists_fgets hsize hne eof
        have hless : (takeLine (dataSize - 1) rest).2.rest.length < rest.length :=
          length_rest_takeLine (by decide) hne
        rw [hread, Option.bind_some, starts_eq_cons hne]
        generalize text (takeLine (dataSize - 1) rest).1 = s at hholds' ⊢
        generalize (takeLine (dataSize - 1) rest).2 = fp at hless ⊢
        obtain ⟨rest', eof'⟩ := fp
        have hfuel' : rest'.length ≤ fuel := Nat.le_of_lt_succ (Nat.lt_of_lt_of_le hless hfuel)
        cases eof' with
        | true =>
            rw [(h.injects s log).bodyLoop_eof hsize' hholds']
            simp [turnFires, firedUntil]
        | false =>
            -- the turn of this piece, and the rest of the file if its write succeeds
            obtain ⟨data'', hsize'', hholds'', hturn⟩ :=
              (h.injects s log).bodyLoop_turn hsize' hholds' rest' fuel fd
            rw [hturn]
            simp only [turnFires, firedUntil, Option.getD_some]
            by_cases hsuccess : fd.succeeds fd.written.length = true
            · rw [if_pos hsuccess, if_pos hsuccess, ih hfuel' hsize'' hholds'']
              simp [Connection.after]
            · rw [if_neg hsuccess, if_neg hsuccess]
              simp

/-- The log of `http_sendfile`: nothing if the header cannot be written, and else what is
fired in the turns up to the first write that fails. -/
theorem Scripted.httpSendfile_log (h : Scripted choice labels handler)
    (hopen : openFile files file = some (used, template)) (fd : Connection) :
    (httpSendfile files fd file handler []).map (fun r => r.2.2) =
      some (if (writeAll (headerBlocks used) fd).1 then
        firedUntil (writeAll (headerBlocks used) fd).2.succeeds
          (writeAll (headerBlocks used) fd).2.written.length
          (turnFires labels choice (starts template) [] 0)
      else []) := by
  have hsize : (List.replicate dataSize (0 : UInt8)).length = dataSize := List.length_replicate
  rw [httpSendfile, hopen]
  simp only [Option.bind_eq_bind, Option.bind_some]
  by_cases hheader : (writeAll (headerBlocks used) fd).1 = true
  · rw [if_pos hheader, if_pos hheader]
    exact h.bodyLoop_log (Nat.le_refl _) hsize holds_zeros _ []
  · rw [if_neg hheader, if_neg hheader]
    rfl

end Response

end BliveQueue.Httpd
