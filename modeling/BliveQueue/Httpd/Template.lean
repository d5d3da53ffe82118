/-
# Lines of a template and what is sent for them

`fgets` takes one line at a time from a file whose lines are shorter than the buffer,
and `do_html_inject` leaves in the buffer what is sent for the line: the line itself, or
what the callback of the first label in it prints.
-/

import BliveQueue.Math.Lines
import BliveQueue.Utils.Httpd

namespace BliveQueue.Httpd

open BliveQueue.Math BliveQueue.Math.CharBuffer BliveQueue.Math.Lines
open BliveQueue.Utils BliveQueue.Utils.Httpd

/-! ## `fgets` -/

section Fgets

variable {data : Buffer} {line rest : List UInt8} {fp : FileStream} {eof : Bool} {n room : ℕ}

theorem takeLine_ne_nil (hroom : 0 < room) (hne : rest ≠ []) : (takeLine room rest).1 ≠ [] := by
  obtain ⟨m, rfl⟩ := Nat.exists_eq_succ_of_ne_zero hroom.ne'
  cases rest with
  | nil => exact absurd rfl hne
  | cons c rest =>
      rw [takeLine]
      split
      · exact List.cons_ne_nil _ _
      · exact List.cons_ne_nil _ _

theorem length_takeLine_le (room : ℕ) (rest : List UInt8) :
    (takeLine room rest).1.length ≤ room := by
  induction room generalizing rest with
  | zero => simp [takeLine]
  | succ room ih =>
      cases rest with
      | nil => simp [takeLine]
      | cons c rest =>
          rw [takeLine]
          split
          · simp
          · exact Nat.succ_le_succ (ih rest)

/-- The string in the buffer is the piece that was read, up to its first zero. -/
theorem exists_fgets (hsize : data.length = dataSize) (hne : rest ≠ []) (eof : Bool) :
    ∃ data', fgets data ⟨rest, eof⟩ = some (data', (takeLine (dataSize - 1) rest).2) ∧
      data'.length = dataSize ∧ Holds data' (text (takeLine (dataSize - 1) rest).1) := by
  have hfits : (takeLine (dataSize - 1) rest).1.length < data.length := by
    have hle := length_takeLine_le (dataSize - 1) rest
    have hpos : 0 < dataSize := by decide
    omega
  obtain ⟨data', hstore, hholds⟩ := exists_store_line hfits
  refine ⟨data', ?_, (length_store hstore).trans hsize, hholds⟩
  rw [fgets, hsize]
  have hline : (takeLine (dataSize - 1) rest).1 ≠ [] := takeLine_ne_nil (by decide) hne
  cases htake : takeLine (dataSize - 1) rest with
  | mk line fp =>
      rw [htake] at hstore hline
      cases line with
      | nil => exact absurd rfl hline
      | cons c line =>
          simp only [hstore]
          rfl

theorem takeLine_terminated (h : newline ∉ line) (hfits : line.length < n) (rest : List UInt8) :
    takeLine n (line ++ newline :: rest) = (line ++ [newline], ⟨rest, false⟩) := by
  induction line generalizing n with
  | nil =>
      obtain ⟨m, rfl⟩ := Nat.exists_eq_succ_of_ne_zero (Nat.ne_of_gt hfits)
      simp [takeLine]
  | cons c line ih =>
      obtain ⟨m, rfl⟩ := Nat.exists_eq_succ_of_ne_zero (Nat.ne_zero_of_lt hfits)
      rw [List.mem_cons, not_or] at h
      rw [List.cons_append, takeLine, if_neg (Ne.symm h.1),
        ih h.2 (Nat.lt_of_succ_lt_succ hfits)]
      rfl

/-- The end of the file is met by a line that leaves room in the buffer. -/
theorem takeLine_open (h : newline ∉ line) (hfits : line.length ≤ n) :
    takeLine n line = (line, ⟨[], decide (line.length < n)⟩) := by
  induction line generalizing n with
  | nil => cases n <;> simp [takeLine]
  | cons c line ih =>
      obtain ⟨m, rfl⟩ := Nat.exists_eq_succ_of_ne_zero (Nat.ne_zero_of_lt hfits)
      rw [List.mem_cons, not_or] at h
      rw [takeLine, if_neg (Ne.symm h.1), ih h.2 (Nat.le_of_succ_le_succ hfits)]
      simp

/-- A line that was read is the string in the buffer. -/
theorem fgets_of_takeLine (hsize : data.length = dataSize) (hne : rest ≠ [])
    (h : takeLine (dataSize - 1) rest = (line, fp)) (hnul : 0 ∉ line) :
    ∃ data', fgets data ⟨rest, eof⟩ = some (data', fp) ∧ data'.length = dataSize ∧
      Holds data' line := by
  obtain ⟨data', hread, hsize', hholds⟩ := exists_fgets hsize hne eof
  rw [h] at hread hholds
  rw [text_eq_self hnul] at hholds
  exact ⟨data', hread, hsize', hholds⟩

/-- A line with its newline. -/
theorem fgets_terminated (hsize : data.length = dataSize) (h : newline ∉ line) (hnul : 0 ∉ line)
    (hfits : (line ++ [newline]).length < dataSize) (rest : List UInt8) :
    ∃ data', fgets data ⟨line ++ newline :: rest, eof⟩ = some (data', ⟨rest, false⟩) ∧
      data'.length = dataSize ∧ Holds data' (line ++ [newline]) := by
  have hroom : line.length < dataSize - 1 := by
    rw [List.length_append, List.length_singleton] at hfits
    omega
  have hnul' : 0 ∉ line ++ [newline] := by
    rw [List.mem_append, not_or]
    exact ⟨hnul, by decide⟩
  exact fgets_of_takeLine hsize (by simp) (takeLine_terminated h hroom rest) hnul'

/-- A last line without newline. -/
theorem fgets_open (hsize : data.length = dataSize) (h : newline ∉ line) (hne : line ≠ [])
    (hnul : 0 ∉ line) (hfits : line.length < dataSize) :
    ∃ data', fgets data ⟨line, eof⟩ =
        some (data', ⟨[], decide (line.length < dataSize - 1)⟩) ∧
      data'.length = dataSize ∧ Holds data' line :=
  fgets_of_takeLine hsize hne (takeLine_open h (Nat.le_sub_one_of_lt hfits)) hnul

/-- At the end of the file nothing is read. -/
theorem fgets_end (hsize : data.length = dataSize) :
    fgets data ⟨[], eof⟩ = some (data, ⟨[], true⟩) := by
  unfold fgets
  rw [hsize]
  rfl

end Fgets

/-- The buffer of a new response. -/
theorem holds_zeros : Holds (List.replicate dataSize 0) [] :=
  ⟨by simp, List.replicate (dataSize - 1) 0, rfl⟩

/-! ## Injection -/

variable {σ : Type} {units : List (HttpInjectUnit σ)}
  {output : HttpInjectUnit σ → σ → List UInt8 × σ} {unit : HttpInjectUnit σ} {s : List UInt8}
  {context : σ} {out : List UInt8 × σ}

/-- The callback of a unit prints a text into a cleared buffer of `http_sendfile`. -/
def Prints (unit : HttpInjectUnit σ) (out : σ → List UInt8 × σ) : Prop :=
  ∀ context dst, dst.length = dataSize → Holds dst [] →
    ∃ dst', unit.callback dst context = some (dst', (out context).2) ∧
      dst'.length = dataSize ∧ Holds dst' (out context).1

/-- What the callbacks of a list of units print, no registered label among it. -/
structure PrintsPlainly (units : List (HttpInjectUnit σ))
    (output : HttpInjectUnit σ → σ → List UInt8 × σ) : Prop where
  prints : ∀ unit ∈ units, Prints unit (output unit)
  plain : ∀ unit ∈ units, ∀ context, ∀ other ∈ units,
    ¬ other.htmlLabelName <:+: (output unit context).1

/-- What is to be sent for a line. -/
def linePiece (units : List (HttpInjectUnit σ)) (output : HttpInjectUnit σ → σ → List UInt8 × σ)
    (line : List UInt8) (context : σ) : List UInt8 × σ :=
  match units.find? fun unit => unit.htmlLabelName <:+: line with
  | none => (line, context)
  | some unit => output unit context

/-- What is to be sent for some lines, one after the other. -/
def bodyPieces (units : List (HttpInjectUnit σ)) (output : HttpInjectUnit σ → σ → List UInt8 × σ) :
    List (List UInt8) → σ → List (List UInt8) × σ
  | [], context => ([], context)
  | line :: rest, context =>
    ((linePiece units output line context).1 ::
      (bodyPieces units output rest (linePiece units output line context).2).1,
      (bodyPieces units output rest (linePiece units output line context).2).2)

/-- `do_html_inject` makes some output of a text. -/
def Injects (units : List (HttpInjectUnit σ)) (s : List UInt8) (context : σ)
    (out : List UInt8 × σ) : Prop :=
  ∀ dst, dst.length = dataSize → Holds dst s →
    ∃ dst', injectLoop units dst context = some (dst', out.2) ∧ dst'.length = dataSize ∧
      Holds dst' out.1

theorem Injects.nil (s : List UInt8) (context : σ) : Injects [] s context (s, context) :=
  fun dst hsize h => ⟨dst, rfl, hsize, h⟩

/-- The search goes on behind a label that is not there. -/
theorem Injects.skip (h : Injects units s context out) (hlabel : ¬ unit.htmlLabelName <:+: s) :
    Injects (unit :: units) s context out := by
  intro dst hsize hholds
  obtain ⟨dst', hloop, hrest⟩ := h dst hsize hholds
  refine ⟨dst', ?_, hrest⟩
  rw [injectLoop, hholds.string_eq]
  simpa [hlabel] using hloop

/-- Behind a label that is there it goes on in what the callback has printed. -/
theorem Injects.fire {print : σ → List UInt8 × σ} (hprints : Prints unit print)
    (hlabel : unit.htmlLabelName <:+: s)
    (h : Injects units (print context).1 (print context).2 out) :
    Injects (unit :: units) s context out := by
  intro dst hsize hholds
  obtain ⟨cleared, hclear, hempty⟩ := hholds.clear
  obtain ⟨printed, hcallback, hsize', hholds'⟩ :=
    hprints context cleared ((length_store hclear).trans hsize) hempty
  obtain ⟨dst', hloop, hrest⟩ := h printed hsize' hholds'
  refine ⟨dst', ?_, hrest⟩
  rw [injectLoop, hholds.string_eq]
  simp [hlabel, hclear, hcallback, hloop]

/-- A text without labels is left alone. -/
theorem Injects.of_plain (hplain : ∀ unit ∈ units, ¬ unit.htmlLabelName <:+: s) (context : σ) :
    Injects units s context (s, context) := by
  induction units with
  | nil => exact .nil s context
  | cons unit units ih =>
      rw [List.forall_mem_cons] at hplain
      exact (ih hplain.2).skip hplain.1

theorem PrintsPlainly.tail (h : PrintsPlainly (unit :: units) output) :
    PrintsPlainly units output where
  prints other hother := h.prints other (List.mem_cons_of_mem unit hother)
  plain other hother context third hthird :=
    h.plain other (List.mem_cons_of_mem unit hother) context third
      (List.mem_cons_of_mem unit hthird)

/-- Injection leaves what is to be sent for the line. -/
theorem PrintsPlainly.injects (h : PrintsPlainly units output) (s : List UInt8) (context : σ) :
    Injects units s context (linePiece units output s context) := by
  induction units with
  | nil => exact .nil s context
  | cons unit units ih =>
      by_cases hlabel : unit.htmlLabelName <:+: s
      · -- the line is replaced, and what replaces it holds no further label
        have hpiece : linePiece (unit :: units) output s context = output unit context := by
          rw [linePiece, List.find?_cons_of_pos (by simpa using hlabel)]
        have hplain : ∀ other ∈ units, ¬ other.htmlLabelName <:+: (output unit context).1 :=
          fun other hother => h.plain unit List.mem_cons_self context other
            (List.mem_cons_of_mem unit hother)
        rw [hpiece]
        exact .fire (h.prints unit List.mem_cons_self) hlabel (.of_plain hplain _)
      · have hpiece : linePiece (unit :: units) output s context =
            linePiece units output s context := by
          rw [linePiece, List.find?_cons_of_neg (by simpa using hlabel)]
          rfl
        rw [hpiece]
        exact (ih h.tail).skip hlabel

/-- Labels are not empty, so nothing is sent for an empty line. -/
theorem linePiece_nil (hprints : PrintsPlainly units output) (context : σ) :
    linePiece units output [] context = ([], context) := by
  have hnone : units.find? (fun unit => unit.htmlLabelName <:+: []) = none := by
    rw [List.find?_eq_none]
    intro unit hunit
    rw [decide_eq_true_eq, List.infix_nil]
    intro hempty
    have hplain := hprints.plain unit hunit context unit hunit
    rw [hempty] at hplain
    exact hplain List.nil_infix
  rw [linePiece, hnone]

/-- What was sent for a line would not be changed by a second injection. -/
theorem linePiece_linePiece (hprints : PrintsPlainly units output) (s : List UInt8)
    (context context' : σ) :
    linePiece units output (linePiece units output s context).1 context' =
      ((linePiece units output s context).1, context') := by
  have hnone : units.find? (fun unit =>
      unit.htmlLabelName <:+: (linePiece units output s context).1) = none := by
    rw [List.find?_eq_none]
    intro other hother
    rw [decide_eq_true_eq]
    cases hfind : units.find? fun unit => unit.htmlLabelName <:+: s with
    | none =>
        have hplain := List.find?_eq_none.mp hfind other hother
        rw [linePiece, hfind]
        simpa using hplain
    | some unit =>
        rw [linePiece, hfind]
        exact hprints.plain unit (List.mem_of_find?_eq_some hfind) context other hother
  conv_lhs => rw [linePiece, hnone]

/-! ## Writing -/

variable {fd : Connection} {handler : HttpdHandler σ} {data : Buffer}

/-- Every write on the connection succeeds. -/
def AllSucceed (fd : Connection) : Prop := ∀ n, fd.succeeds n = true

theorem AllSucceed.after (h : AllSucceed fd) (blocks : List (List UInt8)) :
    AllSucceed (fd.after blocks) := h

theorem after_after (fd : Connection) (blocks more : List (List UInt8)) :
    (fd.after blocks).after more = fd.after (blocks ++ more) := by
  simp [Connection.after]

/-- Blocks are written up to the first write that fails. -/
theorem writeAll_eq {blocks : List (List UInt8)}
    (h : ∀ n < blocks.length, fd.succeeds (fd.written.length + n) = true) :
    writeAll blocks fd = (true, fd.after blocks) := by
  induction blocks generalizing fd with
  | nil => simp [writeAll, Connection.after]
  | cons block blocks ih =>
      have hfirst : fd.succeeds fd.written.length = true := h 0 (Nat.succ_pos _)
      have hrest : ∀ n < blocks.length,
          (fd.after [block]).succeeds ((fd.after [block]).written.length + n) = true := by
        intro n hn
        have hlength : (fd.after [block]).written.length + n = fd.written.length + (n + 1) := by
          simp [Connection.after, Nat.add_assoc, Nat.add_comm 1]
        rw [hlength]
        exact h (n + 1) (Nat.succ_lt_succ hn)
      rw [writeAll, fdWrite, if_pos hfirst, ih hrest, after_after]
      rfl

theorem AllSucceed.writeAll_eq (h : AllSucceed fd) (blocks : List (List UInt8)) :
    writeAll blocks fd = (true, fd.after blocks) :=
  Httpd.writeAll_eq fun _ _ => h _

theorem doHtmlInject_eq_injectLoop (dst : Buffer) (context : σ) :
    doHtmlInject dst handler context = injectLoop handler.injectionList dst context := by
  rw [doHtmlInject]
  split
  · next hnone => rw [List.length_eq_zero_iff.mp hnone, injectLoop]
  · rfl

/-- One line of the response. -/
theorem Injects.sendLine_eq (h : Injects handler.injectionList s context out)
    (hsize : data.length = dataSize) (hholds : Holds data s) (fd : Connection) :
    ∃ data', data'.length = dataSize ∧ Holds data' out.1 ∧
      sendLine handler data fd context =
        some (fd.succeeds fd.written.length, data', fd.after [out.1], out.2) := by
  obtain ⟨data', hloop, hsize', hholds'⟩ := h data hsize hholds
  refine ⟨data', hsize', hholds', ?_⟩
  rw [sendLine, doHtmlInject_eq_injectLoop, hloop]
  simp [hholds'.string_eq, fdWrite]

/-- Behind the loop of `http_sendfile` the string in the buffer is sent. -/
theorem Injects.bodyLoop_eof (h : Injects handler.injectionList s context out)
    (hsize : data.length = dataSize) (hholds : Holds data s) (rest : List UInt8) (fuel : ℕ)
    (fd : Connection) :
    bodyLoop handler fuel data ⟨rest, true⟩ fd context =
      some (if fd.succeeds fd.written.length then .ok else .terminate, fd.after [out.1],
        out.2) := by
  obtain ⟨data', -, -, hsend⟩ := h.sendLine_eq hsize hholds fd
  unfold bodyLoop
  rw [if_pos rfl, hsend]
  rfl

/-- A turn of the loop sends the string in the buffer and, if the write succeeds, fetches
the next line over what was sent. -/
theorem Injects.bodyLoop_turn (h : Injects handler.injectionList s context out)
    (hsize : data.length = dataSize) (hholds : Holds data s) (rest : List UInt8) (fuel : ℕ)
    (fd : Connection) :
    ∃ data', data'.length = dataSize ∧ Holds data' out.1 ∧
      bodyLoop handler (fuel + 1) data ⟨rest, false⟩ fd context =
        if fd.succeeds fd.written.length then
          (fgets data' ⟨rest, false⟩).bind fun r =>
            bodyLoop handler fuel r.1 r.2 (fd.after [out.1]) out.2
        else some (.terminate, fd.after [out.1], out.2) := by
  obtain ⟨data', hsize', hholds', hsend⟩ := h.sendLine_eq hsize hholds fd
  refine ⟨data', hsize', hholds', ?_⟩
  rw [bodyLoop, if_neg (by simp), hsend]
  rfl

end BliveQueue.Httpd
