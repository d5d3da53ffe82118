/-
# The body of a response

The loop of `http_sendfile` sends a line and fetches the next one until the file has
ended, and sends what is in the buffer once more behind the loop. That is right when
the last `fgets` met the end of the file behind a line it had read, that is for a last
line without newline that leaves room in the buffer. Behind every other last line the
buffer still holds what was sent for it, and this is sent a second time.
-/

import BliveQueue.Httpd.Template

namespace BliveQueue.Httpd

open BliveQueue.Math BliveQueue.Math.CharBuffer BliveQueue.Math.Lines
open BliveQueue.Utils BliveQueue.Utils.Httpd

variable {σ : Type} {handler : HttpdHandler σ} {output : HttpInjectUnit σ → σ → List UInt8 × σ}
  {data : Buffer} {fp : FileStream} {fd : Connection} {cur rest : List UInt8}

/-- The last line has no newline and does not fill the buffer. -/
def EndsShort (s : List UInt8) : Prop :=
  ∃ line ∈ (lines newline s).getLast?, newline ∉ line ∧ line.length < dataSize - 1

instance (s : List UInt8) : Decidable (EndsShort s) :=
  inferInstanceAs (Decidable (∃ line ∈ (lines newline s).getLast?,
    newline ∉ line ∧ line.length < dataSize - 1))

theorem not_endsShort_nil : ¬ EndsShort [] := by
  intro h
  obtain ⟨line, hline, -⟩ := h
  cases hline

theorem endsShort_open {s : List UInt8} (h : newline ∉ s) (hne : s ≠ []) :
    EndsShort s ↔ s.length < dataSize - 1 := by
  simp [EndsShort, lines_open h hne, h]

theorem endsShort_terminated {line : List UInt8} (h : newline ∉ line) (rest : List UInt8) :
    EndsShort (line ++ newline :: rest) ↔ EndsShort rest := by
  rw [EndsShort, EndsShort, lines_terminated h]
  cases hrest : lines newline rest with
  | nil => simp
  | cons next others => rw [List.getLast?_cons_cons]

/-! ## The loop -/

/-- Behind the loop the string in the buffer is sent. -/
theorem bodyLoop_eof (hprints : PrintsPlainly handler.injectionList output)
    (hsucceed : AllSucceed fd) (hsize : data.length = dataSize) (h : Holds data cur)
    (fuel : ℕ) (context : σ) :
    bodyLoop handler fuel data ⟨rest, true⟩ fd context =
      some (.ok, fd.after [(linePiece handler.injectionList output cur context).1],
        (linePiece handler.injectionList output cur context).2) := by
  rw [(hprints.injects cur context).bodyLoop_eof hsize h, if_pos (hsucceed _)]

/-- A turn of the loop sends the string in the buffer and fetches the next line over
what was sent. -/
theorem bodyLoop_turn (hprints : PrintsPlainly handler.injectionList output)
    (hsucceed : AllSucceed fd) (hsize : data.length = dataSize) (h : Holds data cur)
    (rest : List UInt8) (fuel : ℕ) (context : σ) :
    ∃ data', data'.length = dataSize ∧
      Holds data' (linePiece handler.injectionList output cur context).1 ∧
      bodyLoop handler (fuel + 1) data ⟨rest, false⟩ fd context =
        (fgets data' ⟨rest, false⟩).bind fun r => bodyLoop handler fuel r.1 r.2
          (fd.after [(linePiece handler.injectionList output cur context).1])
          (linePiece handler.injectionList output cur context).2 := by
  obtain ⟨data', hsize', hholds, hturn⟩ :=
    (hprints.injects cur context).bodyLoop_turn hsize h rest fuel fd
  rw [if_pos (hsucceed _)] at hturn
  exact ⟨data', hsize', hholds, hturn⟩

/-- When nothing is left but the end of the file was not met, the line in the buffer is
sent twice. -/
theorem bodyLoop_end (hprints : PrintsPlainly handler.injectionList output)
    (hsucceed : AllSucceed fd) (hsize : data.length = dataSize) (h : Holds data cur)
    (fuel : ℕ) (context : σ) :
    bodyLoop handler (fuel + 1) data ⟨[], false⟩ fd context =
      some (.ok, fd.after [(linePiece handler.injectionList output cur context).1,
          (linePiece handler.injectionList output cur context).1],
        (linePiece handler.injectionList output cur context).2) := by
  obtain ⟨data', hsize', hholds, hturn⟩ :=
    bodyLoop_turn hprints hsucceed hsize h [] fuel context
  rw [hturn, fgets_end hsize', Option.bind_some,
    bodyLoop_eof hprints (hsucceed.after _) hsize' hholds, linePiece_linePiece hprints,
    after_after]
  rfl

/-- What is sent behind the body. -/
def repeated (s : List UInt8) (pieces : List (List UInt8)) : List (List UInt8) :=
  if EndsShort s then [] else pieces.getLast?.toList

theorem repeated_terminated {line : List UInt8} (h : newline ∉ line) (rest : List UInt8)
    (pieces : List (List UInt8)) :
    repeated (line ++ newline :: rest) pieces = repeated rest pieces := by
  simp only [repeated, endsShort_terminated h]

theorem repeated_cons_cons (s piece next : List UInt8) (pieces : List (List UInt8)) :
    repeated s (piece :: next :: pieces) = repeated s (next :: pieces) := by
  rw [repeated, repeated, List.getLast?_cons_cons]

/-- What is left when a last line without newline is to be fetched. -/
theorem bodyLoop_lastLine (hprints : PrintsPlainly handler.injectionList output)
    (hsucceed : AllSucceed fd) (hsize : data.length = dataSize) {s : List UInt8}
    (hopen : newline ∉ s) (hne : s ≠ []) (hnul : 0 ∉ s) (hfits : s.length < dataSize)
    {fuel : ℕ} (hfuel : 0 < fuel) (context : σ) :
    ((fgets data ⟨s, false⟩).bind fun r => bodyLoop handler fuel r.1 r.2 fd context) =
      some (.ok, fd.after ((linePiece handler.injectionList output s context).1 ::
          repeated s [(linePiece handler.injectionList output s context).1]),
        (linePiece handler.injectionList output s context).2) := by
  obtain ⟨data', hread, hsize', hholds⟩ := fgets_open hsize hopen hne hnul hfits
  rw [hread, Option.bind_some]
  by_cases hshort : s.length < dataSize - 1
  · rw [decide_eq_true hshort, bodyLoop_eof hprints hsucceed hsize' hholds, repeated,
      if_pos ((endsShort_open hopen hne).mpr hshort)]
  · obtain ⟨fuel, rfl⟩ := Nat.exists_eq_succ_of_ne_zero (Nat.ne_of_gt hfuel)
    rw [decide_eq_false hshort, bodyLoop_end hprints hsucceed hsize' hholds, repeated,
      if_neg fun hends => hshort ((endsShort_open hopen hne).mp hends)]
    rfl

/-- The loop sends the line in the buffer and those that are left, and then perhaps the
last one again. The induction is along the lines that are left. -/
theorem bodyLoop_eq (hprints : PrintsPlainly handler.injectionList output) {fuel : ℕ}
    {context : σ} (hsucceed : AllSucceed fd) (hsize : data.length = dataSize)
    (h : Holds data cur) (hnul : 0 ∉ rest)
    (hlines : ∀ line ∈ lines newline rest, line.length < dataSize) (hfuel : rest.length < fuel) :
    bodyLoop handler fuel data ⟨rest, false⟩ fd context =
      some (.ok, fd.after
          ((bodyPieces handler.injectionList output (cur :: lines newline rest) context).1 ++
            repeated rest
              (bodyPieces handler.injectionList output (cur :: lines newline rest) context).1),
        (bodyPieces handler.injectionList output (cur :: lines newline rest) context).2) := by
  induction rest using lines_induction newline generalizing fuel data fd cur context with
  | nil =>
      obtain ⟨fuel, rfl⟩ := Nat.exists_eq_succ_of_ne_zero (Nat.ne_zero_of_lt hfuel)
      rw [bodyLoop_end hprints hsucceed hsize h]
      simp [repeated, not_endsShort_nil, bodyPieces, lines]
  | opened s hopen hne =>
      obtain ⟨fuel, rfl⟩ := Nat.exists_eq_succ_of_ne_zero (Nat.ne_zero_of_lt hfuel)
      rw [lines_open hopen hne] at hlines ⊢
      have hpos : 0 < fuel :=
        Nat.lt_of_lt_of_le (List.length_pos_of_ne_nil hne) (Nat.le_of_lt_succ hfuel)
      obtain ⟨data', hsize', -, hturn⟩ :=
        bodyLoop_turn hprints hsucceed hsize h s fuel context
      rw [hturn, bodyLoop_lastLine hprints (hsucceed.after _) hsize' hopen hne hnul
        (hlines s List.mem_cons_self) hpos, after_after]
      simp only [bodyPieces, repeated_cons_cons]
      rfl
  | terminated line rest hline ih =>
      obtain ⟨fuel, rfl⟩ := Nat.exists_eq_succ_of_ne_zero (Nat.ne_zero_of_lt hfuel)
      rw [lines_terminated hline] at hlines ⊢
      rw [List.forall_mem_cons] at hlines
      rw [List.mem_append, List.mem_cons, not_or, not_or] at hnul
      obtain ⟨data', hsize', -, hturn⟩ :=
        bodyLoop_turn hprints hsucceed hsize h (line ++ newline :: rest) fuel context
      obtain ⟨data'', hread, hsize'', hholds⟩ :=
        fgets_terminated hsize' hline hnul.1 hlines.1 rest
      have hfuel' : rest.length < fuel := by
        rw [List.length_append, List.length_cons] at hfuel
        omega
      rw [hturn, hread, Option.bind_some,
        ih (hsucceed.after _) hsize'' hholds hnul.2.2 hlines.2 hfuel', after_after]
      simp only [bodyPieces, repeated_terminated hline, repeated_cons_cons]
      rfl

/-! ## The whole response -/

variable {files : HttpFile → Option (List UInt8)} {file used : HttpFile}
  {template : List UInt8} {context : σ}

/-- The pieces of a response are sent in order, and then perhaps the last one again. -/
theorem httpSendfile_eq (hopen : openFile files file = some (used, template))
    (hprints : PrintsPlainly handler.injectionList output) (hsucceed : AllSucceed fd)
    (hnul : 0 ∉ template) (hlines : ∀ line ∈ lines newline template, line.length < dataSize)
    (context : σ) :
    ∃ blocks,
      httpSendfile files fd file handler context =
        some (.ok, fd.after (headerBlocks used ++ blocks),
          (bodyPieces handler.injectionList output (lines newline template) context).2) ∧
      blocks.flatten =
        ((bodyPieces handler.injectionList output (lines newline template) context).1 ++
          repeated template (bodyPieces handler.injectionList output
            (lines newline template) context).1).flatten := by
  have hsize : (List.replicate dataSize (0 : UInt8)).length = dataSize := List.length_replicate
  have hsucceed' := hsucceed.after (headerBlocks used)
  have hunfold : httpSendfile files fd file handler context =
      (fgets (List.replicate dataSize 0) ⟨template, false⟩).bind fun r =>
        bodyLoop handler template.length r.1 r.2 (fd.after (headerBlocks used)) context := by
    rw [httpSendfile, hopen]
    simp [hsucceed.writeAll_eq]
  rw [hunfold]
  cases template using lines_cases newline with
  | nil =>
      rw [fgets_end hsize, Option.bind_some, bodyLoop_eof hprints hsucceed' hsize holds_zeros,
        linePiece_nil hprints, after_after]
      exact ⟨[[]], rfl, by simp [bodyPieces, repeated, not_endsShort_nil, lines]⟩
  | opened _ hline hne =>
      rw [lines_open hline hne] at hlines ⊢
      rw [bodyLoop_lastLine hprints hsucceed' hsize hline hne hnul
        (hlines template List.mem_cons_self) (List.length_pos_of_ne_nil hne), after_after]
      exact ⟨_, rfl, rfl⟩
  | terminated line rest hline =>
      rw [lines_terminated hline] at hlines ⊢
      rw [List.forall_mem_cons] at hlines
      rw [List.mem_append, List.mem_cons, not_or, not_or] at hnul
      obtain ⟨data, hread, hsize', hholds⟩ :=
        fgets_terminated hsize hline hnul.1 hlines.1 rest
      have hfuel : rest.length < (line ++ newline :: rest).length := by
        rw [List.length_append, List.length_cons]
        omega
      rw [hread, Option.bind_some,
        bodyLoop_eq hprints hsucceed' hsize' hholds hnul.2.2 hlines.2 hfuel, after_after,
        repeated_terminated hline]
      exact ⟨_, rfl, rfl⟩

/-- The response is the header and, in order, what is to be sent for the lines of the
template, each once; the callbacks have run once for each line they replace. -/
def SendsEachLineOnce (files : HttpFile → Option (List UInt8)) (fd : Connection)
    (file used : HttpFile) (handler : HttpdHandler σ)
    (output : HttpInjectUnit σ → σ → List UInt8 × σ) (template : List UInt8) (context : σ) : Prop :=
  ∃ fd', httpSendfile files fd file handler context = some (.ok, fd',
      (bodyPieces handler.injectionList output (lines newline template) context).2) ∧
    fd'.written.flatten = (fd.written ++ headerBlocks used).flatten ++
      (bodyPieces handler.injectionList output (lines newline template) context).1.flatten

/-- The template is empty, or its last line has no newline and does not fill the buffer,
or nothing is to be sent for its last line. -/
def EndsHarmlessly (units : List (HttpInjectUnit σ))
    (output : HttpInjectUnit σ → σ → List UInt8 × σ) (template : List UInt8) (context : σ) : Prop :=
  template = [] ∨ EndsShort template ∨
    (bodyPieces units output (lines newline template) context).1.getLast? = some []

theorem bodyPieces_ne_nil (units : List (HttpInjectUnit σ))
    (output : HttpInjectUnit σ → σ → List UInt8 × σ) (h : template ≠ []) (context : σ) :
    (bodyPieces units output (lines newline template) context).1 ≠ [] := by
  cases hlines : lines newline template with
  | nil => exact absurd (lines_eq_nil_iff.mp hlines) h
  | cons line rest => exact List.cons_ne_nil _ _

/-- Nothing visible is repeated exactly if the template ends harmlessly. -/
theorem flatten_repeated_eq_nil_iff {units : List (HttpInjectUnit σ)} :
    (repeated template
      (bodyPieces units output (lines newline template) context).1).flatten = [] ↔
        EndsHarmlessly units output template context := by
  unfold EndsHarmlessly repeated
  by_cases hempty : template = []
  · simp [hempty, bodyPieces, lines]
  · by_cases hends : EndsShort template
    · simp [hends]
    · have hne := bodyPieces_ne_nil units output hempty context
      rw [if_neg hends, List.getLast?_eq_some_getLast hne]
      simp [hempty, hends]

/-- Each line is sent once exactly if what is sent again is nothing. -/
theorem sendsEachLineOnce_iff_repeated (hopen : openFile files file = some (used, template))
    (hprints : PrintsPlainly handler.injectionList output) (hsucceed : AllSucceed fd)
    (hnul : 0 ∉ template) (hlines : ∀ line ∈ lines newline template, line.length < dataSize) :
    SendsEachLineOnce files fd file used handler output template context ↔
      (repeated template (bodyPieces handler.injectionList output
        (lines newline template) context).1).flatten = [] := by
  obtain ⟨blocks, hsend, hblocks⟩ :=
    httpSendfile_eq hopen hprints hsucceed hnul hlines context
  have hwritten : (fd.after (headerBlocks used ++ blocks)).written.flatten =
      (fd.written ++ headerBlocks used).flatten ++ blocks.flatten := by
    simp [Connection.after]
  constructor
  · intro honce
    obtain ⟨fd', hsend', hbody⟩ := honce
    obtain ⟨-, rfl, -⟩ := by simpa using hsend.symm.trans hsend'
    rw [hwritten, List.append_cancel_left_eq, hblocks, List.flatten_append,
      List.append_right_eq_self] at hbody
    exact hbody
  · intro hnothing
    have hbody : blocks.flatten =
        (bodyPieces handler.injectionList output (lines newline template) context).1.flatten := by
      rw [hblocks, List.flatten_append, hnothing, List.append_nil]
    exact ⟨_, hsend, hwritten.trans (by rw [hbody])⟩

/-- `http_sendfile` sends each line once exactly if the template ends harmlessly. -/
theorem sends_each_line_once_iff (hopen : openFile files file = some (used, template))
    (hprints : PrintsPlainly handler.injectionList output) (hsucceed : AllSucceed fd)
    (hnul : 0 ∉ template) (hlines : ∀ line ∈ lines newline template, line.length < dataSize) :
    SendsEachLineOnce files fd file used handler output template context ↔
      EndsHarmlessly handler.injectionList output template context := by
  rw [sendsEachLineOnce_iff_repeated hopen hprints hsucceed hnul hlines,
    flatten_repeated_eq_nil_iff]

/-! ## Two templates -/

/-- A connection on which nothing was written and every write succeeds. -/
def openConnection : Connection := ⟨[], fun _ => true⟩

theorem openConnection_allSucceed : AllSucceed openConnection := fun _ => rfl

/-- A unit that prints a fixed text and counts its calls. -/
def printer (label printed : List UInt8) : HttpInjectUnit ℕ where
  htmlLabelName := label
  callback dst calls := (store dst 0 (printed ++ [0])).map fun dst => (dst, calls + 1)

theorem printer_prints (label : List UInt8) {printed : List UInt8} (hnul : 0 ∉ printed)
    (hfits : printed.length < dataSize) :
    Prints (printer label printed) fun calls => (printed, calls + 1) := by
  intro calls dst hsize _
  obtain ⟨dst', hstore, hholds⟩ := exists_store_string hnul (hsize ▸ hfits)
  exact ⟨dst', by simp [printer, hstore], (length_store hstore).trans hsize, hholds⟩

/-- The handler with one label. -/
def listHandler : HttpdHandler ℕ :=
  ⟨[printer (literal "__queuelist_injection__") (literal "<p>\r\n")], by decide⟩

theorem listHandler_printsPlainly :
    PrintsPlainly listHandler.injectionList fun _ calls => (literal "<p>\r\n", calls + 1) where
  prints unit hunit := by
    rw [List.mem_singleton.mp hunit]
    exact printer_prints _ (by decide) (by decide)
  plain unit _ calls other hother := by
    rw [List.mem_singleton.mp hother]
    show ¬ literal "__queuelist_injection__" <:+: literal "<p>\r\n"
    decide

/-- A page like the shipped one, whose last line has no newline. -/
theorem sends_each_line_once_of_page :
    SendsEachLineOnce (fun _ => some (literal "<HTML>\n<__queuelist_injection__>\n</HTML>"))
        openConnection .home .home listHandler (fun _ calls => (literal "<p>\r\n", calls + 1))
        (literal "<HTML>\n<__queuelist_injection__>\n</HTML>") 0 ∧
      bodyPieces listHandler.injectionList (fun _ calls => (literal "<p>\r\n", calls + 1))
        (lines newline (literal "<HTML>\n<__queuelist_injection__>\n</HTML>")) 0 =
          ([literal "<HTML>\n", literal "<p>\r\n", literal "</HTML>"], 1) :=
  ⟨(sends_each_line_once_iff rfl listHandler_printsPlainly openConnection_allSucceed
    (by decide +kernel) (by decide +kernel)).mpr (Or.inr (Or.inl (by decide +kernel))),
    by decide +kernel⟩

/-- A template whose only line ends in a newline is sent twice. -/
theorem exists_line_sent_twice :
    ∃ fd', httpSendfile (fun _ => some (literal "a\n")) openConnection .home
          (⟨[], Nat.zero_le _⟩ : HttpdHandler ℕ) 0 = some (.ok, fd', 0) ∧
      fd'.written.flatten = (headerBlocks .home).flatten ++ literal "a\na\n" ∧
      ¬ SendsEachLineOnce (fun _ => some (literal "a\n")) openConnection .home .home
        (⟨[], Nat.zero_le _⟩ : HttpdHandler ℕ) (fun _ calls => ([], calls)) (literal "a\n") 0 := by
  have hprints : PrintsPlainly (⟨[], Nat.zero_le _⟩ : HttpdHandler ℕ).injectionList
      fun _ calls => ([], calls) := ⟨by simp, by simp⟩
  have hopen : openFile (fun _ => some (literal "a\n")) .home =
      some (.home, literal "a\n") := rfl
  obtain ⟨blocks, hsend, hblocks⟩ := httpSendfile_eq hopen hprints openConnection_allSucceed
    (by decide +kernel) (by decide +kernel) 0
  refine ⟨_, hsend, ?_, ?_⟩
  · have hbody : blocks.flatten = literal "a\na\n" := hblocks.trans (by decide +kernel)
    simp [Connection.after, openConnection, hbody]
  · rw [sendsEachLineOnce_iff_repeated hopen hprints openConnection_allSucceed
      (by decide +kernel) (by decide +kernel)]
    decide +kernel

end BliveQueue.Httpd
