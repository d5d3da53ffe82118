/-
# A response between the other threads

Each turn of `http_sendfile` sends one text: what it has read, or, behind the end of the
file, what the turn before has left. A text with the label of the script is replaced by the
script, one with the label of the queue by the rows of the queue at that moment, whatever
other threads have done to it since the turn before. What is written of a response is
therefore determined by the template and by one queue for each turn.
-/

import BliveQueue.Callbacks.QueueText
import BliveQueue.Httpd.Firing
import BliveQueue.Server

namespace BliveQueue.Server

open BliveQueue.Callbacks BliveQueue.Config BliveQueue.Httpd BliveQueue.Math
open BliveQueue.Math.CharBuffer BliveQueue.QList BliveQueue.Utils BliveQueue.Utils.FdPool
open BliveQueue.Utils.Httpd BliveQueue.Utils.QList BliveQueue.Utils.Select

variable {σ : Type} {handler : HttpdHandler σ} {files : HttpFile → Option (List UInt8)}
  {file used : HttpFile} {template s rest : List UInt8} {fd : Connection} {data dst dst' : Buffer}
  {fp : FileStream} {colors : ColorConfig} {q : BliveQlist} {seq : Sequence} {pairs : List Pair}
  {queues : List BliveQlist} {r r' : Response} {closed : Closed} {succeeds : ℕ → Bool}

/-! ## The callbacks of the page -/

/-- The handler with the labels that `callbacks_init` registers. -/
def pageHandler : HttpdHandler QueueEntity :=
  ⟨[⟨refreshLabel, injectRefresh⟩, ⟨queueLabel, injectQueue⟩], by decide⟩

theorem httpd_of_callbacksInit {fdPoll : FdPoll} {rdFd : Fd} {mem : PoolMem}
    {registered : Registered}
    (h : callbacksInit fdPoll httpCreate (some rdFd) true mem = some (.ok, registered)) :
    registered.qlist = some emptyQlist ∧ registered.httpd = pageHandler := by
  obtain ⟨⟨code, fdPoll'⟩, -, heq⟩ := Option.bind_eq_some_iff.mp h
  obtain rfl := (Prod.mk.inj (Option.some.inj heq)).2
  exact ⟨rfl, rfl⟩

/-- The pairs that the queue shows. -/
def pairsOf (q : BliveQlist) : List Pair := (traversal q false).getD []

theorem traversal_eq_pairsOf (h : Represents q seq) : traversal q false = some (pairsOf q) := by
  rw [pairsOf, h.traversal_eq]
  rfl

/-- What is sent for a text while the queue is `q`. -/
def sentText (colors : ColorConfig) (q : BliveQlist) (s : List UInt8) : List UInt8 :=
  if refreshLabel <:+: s then refreshScript
  else if queueLabel <:+: s then rows colors (pairsOf q)
  else s

/-- A row that was printed is the row of the user, whose strings are terminated. -/
theorem rowText_of_some {data : QlistUnitData} (h : rowText colors data = some s) :
    s = row colors data ∧ 0 ∈ (colorStr colors data).toList ∧ NameTerminated data := by
  obtain ⟨color, hcolor, hrest⟩ := Option.bind_eq_some_iff.mp h
  obtain ⟨name, hname, heq⟩ := Option.bind_eq_some_iff.mp hrest
  obtain rfl := Option.some.inj heq
  have hcolour : 0 ∈ (colorStr colors data).toList := zero_mem_of_string hcolor
  have hnamed : 0 ∈ data.danmuSenderName.toList := zero_mem_of_string hname
  exact ⟨Option.some.inj (h.symm.trans (rowText_eq hcolour hnamed)), hcolour, hnamed⟩

/-- The queue can be printed: the strings in it end, and its rows leave room for a zero. -/
structure Printable (colors : ColorConfig) (pairs : List Pair) : Prop where
  colours : ∀ p ∈ pairs, 0 ∈ (colorStr colors p.2).toList
  names : ∀ p ∈ pairs, NameTerminated p.2
  room : (rows colors pairs).length < dataSize

/-- A traversal that stayed in the buffer has printed all rows. -/
theorem feed_makeText_of_some (h : Holds dst s)
    (hfeed : (feed (qlistForeachMakeText colors) pairs (some dst)).2 = some dst') :
    dst'.length = dst.length ∧ Holds dst' (s ++ rows colors pairs) ∧
      ∀ p ∈ pairs, 0 ∈ (colorStr colors p.2).toList ∧ NameTerminated p.2 := by
  induction pairs generalizing dst s with
  | nil =>
      obtain rfl := Option.some.inj hfeed
      exact ⟨rfl, by simpa [rows] using h, fun p hp => absurd hp List.not_mem_nil⟩
  | cons p pairs ih =>
      cases hrow : (qlistForeachMakeText colors p.1 p.2 (some dst)).2 with
      | none =>
          have hstep : qlistForeachMakeText colors p.1 p.2 (some dst) = (true, none) :=
            Prod.ext rfl hrow
          simp only [feed, hstep, feed_makeText_none] at hfeed
          exact absurd hfeed (Option.some_ne_none _).symm
      | some dst₁ =>
          have hstep : qlistForeachMakeText colors p.1 p.2 (some dst) = (true, some dst₁) :=
            Prod.ext rfl hrow
          simp only [qlistForeachMakeText, Option.bind_eq_bind, Option.bind_some, h.string_eq]
            at hrow
          obtain ⟨text, htext, hstore⟩ := Option.bind_eq_some_iff.mp hrow
          obtain ⟨rfl, hterminated⟩ := rowText_of_some htext
          have hholds := h.of_store (zero_notMem_row colors p.2) hstore
          simp only [feed, hstep] at hfeed
          obtain ⟨hlength, hholds', hrest⟩ := ih hholds hfeed
          refine ⟨hlength.trans (length_store hstore), by simpa [rows] using hholds', ?_⟩
          rw [List.forall_mem_cons]
          exact ⟨hterminated, hrest⟩

/-- A queue that was printed into a cleared buffer stands there as its rows. -/
theorem liveroomQlistMakeText_of_some (h : Represents q seq) (hsize : dst.length = dataSize)
    (hcleared : Holds dst []) (htext : liveroomQlistMakeText colors q dst = some dst') :
    dst'.length = dataSize ∧ Holds dst' (rows colors (pairsOf q)) ∧
      Printable colors (pairsOf q) := by
  rw [liveroomQlistMakeText_eq h (traversal_eq_pairsOf h)] at htext
  obtain ⟨hlength, hholds, hterminated⟩ := feed_makeText_of_some hcleared htext
  rw [List.nil_append] at hholds
  refine ⟨hlength.trans hsize, hholds, fun p hp => (hterminated p hp).1,
    fun p hp => (hterminated p hp).2, ?_⟩
  have hlt := hholds.length_lt
  rwa [hlength, hsize] at hlt

/-- A queue can be printed into a cleared buffer exactly if it is printable. -/
theorem exists_liveroomQlistMakeText_iff (colors : ColorConfig) (h : Represents q seq)
    (hsize : dst.length = dataSize) (hcleared : Holds dst []) :
    (∃ dst', liveroomQlistMakeText colors q dst = some dst') ↔ Printable colors (pairsOf q) := by
  constructor
  · intro hprinted
    obtain ⟨dst', htext⟩ := hprinted
    exact (liveroomQlistMakeText_of_some h hsize hcleared htext).2.2
  · intro hprintable
    have hroom : ([] : List UInt8).length + (rows colors (pairsOf q)).length < dst.length := by
      rw [List.length_nil, Nat.zero_add, hsize]
      exact hprintable.room
    obtain ⟨dst', hfeed, -⟩ :=
      feed_makeText_fits hprintable.colours hprintable.names hcleared hroom
    exact ⟨dst', by rw [liveroomQlistMakeText_eq h (traversal_eq_pairsOf h), hfeed]⟩

theorem zero_notMem_refreshScript : 0 ∉ refreshScript := by decide +kernel

theorem length_refreshScript_lt : refreshScript.length < dataSize := by decide +kernel

theorem queueLabel_notInfix_refreshScript : ¬ queueLabel <:+: refreshScript := by decide +kernel

theorem refreshHtml_eq (hsize : dst.length = dataSize) (hcleared : Holds dst []) :
    ∃ dst', refreshHtml false dst = some dst' ∧ dst'.length = dataSize ∧
      Holds dst' refreshScript := by
  have hroom : ([] : List UInt8).length + refreshScript.length + 1 ≤ dst.length := by
    have hlt := length_refreshScript_lt
    rw [hsize, List.length_nil]
    omega
  obtain ⟨dst', hstore, hholds⟩ := hcleared.store zero_notMem_refreshScript hroom
  refine ⟨dst', ?_, (length_store hstore).trans hsize, hholds⟩
  simp only [refreshHtml, Bool.false_eq_true, if_false, hcleared.string_eq, Option.bind_eq_bind,
    Option.bind_some]
  exact hstore

/-- Whether the page has something to print for a text. -/
def Fits (colors : ColorConfig) (q : BliveQlist) (s : List UInt8) : Prop :=
  ¬ refreshLabel <:+: s → queueLabel <:+: s → Printable colors (pairsOf q)

/-- `do_html_inject` on a text of the page: it leaves what is to be sent, unless the rows
leave the buffer. -/
theorem injectLoop_page (h : Represents q seq) (hsize : dst.length = dataSize)
    (hholds : Holds dst s) :
    (Fits colors q s → ∃ dst', injectLoop pageHandler.injectionList dst ⟨colors, q⟩ =
        some (dst', ⟨colors, q⟩) ∧ dst'.length = dataSize ∧ Holds dst' (sentText colors q s)) ∧
      (¬ Fits colors q s → injectLoop pageHandler.injectionList dst ⟨colors, q⟩ = none) := by
  obtain ⟨cleared, hclear, hempty⟩ := hholds.clear
  have hcleared : cleared.length = dataSize := (length_store hclear).trans hsize
  rw [sentText]
  by_cases hrefresh : refreshLabel <:+: s
  · obtain ⟨printed, hprint, hsize', hholds'⟩ := refreshHtml_eq hcleared hempty
    have hloop : injectLoop pageHandler.injectionList dst ⟨colors, q⟩ =
        some (printed, ⟨colors, q⟩) := by
      simp only [pageHandler, injectLoop, hholds.string_eq, hrefresh, hclear, injectRefresh,
        hprint, hholds'.string_eq, queueLabel_notInfix_refreshScript, if_true, if_false,
        Option.bind_eq_bind, Option.bind_some, Option.map_some]
    rw [if_pos hrefresh]
    exact ⟨fun _ => ⟨printed, hloop, hsize', hholds'⟩,
      fun hfits => absurd (fun hno => absurd hrefresh hno) hfits⟩
  · rw [if_neg hrefresh]
    by_cases hqueue : queueLabel <:+: s
    · have hloop : injectLoop pageHandler.injectionList dst ⟨colors, q⟩ =
          (liveroomQlistMakeText colors q cleared).map fun dst' => (dst', ⟨colors, q⟩) := by
        simp only [pageHandler, injectLoop, hholds.string_eq, hrefresh, hqueue, hclear,
          injectQueue, if_true, if_false, Option.bind_eq_bind, Option.bind_some]
        cases liveroomQlistMakeText colors q cleared with
        | none => rfl
        | some printed => rfl
      rw [if_pos hqueue, hloop]
      have hiff := exists_liveroomQlistMakeText_iff colors h hcleared hempty
      constructor
      · intro hfits
        obtain ⟨printed, htext⟩ := hiff.mpr (hfits hrefresh hqueue)
        obtain ⟨hsize', hholds', -⟩ := liveroomQlistMakeText_of_some h hcleared hempty htext
        exact ⟨printed, by rw [htext, Option.map_some], hsize', hholds'⟩
      · intro hfits
        rw [Option.map_eq_none_iff, Option.eq_none_iff_forall_ne_some]
        intro printed htext
        exact hfits fun _ _ => hiff.mp ⟨printed, htext⟩
    · have hloop : injectLoop pageHandler.injectionList dst ⟨colors, q⟩ =
          some (dst, ⟨colors, q⟩) := by
        simp only [pageHandler, injectLoop, hholds.string_eq, hrefresh, hqueue, if_false,
          Option.bind_eq_bind, Option.bind_some]
      rw [if_neg hqueue]
      exact ⟨fun _ => ⟨dst, hloop, hsize, hholds⟩,
        fun hfits => absurd (fun _ hno => absurd hno hqueue) hfits⟩

theorem sendLine_page (colors : ColorConfig) (h : Represents q seq)
    (hsize : data.length = dataSize) (hholds : Holds data s) (fd : Connection) :
    (Fits colors q s → ∃ data', sendLine pageHandler data fd ⟨colors, q⟩ =
        some (fd.succeeds fd.written.length, data', fd.after [sentText colors q s], ⟨colors, q⟩) ∧
          data'.length = dataSize ∧ Holds data' (sentText colors q s)) ∧
      (¬ Fits colors q s → sendLine pageHandler data fd ⟨colors, q⟩ = none) := by
  rw [sendLine, doHtmlInject_eq_injectLoop]
  constructor
  · intro hfits
    obtain ⟨data', hinject, hsize', hholds'⟩ := (injectLoop_page h hsize hholds).1 hfits
    refine ⟨data', ?_, hsize', hholds'⟩
    rw [hinject]
    simp [hholds'.string_eq, fdWrite]
  · intro hfits
    rw [(injectLoop_page h hsize hholds).2 hfits]
    rfl

/-! ## The turns on texts -/

/-- The texts with which the turns behind a `fgets` start. -/
def ahead (fp : FileStream) : List (Option (List UInt8)) := if fp.eof then [] else starts fp.rest

/-- The text with which a turn starts behind some others: what it has read, or what the
one before has left. -/
def turnText (blocks : List (List UInt8)) (start : Option (List UInt8)) : List UInt8 :=
  start.getD (blocks.getLastD [])

/-- What some turns send, each with its own queue. -/
def shown (colors : ColorConfig) (turns : List (Option (List UInt8) × BliveQlist)) :
    List (List UInt8) :=
  turns.foldl (fun blocks turn =>
    blocks ++ [sentText colors turn.2 (turnText blocks turn.1)]) []

theorem shown_concat (turns : List (Option (List UInt8) × BliveQlist))
    (start : Option (List UInt8)) (q : BliveQlist) :
    shown colors (turns ++ [(start, q)]) =
      shown colors turns ++ [sentText colors q (turnText (shown colors turns) start)] := by
  rw [shown, List.foldl_append]
  rfl

theorem length_shown (turns : List (Option (List UInt8) × BliveQlist)) :
    (shown colors turns).length = turns.length := by
  induction turns using List.reverseRecOn with
  | nil => rfl
  | append_singleton turns turn ih =>
      obtain ⟨start, q⟩ := turn
      rw [shown_concat, List.length_append, ih, List.length_append]
      rfl

theorem exists_fgets_starts (hsize : data.length = dataSize) (h : Holds data s)
    (rest : List UInt8) (eof : Bool) :
    ∃ data' fp start, fgets data ⟨rest, eof⟩ = some (data', fp) ∧
      starts rest = start :: ahead fp ∧ data'.length = dataSize ∧ Holds data' (start.getD s) := by
  by_cases hne : rest = []
  · rw [hne]
    exact ⟨data, ⟨[], true⟩, none, fgets_end hsize, starts_nil, hsize, h⟩
  · obtain ⟨data', hread, hsize', hholds⟩ := exists_fgets hsize hne eof
    exact ⟨data', _, _, hread, starts_eq_cons hne, hsize', hholds⟩

/-- A queue more for the next turn. -/
theorem zip_concat {α β : Type} {starts next : List α} {start : α} {queues : List β} {q : β}
    (h : starts.drop queues.length = start :: next) :
    starts.zip (queues ++ [q]) = starts.zip queues ++ [(start, q)] := by
  induction queues generalizing starts with
  | nil =>
      obtain rfl : starts = start :: next := h
      simp
  | cons q' queues ih =>
      cases starts with
      | nil => cases h
      | cons start' starts =>
          rw [List.length_cons, List.drop_succ_cons] at h
          rw [List.cons_append, List.zip_cons_cons, ih h]
          rfl

/-- A connection with the turns that had some queues on it: all writes but the last one
have succeeded. -/
structure Wrote (colors : ColorConfig) (succeeds : ℕ → Bool) (used : HttpFile)
    (template : List UInt8) (queues : List BliveQlist) (fd : Connection) : Prop where
  connection : fd.succeeds = succeeds
  written : fd.written = headerBlocks used ++ shown colors ((starts template).zip queues)
  past : ∀ n, n + 1 < fd.written.length → succeeds n = true

/-- A response behind the turns that had some queues, with the text for the next one. -/
structure Sending (colors : ColorConfig) (succeeds : ℕ → Bool) (used : HttpFile)
    (template : List UInt8) (queues : List BliveQlist) (r : Response) : Prop where
  wrote : Wrote colors succeeds used template queues r.fd
  last : succeeds (r.fd.written.length - 1) = true
  size : r.data.length = dataSize
  turn : ∃ start, (starts template).drop queues.length = start :: ahead r.fp ∧
    Holds r.data (turnText (shown colors ((starts template).zip queues)) start)

/-- A response that has ended behind the turns that had some queues. Only its last write
can have failed, and unless it has, all turns were made. -/
structure Ended (colors : ColorConfig) (succeeds : ℕ → Bool) (used : HttpFile)
    (template : List UInt8) (queues : List BliveQlist) (closed : Closed) : Prop where
  written : closed.written = headerBlocks used ++ shown colors ((starts template).zip queues)
  turns : queues.length ≤ (starts template).length
  past : ∀ n, n + 1 < closed.written.length → succeeds n = true
  code : closed.code = if succeeds (closed.written.length - 1) then .ok else .terminate
  complete : closed.code = .ok → queues.length = (starts template).length

/-- What holds behind the turns that had some queues, whether the response goes on or not. -/
def Outcome (colors : ColorConfig) (succeeds : ℕ → Bool) (used : HttpFile)
    (template : List UInt8) (queues : List BliveQlist) : Except Closed Response → Prop
  | .ok r => Sending colors succeeds used template queues r
  | .error closed => Ended colors succeeds used template queues closed

theorem Sending.past (h : Sending colors succeeds used template queues r) {n : ℕ}
    (hn : n < r.fd.written.length) : succeeds n = true := by
  rcases Nat.lt_or_ge (n + 1) r.fd.written.length with hlt | hge
  · exact h.wrote.past n hlt
  · have heq : n = r.fd.written.length - 1 := by omega
    exact heq ▸ h.last

theorem length_after (fd : Connection) (block : List UInt8) :
    (fd.after [block]).written.length = fd.written.length + 1 := List.length_append

/-- One more turn is written. -/
theorem Sending.wrote_after (h : Sending colors succeeds used template queues r)
    {start : Option (List UInt8)} {next : List (Option (List UInt8))}
    (hdrop : (starts template).drop queues.length = start :: next) (q : BliveQlist) :
    Wrote colors succeeds used template (queues ++ [q]) (r.fd.after [sentText colors q
      (turnText (shown colors ((starts template).zip queues)) start)]) where
  connection := h.wrote.connection
  written := by
    rw [zip_concat hdrop, shown_concat, ← List.append_assoc, ← h.wrote.written]
    rfl
  past n hn := by
    rw [length_after] at hn
    exact h.past (Nat.lt_of_succ_lt_succ hn)

/-- The response ends with the turn that was written last. -/
theorem Wrote.ended (h : Wrote colors succeeds used template queues fd)
    (hturns : queues.length ≤ (starts template).length)
    (hcomplete : succeeds (fd.written.length - 1) = true →
      queues.length = (starts template).length) :
    Ended colors succeeds used template queues
      ⟨if succeeds (fd.written.length - 1) then .ok else .terminate, fd.written⟩ where
  written := h.written
  turns := hturns
  past := h.past
  code := rfl
  complete := by
    intro hcode
    apply hcomplete
    by_cases hlast : succeeds (fd.written.length - 1) = true
    · exact hlast
    · rw [if_neg hlast] at hcode
      cases hcode

theorem Sending.length_lt (h : Sending colors succeeds used template queues r) :
    queues.length < (starts template).length := by
  obtain ⟨start, hdrop, -⟩ := h.turn
  have hlength := congrArg List.length hdrop
  rw [List.length_drop, List.length_cons] at hlength
  omega

/-- A turn sends one text with the queue of its moment, and either ends the response or
reads the text for the next turn. It comes to its end unless the rows do not fit. -/
theorem Sending.next (h : Sending colors succeeds used template queues r)
    (hq : Represents q seq) (htext : Holds r.data s) :
    (Fits colors q s → ∃ result, r.next pageHandler ⟨colors, q⟩ = some (result, ⟨colors, q⟩) ∧
        Outcome colors succeeds used template (queues ++ [q]) result) ∧
      (¬ Fits colors q s → r.next pageHandler ⟨colors, q⟩ = none) := by
  obtain ⟨start, hdrop, hholds⟩ := h.turn
  obtain rfl : s = turnText (shown colors ((starts template).zip queues)) start :=
    htext.text_eq.symm.trans hholds.text_eq
  have hline := sendLine_page colors hq h.size hholds r.fd
  rw [Response.next]
  refine ⟨fun hfits => ?_, fun hfits => by rw [hline.2 hfits]; rfl⟩
  obtain ⟨data', hsend, hsize', hholds'⟩ := hline.1 hfits
  rw [hsend, h.wrote.connection]
  have hwrote := h.wrote_after hdrop q
  have hturns : (queues ++ [q]).length ≤ (starts template).length := by
    rw [List.length_append]
    exact h.length_lt
  have hdrop' : (starts template).drop (queues ++ [q]).length = ahead r.fp := by
    rw [List.length_append, List.length_singleton, ← List.drop_drop, hdrop]
    rfl
  have hblock : (shown colors ((starts template).zip (queues ++ [q]))).getLastD [] =
      sentText colors q (turnText (shown colors ((starts template).zip queues)) start) := by
    rw [zip_concat hdrop, shown_concat, List.getLastD_concat]
  generalize sentText colors q (turnText (shown colors ((starts template).zip queues)) start) =
    block at *
  have hlast : succeeds r.fd.written.length =
      succeeds ((r.fd.after [block]).written.length - 1) := by
    rw [length_after, Nat.add_sub_cancel]
  simp only [Option.bind_eq_bind, Option.bind_some]
  by_cases heof : r.fp.eof = true
  · rw [if_pos heof]
    refine ⟨_, rfl, ?_⟩
    have hcomplete : (queues ++ [q]).length = (starts template).length := by
      rw [ahead, if_pos heof, List.drop_eq_nil_iff] at hdrop'
      exact hturns.antisymm hdrop'
    rw [hlast]
    exact hwrote.ended hturns fun _ => hcomplete
  · rw [if_neg heof]
    cases hsuccess : succeeds r.fd.written.length with
    | true =>
        obtain ⟨data'', fp', start', hread, hstarts, hsize'', hholds''⟩ :=
          exists_fgets_starts hsize' hholds' r.fp.rest r.fp.eof
        rw [if_pos rfl, hread]
        refine ⟨_, rfl, hwrote, hlast.symm.trans hsuccess, hsize'', start', ?_, ?_⟩
        · rw [hdrop', ahead, if_neg heof, hstarts]
        · rw [turnText, hblock]
          exact hholds''
    | false =>
        rw [if_neg Bool.false_ne_true]
        refine ⟨_, rfl, ?_⟩
        rw [hsuccess] at hlast
        have hended := hwrote.ended hturns (fun hsucceeds => by
          rw [← hlast] at hsucceeds
          cases hsucceeds)
        rw [← hlast] at hended
        exact hended

/-- A turn that has come to its end. -/
theorem Sending.next_of_some (h : Sending colors succeeds used template queues r)
    (hq : Represents q seq) {result : Except Closed Response} {entity : QueueEntity}
    (hnext : r.next pageHandler ⟨colors, q⟩ = some (result, entity)) :
    entity = ⟨colors, q⟩ ∧ Outcome colors succeeds used template (queues ++ [q]) result := by
  obtain ⟨start, -, hholds⟩ := h.turn
  have hturn := h.next hq hholds
  by_cases hfits : Fits colors q (turnText (shown colors ((starts template).zip queues)) start)
  · obtain ⟨result', hnext', houtcome⟩ := hturn.1 hfits
    obtain ⟨rfl, rfl⟩ := Prod.mk.inj (Option.some.inj (hnext.symm.trans hnext'))
    exact ⟨rfl, houtcome⟩
  · rw [hturn.2 hfits] at hnext
    cases hnext

theorem writeAll_of_true {blocks : List (List UInt8)} {fd' : Connection}
    (h : writeAll blocks fd = (true, fd')) :
    fd' = fd.after blocks ∧
      ∀ n < blocks.length, fd.succeeds (fd.written.length + n) = true := by
  induction blocks generalizing fd with
  | nil =>
      obtain ⟨-, rfl⟩ := Prod.mk.inj h
      simp [Connection.after]
  | cons block blocks ih =>
      rw [writeAll] at h
      split at h
      next hfirst =>
        obtain ⟨rfl, hrest⟩ := ih h
        refine ⟨after_after fd [block] blocks, ?_⟩
        intro n hn
        cases n with
        | zero => exact hfirst
        | succ n =>
            have hnext := hrest n (Nat.lt_of_succ_lt_succ hn)
            have hcount : (fd.after [block]).written.length + n =
                fd.written.length + (n + 1) := by
              rw [length_after]
              omega
            rw [← hcount]
            exact hnext
      next => cases h

/-- A response behind its header. -/
theorem sending_of_startResponse
    (h : startResponse files ⟨[], succeeds⟩ file = some (.ok r)) :
    ∃ used template, openFile files file = some (used, template) ∧
      Sending colors succeeds used template [] r := by
  obtain ⟨⟨used, template⟩, hopen, hstart⟩ := Option.bind_eq_some_iff.mp h
  refine ⟨used, template, hopen, ?_⟩
  cases hheader : writeAll (headerBlocks used) ⟨[], succeeds⟩ with
  | mk success fd =>
    cases success with
    | false =>
        simp only [hheader] at hstart
        cases hstart
    | true =>
        obtain ⟨rfl, hsucceeds⟩ := writeAll_of_true hheader
        obtain ⟨data, fp, start, hread, hstarts, hsize, hholds⟩ :=
          exists_fgets_starts (List.length_replicate) holds_zeros template false
        simp only [hheader, hread] at hstart
        obtain rfl := Except.ok.inj (Option.some.inj hstart)
        have hpast : ∀ n < (headerBlocks used).length, succeeds n = true := by
          intro n hn
          have hn' := hsucceeds n hn
          rwa [List.length_nil, Nat.zero_add] at hn'
        have hnone : (starts template).zip ([] : List BliveQlist) = [] := List.zip_nil_right
        refine ⟨⟨rfl, ?_, ?_⟩, ?_, hsize, start, hstarts, ?_⟩
        · rw [hnone]
          exact (List.append_nil _).symm
        · intro n hn
          exact hpast n (Nat.lt_of_succ_lt hn)
        · exact hpast _ (Nat.sub_one_lt (Nat.succ_ne_zero 3))
        · rw [hnone]
          exact hholds

/-- While the header can be written, every file that is there is started. -/
theorem exists_startResponse {used : HttpFile} (hopen : openFile files file = some (used, template))
    (hheader : ∀ n < (headerBlocks used).length, succeeds n = true) :
    ∃ r, startResponse files ⟨[], succeeds⟩ file = some (.ok r) := by
  have hwrite : writeAll (headerBlocks used) ⟨[], succeeds⟩ =
      (true, (⟨[], succeeds⟩ : Connection).after (headerBlocks used)) := by
    apply Httpd.writeAll_eq
    intro n hn
    rw [List.length_nil, Nat.zero_add]
    exact hheader n hn
  obtain ⟨data, fp, start, hread, -⟩ :=
    exists_fgets_starts List.length_replicate holds_zeros template false
  refine ⟨⟨(⟨[], succeeds⟩ : Connection).after (headerBlocks used), data, fp⟩, ?_⟩
  rw [startResponse, hopen]
  simp only [Option.bind_eq_bind, Option.bind_some, hwrite, if_true, hread]

/-! ## The turns together -/

/-- The rest of a response while nobody else takes a step. -/
def finish (handler : HttpdHandler σ) : ℕ → Except Closed Response → σ → Option (Closed × σ)
  | _, .error closed, context => some (closed, context)
  | 0, .ok _, _ => none
  | fuel + 1, .ok response, context => do
    let (response, context) ← response.next handler context
    finish handler fuel response context

/-- The callbacks print into the array that they are given, whose size stays. -/
def KeepsSize (handler : HttpdHandler σ) : Prop :=
  ∀ unit ∈ handler.injectionList, ∀ dst context printed,
    unit.callback dst context = some printed → printed.1.length = dst.length

variable {fuel : ℕ} {context context' : σ} {code : BliveErrno} {fd' : Connection}

theorem finish_error (turns : ℕ) :
    finish handler turns (.error closed) context = some (closed, context) := by
  cases turns <;> rfl

theorem finish_of_bodyLoop
    (h : bodyLoop handler fuel data fp fd context = some (code, fd', context')) :
    finish handler (fuel + 1) (.ok ⟨fd, data, fp⟩) context =
      some (⟨code, fd'.written⟩, context') := by
  induction fuel generalizing data fp fd context with
  | zero =>
      rw [bodyLoop] at h
      split at h
      next heof =>
        obtain ⟨⟨success, data', fd₁, context₁⟩, hsend, hend⟩ := Option.bind_eq_some_iff.mp h
        obtain ⟨rfl, rfl, rfl⟩ := by simpa using hend
        simp [finish, Response.next, hsend, heof]
      next => cases h
  | succ fuel ih =>
      rw [bodyLoop] at h
      rw [finish, Response.next]
      split at h
      next heof =>
        obtain ⟨⟨success, data', fd₁, context₁⟩, hsend, hend⟩ := Option.bind_eq_some_iff.mp h
        obtain ⟨rfl, rfl, rfl⟩ := by simpa using hend
        simp [finish, hsend, heof]
      next heof =>
        obtain ⟨⟨success, data', fd₁, context₁⟩, hsend, hend⟩ := Option.bind_eq_some_iff.mp h
        simp only [hsend, heof, Option.bind_eq_bind, Option.bind_some]
        cases success with
        | true =>
            obtain ⟨⟨data'', fp'⟩, hread, hloop⟩ := Option.bind_eq_some_iff.mp hend
            simpa [hread] using ih hloop
        | false =>
            obtain ⟨rfl, rfl, rfl⟩ := by simpa using hend
            simp [finish]

theorem length_injectLoop {units : List (HttpInjectUnit σ)}
    (hkeeps : ∀ unit ∈ units, ∀ dst context printed,
      unit.callback dst context = some printed → printed.1.length = dst.length)
    (h : injectLoop units dst context = some (dst', context')) : dst'.length = dst.length := by
  induction units generalizing dst context with
  | nil =>
      obtain ⟨rfl, -⟩ := Prod.mk.inj (Option.some.inj h)
      rfl
  | cons unit units ih =>
      rw [List.forall_mem_cons] at hkeeps
      obtain ⟨s, -, h⟩ := Option.bind_eq_some_iff.mp h
      split at h
      · obtain ⟨cleared, hclear, h⟩ := Option.bind_eq_some_iff.mp h
        obtain ⟨⟨printed, context₁⟩, hprinted, h⟩ := Option.bind_eq_some_iff.mp h
        have hcallback : printed.length = cleared.length := hkeeps.1 _ _ _ hprinted
        exact (ih hkeeps.2 h).trans (hcallback.trans (length_store hclear))
      · exact ih hkeeps.2 h

/-- Sending a line does not change the size of the array. -/
theorem KeepsSize.length_sendLine (hkeeps : KeepsSize handler) {success : Bool}
    (h : sendLine handler data fd context = some (success, dst', fd', context')) :
    dst'.length = data.length := by
  rw [sendLine, doHtmlInject_eq_injectLoop] at h
  obtain ⟨⟨injected, context₁⟩, hinject, h⟩ := Option.bind_eq_some_iff.mp h
  obtain ⟨text, -, h⟩ := Option.bind_eq_some_iff.mp h
  obtain ⟨-, rfl, -⟩ := by simpa using h
  exact length_injectLoop hkeeps hinject

/-- Every `fgets` meets the end of the file or takes a byte at least. -/
theorem fgets_takes {fp' : FileStream} (hsize : data.length = dataSize)
    (h : fgets data fp = some (dst', fp')) :
    dst'.length = dataSize ∧ (fp'.eof = false → fp'.rest.length < fp.rest.length) := by
  obtain ⟨rest, eof⟩ := fp
  by_cases hne : rest = []
  · rw [hne, fgets_end hsize] at h
    obtain ⟨rfl, rfl⟩ := Prod.mk.inj (Option.some.inj h)
    exact ⟨hsize, fun heof => by cases heof⟩
  · obtain ⟨data', hread, hsize', -⟩ := exists_fgets hsize hne eof
    obtain ⟨rfl, rfl⟩ := Prod.mk.inj (Option.some.inj (hread.symm.trans h))
    exact ⟨hsize', fun _ => length_rest_takeLine (by decide) hne⟩

/-- As many turns as there are bytes left are enough for the loop. -/
theorem bodyLoop_of_finish (hkeeps : KeepsSize handler) {turns : ℕ}
    (hsize : data.length = dataSize) (hfuel : fp.eof = false → fp.rest.length < fuel)
    (h : finish handler turns (.ok ⟨fd, data, fp⟩) context = some (closed, context')) :
    ∃ fd', bodyLoop handler fuel data fp fd context = some (closed.code, fd', context') ∧
      fd'.written = closed.written := by
  induction turns generalizing fuel data fp fd context with
  | zero => cases h
  | succ turns ih =>
      obtain ⟨⟨result, context₁⟩, hnext, h⟩ := Option.bind_eq_some_iff.mp h
      obtain ⟨⟨success, data', fd₁, context₂⟩, hsend, hnext⟩ := Option.bind_eq_some_iff.mp hnext
      unfold bodyLoop
      cases heof : fp.eof with
      | true =>
          simp only [heof, if_true] at hnext
          obtain ⟨rfl, rfl⟩ := Prod.mk.inj (Option.some.inj hnext)
          obtain ⟨rfl, rfl⟩ := Prod.mk.inj (Option.some.inj ((finish_error turns).symm.trans h))
          exact ⟨fd₁, by simp [hsend], rfl⟩
      | false =>
          simp only [heof, Bool.false_eq_true, if_false] at hnext ⊢
          have hleft := hfuel heof
          obtain ⟨fuel, rfl⟩ := Nat.exists_eq_succ_of_ne_zero (Nat.ne_zero_of_lt hleft)
          cases success with
          | false =>
              obtain ⟨rfl, rfl⟩ := Prod.mk.inj (Option.some.inj hnext)
              obtain ⟨rfl, rfl⟩ := Prod.mk.inj (Option.some.inj ((finish_error turns).symm.trans h))
              exact ⟨fd₁, by simp [hsend], rfl⟩
          | true =>
              obtain ⟨⟨data'', fp'⟩, hread, hnext⟩ := Option.bind_eq_some_iff.mp hnext
              obtain ⟨rfl, rfl⟩ := Prod.mk.inj (Option.some.inj hnext)
              obtain ⟨hsize', htakes⟩ := fgets_takes
                ((hkeeps.length_sendLine hsend).trans hsize) hread
              have hfuel' : fp'.eof = false → fp'.rest.length < fuel := by
                intro heof'
                have htaken := htakes heof'
                omega
              obtain ⟨fd', hloop, hwritten⟩ := ih hsize' hfuel' h
              exact ⟨fd', by simp [hsend, hread, hloop], hwritten⟩

/-- Without other threads the steps of a response are `http_sendfile`: it returns exactly if
they come to an end, with the same code and the same bytes. -/
theorem httpSendfile_iff_finish (hkeeps : KeepsSize handler) :
    (∃ fd', httpSendfile files fd file handler context = some (closed.code, fd', context') ∧
        fd'.written = closed.written) ↔
      ∃ start turns, startResponse files fd file = some start ∧
        finish handler turns start context = some (closed, context') := by
  constructor
  · intro hreturns
    obtain ⟨fd', h, hwritten⟩ := hreturns
    obtain ⟨code, written⟩ := closed
    obtain rfl : fd'.written = written := hwritten
    obtain ⟨⟨used, contents⟩, hopen, hheader⟩ := Option.bind_eq_some_iff.mp h
    rw [startResponse, hopen]
    simp only [Option.bind_eq_bind, Option.bind_some] at hheader ⊢
    split at hheader
    next hsuccess =>
      obtain ⟨⟨data, fp⟩, hread, hloop⟩ := Option.bind_eq_some_iff.mp hheader
      rw [if_pos hsuccess, hread]
      exact ⟨_, _, rfl, finish_of_bodyLoop hloop⟩
    next hfailed =>
      obtain ⟨rfl, rfl, rfl⟩ := by simpa using hheader
      rw [if_neg hfailed]
      exact ⟨_, 0, rfl, rfl⟩
  · intro hends
    obtain ⟨start, turns, hstart, hfinish⟩ := hends
    obtain ⟨⟨used, contents⟩, hopen, hstart⟩ := Option.bind_eq_some_iff.mp hstart
    rw [httpSendfile, hopen]
    simp only [Option.bind_eq_bind, Option.bind_some] at hstart ⊢
    split at hstart
    next hsuccess =>
      obtain ⟨⟨data, fp⟩, hread, hstart⟩ := Option.bind_eq_some_iff.mp hstart
      obtain rfl := Option.some.inj hstart
      obtain ⟨hsize, htakes⟩ := fgets_takes List.length_replicate hread
      rw [if_pos hsuccess, hread]
      exact bodyLoop_of_finish hkeeps hsize htakes hfinish
    next hfailed =>
      obtain rfl := Option.some.inj hstart
      obtain ⟨rfl, rfl⟩ := Prod.mk.inj (Option.some.inj ((finish_error turns).symm.trans hfinish))
      rw [if_neg hfailed]
      exact ⟨_, rfl, rfl⟩

/-- While the queue can be printed, the turns that are left bring a response to its end. -/
theorem Sending.exists_finish (h : Sending colors succeeds used template queues r)
    (hq : Represents q seq) (hprintable : Printable colors (pairsOf q)) :
    ∃ n turns closed, finish pageHandler turns (.ok r) ⟨colors, q⟩ = some (closed, ⟨colors, q⟩) ∧
      Ended colors succeeds used template (queues ++ List.replicate n q) closed := by
  -- the turns that are left become fewer
  induction hleft : (starts template).length - queues.length generalizing r queues with
  | zero =>
      have hlt := h.length_lt
      omega
  | succ left ih =>
      obtain ⟨start, -, hholds⟩ := h.turn
      obtain ⟨result, hnext, houtcome⟩ := (h.next hq hholds).1 fun _ _ => hprintable
      cases result with
      | error closed =>
          refine ⟨1, 1, closed, ?_, houtcome⟩
          rw [finish, hnext]
          rfl
      | ok r' =>
          have hfewer : (starts template).length - (queues ++ [q]).length = left := by
            rw [List.length_append, List.length_singleton]
            omega
          obtain ⟨n, turns, closed, hfinish, hended⟩ := ih houtcome hfewer
          refine ⟨n + 1, turns + 1, closed, ?_, ?_⟩
          · rw [finish, hnext]
            exact hfinish
          · rwa [List.append_assoc] at hended

theorem length_refreshHtml {context : Bool} (h : refreshHtml context dst = some dst') :
    dst'.length = dst.length := by
  cases context with
  | true => exact congrArg List.length (Option.some.inj h).symm
  | false =>
      obtain ⟨written, -, hstore⟩ := Option.bind_eq_some_iff.mp h
      exact length_store hstore

/-- Every row goes into the array that the rows before it have left. -/
theorem length_liveroomQlistMakeText (h : liveroomQlistMakeText colors q dst = some dst') :
    dst'.length = dst.length := by
  obtain ⟨⟨code, left⟩, hforeach, hleft⟩ := Option.bind_eq_some_iff.mp h
  have hkeeps : ∀ a d left, (∀ b ∈ left, b.length = dst.length) →
      ∀ b ∈ (qlistForeachMakeText colors a d left).2, b.length = dst.length := by
    intro a d left hlength b hb
    obtain ⟨b₀, hb₀, hb⟩ := Option.bind_eq_some_iff.mp hb
    obtain ⟨written, -, hb⟩ := Option.bind_eq_some_iff.mp hb
    obtain ⟨text, -, hstore⟩ := Option.bind_eq_some_iff.mp hb
    exact (length_store hstore).trans (hlength b₀ hb₀)
  have hstart : ∀ b ∈ some dst, b.length = dst.length := by simp
  exact qlistForeach_keeps hkeeps hforeach hstart dst' hleft

theorem pageHandler_keepsSize : KeepsSize pageHandler := by
  intro unit hunit dst context printed hprinted
  simp only [pageHandler, List.mem_cons, List.not_mem_nil, or_false] at hunit
  rcases hunit with rfl | rfl
  · obtain ⟨dst', hrefresh, rfl⟩ := Option.map_eq_some_iff.mp hprinted
    exact length_refreshHtml hrefresh
  · obtain ⟨dst', htext, rfl⟩ := Option.map_eq_some_iff.mp hprinted
    exact length_liveroomQlistMakeText htext

/-- A template with one label. -/
def oneLabel (_ : HttpFile) : Option (List UInt8) :=
  some (literal "<HTML>\n<__queuelist_injection__>\n</HTML>")

theorem starts_oneLabel : starts (literal "<HTML>\n<__queuelist_injection__>\n</HTML>") =
    [some (literal "<HTML>\n"), some (literal "<__queuelist_injection__>\n"),
      some (literal "</HTML>")] := by
  decide +kernel

theorem length_headerBlocks (file : HttpFile) : (headerBlocks file).length = 4 := rfl

/-- Two users wait, and the write of their rows fails: `http_sendfile` stops behind it. -/
theorem httpSendfile_iff_finish_of_failing_write :
    ∃ q fd', pairsOf q = anchoragesWith longNamed 2 ∧
      httpSendfile oneLabel ⟨[], fun n => n ≠ 5⟩ .home pageHandler ⟨shippedColours, q⟩ =
        some (.terminate, fd', ⟨shippedColours, q⟩) ∧
      fd'.written = headerBlocks .home ++
        [literal "<HTML>\n", rows shippedColours (anchoragesWith longNamed 2)] := by
  obtain ⟨history, q, seq, -, hq, -, htraversal⟩ := exists_longNamed (n := 2) (by decide)
  have hpairs : pairsOf q = anchoragesWith longNamed 2 := by
    rw [pairsOf, htraversal]
    rfl
  have hprintable : Printable shippedColours (pairsOf q) := by
    rw [hpairs]
    refine ⟨fun p _ => shippedColours_terminated.colorStr p.2, ?_, ?_⟩
    · intro p hp
      obtain ⟨i, -, rfl⟩ := List.mem_map.mp hp
      exact longNamed_terminated
    · rw [length_rows, sum_rowLength_longNamed]
      decide
  have hheader : ∀ n < (headerBlocks .home).length, decide (n ≠ 5) = true := by
    rw [length_headerBlocks]
    decide
  obtain ⟨r, hstart⟩ := exists_startResponse
    (rfl : openFile oneLabel .home = some (.home, _)) hheader
  obtain ⟨used, template, hopen, hsending⟩ := sending_of_startResponse hstart
  obtain ⟨rfl, rfl⟩ := Prod.mk.inj (Option.some.inj hopen)
  obtain ⟨n, turns, closed, hfinish, hended⟩ := hsending.exists_finish hq hprintable
  rw [List.nil_append] at hended
  have hturns : n ≤ 3 := by
    have hle := hended.turns
    rwa [starts_oneLabel, List.length_replicate] at hle
  have hlength : closed.written.length = 4 + n := by
    rw [hended.written, List.length_append, length_headerBlocks, length_shown, List.length_zip,
      starts_oneLabel, List.length_replicate]
    exact congrArg (4 + ·) (min_eq_right hturns)
  -- the second line is the last one, since its write fails
  obtain rfl : n = 2 := by
    rcases Nat.lt_or_ge 2 n with hmore | hle
    · have hfifth := hended.past 5 (by omega)
      exact absurd hfifth (by decide)
    · by_contra hne
      have hlast : decide (closed.written.length - 1 ≠ 5) = true := decide_eq_true (by omega)
      have hall : (List.replicate n q).length = 3 := by
        rw [hended.complete (hended.code.trans (if_pos hlast)), starts_oneLabel]
        rfl
      rw [List.length_replicate] at hall
      omega
  have hcode : closed.code = .terminate := by
    rw [hended.code, hlength]
    rfl
  have hqueue : sentText shippedColours q (literal "<__queuelist_injection__>\n") =
      rows shippedColours (pairsOf q) := by
    rw [sentText, if_neg (by decide +kernel), if_pos (by decide +kernel)]
  have hplain : sentText shippedColours q (literal "<HTML>\n") = literal "<HTML>\n" := by
    rw [sentText, if_neg (by decide +kernel), if_neg (by decide +kernel)]
  have hwritten : closed.written = headerBlocks .home ++
      [literal "<HTML>\n", rows shippedColours (anchoragesWith longNamed 2)] := by
    rw [hended.written, starts_oneLabel, ← hpairs, ← hqueue]
    simp only [List.replicate, List.zip_cons_cons, List.zip_nil_right, shown, List.foldl_cons,
      List.foldl_nil, turnText, Option.getD_some, hplain, List.nil_append, List.cons_append]
  obtain ⟨fd', hreturns, hsent⟩ :=
    (httpSendfile_iff_finish pageHandler_keepsSize).mpr ⟨_, turns, hstart, hfinish⟩
  rw [hcode] at hreturns
  exact ⟨q, fd', hpairs, hreturns, hsent.trans hwritten⟩

end BliveQueue.Server
