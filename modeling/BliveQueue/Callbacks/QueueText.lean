/-
# The text of the queue

A row is 31 bytes of markup, a colour and a nickname. The callback appends one row
after the other, so the text is the rows of the queued users in order; it stays inside
the buffer of the http server exactly while these lengths add up to less than its size.
Nothing bounds the number of queued users, and 297 of them with the longest colour and
the longest nickname are too many.
-/

import BliveQueue.Callbacks
import BliveQueue.QList.Capacity
import BliveQueue.Utils.Httpd

namespace BliveQueue.Callbacks

open BliveQueue.Config BliveQueue.Math BliveQueue.Math.CharBuffer
open BliveQueue.Utils BliveQueue.Utils.QList BliveQueue.QList

variable {conf : ColorConfig} {data : QlistUnitData} {q : BliveQlist} {pairs : List Pair}
  {dst : Buffer} {s : List UInt8}

/-- Every colour is a string inside its array, so of at most 7 bytes. -/
structure ColoursTerminated (conf : ColorConfig) : Prop where
  capt : 0 ∈ conf.captColor.toList
  fans : 0 ∈ conf.fansColor.toList
  others : 0 ∈ conf.othersColor.toList

/-- The nickname is a string inside its array, so of at most 31 bytes. -/
def NameTerminated (data : QlistUnitData) : Prop := 0 ∈ data.danmuSenderName.toList

/-- Every nickname that is handed to the queue is a string. -/
def NamesTerminated (_ : BliveQlist) (label : QlistCall × QlistRet) : Prop :=
  ∀ a d mem, label.1 = .appendUpdate a d mem → NameTerminated d

/-- The row of a user. -/
def row (conf : ColorConfig) (data : QlistUnitData) : List UInt8 :=
  literal "<p><font color=\"" ++ text (colorStr conf data).toList ++ literal "\">" ++
    text data.danmuSenderName.toList ++ literal "</font></p>\r\n"

/-- The markup of a row, its colour and its nickname. -/
def rowLength (conf : ColorConfig) (data : QlistUnitData) : ℕ :=
  31 + (text (colorStr conf data).toList).length + (text data.danmuSenderName.toList).length

/-- The rows of a queue. -/
def rows (conf : ColorConfig) (pairs : List Pair) : List UInt8 :=
  pairs.flatMap fun p => row conf p.2

theorem length_row (conf : ColorConfig) (data : QlistUnitData) :
    (row conf data).length = rowLength conf data := by
  have hopen : (literal "<p><font color=\"").length = 16 := by decide
  have hmiddle : (literal "\">").length = 2 := by decide
  have hclose : (literal "</font></p>\r\n").length = 13 := by decide
  simp only [row, rowLength, List.length_append, hopen, hmiddle, hclose]
  omega

theorem length_rows (conf : ColorConfig) (pairs : List Pair) :
    (rows conf pairs).length = (pairs.map fun p => rowLength conf p.2).sum := by
  rw [rows, List.length_flatMap]
  simp only [length_row]

theorem length_rows_cons (conf : ColorConfig) (p : Pair) (pairs : List Pair) :
    (rows conf (p :: pairs)).length = rowLength conf p.2 + (rows conf pairs).length := by
  rw [length_rows, length_rows, List.map_cons, List.sum_cons]

theorem zero_notMem_row (conf : ColorConfig) (data : QlistUnitData) : 0 ∉ row conf data := by
  have hopen : 0 ∉ literal "<p><font color=\"" := by decide
  have hmiddle : 0 ∉ literal "\">" := by decide
  have hclose : 0 ∉ literal "</font></p>\r\n" := by decide
  simp only [row, List.mem_append, not_or]
  exact ⟨⟨⟨⟨hopen, zero_notMem_text _⟩, hmiddle⟩, zero_notMem_text _⟩, hclose⟩

theorem ColoursTerminated.colorStr (h : ColoursTerminated conf) (data : QlistUnitData) :
    0 ∈ (colorStr conf data).toList := by
  unfold Callbacks.colorStr
  split
  · exact h.capt
  · split
    · exact h.fans
    · exact h.others

theorem rowText_eq (hcolour : 0 ∈ (colorStr conf data).toList) (hname : NameTerminated data) :
    rowText conf data = some (row conf data) := by
  rw [rowText, (holds_of_mem hcolour).string_eq, (holds_of_mem hname).string_eq]
  rfl

theorem rowText_eq_none (hcolour : 0 ∉ (colorStr conf data).toList) : rowText conf data = none := by
  rw [rowText, string, if_neg hcolour]
  rfl

/-! ## The callback -/

/-- A row that still fits is appended. -/
theorem qlistForeachMakeText_fits (hcolour : 0 ∈ (colorStr conf data).toList)
    (hname : NameTerminated data) (h : Holds dst s)
    (hfits : s.length + rowLength conf data < dst.length) (a : UInt32) :
    ∃ dst', qlistForeachMakeText conf a data (some dst) = (true, some dst') ∧
      dst'.length = dst.length ∧ Holds dst' (s ++ row conf data) := by
  have hroom : s.length + (row conf data).length + 1 ≤ dst.length := by
    rw [length_row]
    exact hfits
  obtain ⟨dst', hstore, hholds⟩ := h.store (zero_notMem_row conf data) hroom
  refine ⟨dst', ?_, length_store hstore, hholds⟩
  simp [qlistForeachMakeText, h.string_eq, rowText_eq hcolour hname, hstore]

/-- A row that does not fit is written beyond the buffer. -/
theorem qlistForeachMakeText_overflow (hconf : ColoursTerminated conf)
    (hname : NameTerminated data) (h : Holds dst s)
    (hover : dst.length ≤ s.length + rowLength conf data) (a : UInt32) :
    qlistForeachMakeText conf a data (some dst) = (true, none) := by
  have hstore : store dst s.length (row conf data ++ [0]) = none := by
    apply store_eq_none
    rw [List.length_append, length_row, List.length_singleton]
    omega
  simp [qlistForeachMakeText, h.string_eq, rowText_eq (hconf.colorStr data) hname, hstore]

/-- A buffer that was left is not entered again. -/
theorem feed_makeText_none (pairs : List Pair) :
    feed (qlistForeachMakeText conf) pairs none = (.ok, none) := by
  induction pairs with
  | nil => rfl
  | cons p pairs ih => simpa [feed, qlistForeachMakeText] using ih

/-- A colour that is not terminated in its array is read beyond it. -/
theorem feed_makeText_unterminated {p : Pair} (hp : p ∈ pairs)
    (hcolour : 0 ∉ (colorStr conf p.2).toList) (context : Option Buffer) :
    (feed (qlistForeachMakeText conf) pairs context).2 = none := by
  induction pairs generalizing context with
  | nil => cases hp
  | cons first pairs ih =>
      rcases List.mem_cons.mp hp with rfl | hp
      · have hrow : qlistForeachMakeText conf p.1 p.2 context = (true, none) := by
          cases context <;> simp [qlistForeachMakeText, rowText_eq_none hcolour]
        rw [feed, hrow]
        exact congrArg Prod.snd (feed_makeText_none pairs)
      · exact ih hp _

/-- The whole traversal: all rows are appended if there is room for them. -/
theorem feed_makeText_fits (hcolours : ∀ p ∈ pairs, 0 ∈ (colorStr conf p.2).toList)
    (hnames : ∀ p ∈ pairs, NameTerminated p.2) (h : Holds dst s)
    (hfits : s.length + (rows conf pairs).length < dst.length) :
    ∃ dst', feed (qlistForeachMakeText conf) pairs (some dst) = (.ok, some dst') ∧
      dst'.length = dst.length ∧ Holds dst' (s ++ rows conf pairs) := by
  induction pairs generalizing dst s with
  | nil => exact ⟨dst, rfl, rfl, by simpa [rows] using h⟩
  | cons p pairs ih =>
      rw [List.forall_mem_cons] at hcolours hnames
      rw [length_rows_cons] at hfits
      obtain ⟨dst', hrow, hlength, hholds⟩ :=
        qlistForeachMakeText_fits hcolours.1 hnames.1 h (by omega) p.1
      have hrest : (s ++ row conf p.2).length + (rows conf pairs).length < dst'.length := by
        rw [List.length_append, length_row, hlength]
        omega
      obtain ⟨dst'', hfeed, hlength', hholds'⟩ := ih hcolours.2 hnames.2 hholds hrest
      refine ⟨dst'', ?_, hlength'.trans hlength, ?_⟩
      · simpa only [feed, hrow] using hfeed
      · simpa [rows] using hholds'

/-- Without room for all of them some row is written beyond the buffer. -/
theorem feed_makeText_overflow (hconf : ColoursTerminated conf)
    (hnames : ∀ p ∈ pairs, NameTerminated p.2) (h : Holds dst s)
    (hover : dst.length ≤ s.length + (rows conf pairs).length) :
    feed (qlistForeachMakeText conf) pairs (some dst) = (.ok, none) := by
  induction pairs generalizing dst s with
  | nil =>
      have hlt := h.length_lt
      simp [rows] at hover
      omega
  | cons p pairs ih =>
      rw [List.forall_mem_cons] at hnames
      rw [length_rows_cons] at hover
      by_cases hfirst : s.length + rowLength conf p.2 < dst.length
      · obtain ⟨dst', hrow, hlength, hholds⟩ :=
          qlistForeachMakeText_fits (hconf.colorStr p.2) hnames.1 h hfirst p.1
        have hrest : dst'.length ≤ (s ++ row conf p.2).length + (rows conf pairs).length := by
          rw [List.length_append, length_row, hlength]
          omega
        simpa only [feed, hrow] using ih hnames.2 hholds hrest
      · have hrow := qlistForeachMakeText_overflow hconf hnames.1 h (not_lt.mp hfirst) p.1
        simpa only [feed, hrow] using feed_makeText_none pairs

/-! ## Reachable queues -/

/-- `liveroom_qlist_make_text` writes the rows of the queue behind each other, inside
the buffer, and terminates them. -/
def TextFits (conf : ColorConfig) (q : BliveQlist) (pairs : List Pair) (dst : Buffer) : Prop :=
  ∃ dst', liveroomQlistMakeText conf q dst = some dst' ∧ dst'.length = dst.length ∧
    Holds dst' (rows conf pairs) ∧ (rows conf pairs).length + 1 ≤ dst.length

/-- The text is what the callback makes of the pairs that a traversal shows. -/
theorem liveroomQlistMakeText_eq {seq : Sequence} (h : Represents q seq)
    (htraversal : traversal q false = some pairs) :
    liveroomQlistMakeText conf q dst =
      (feed (qlistForeachMakeText conf) pairs (some dst)).2 := by
  obtain rfl := Option.some.inj (htraversal.symm.trans (h.traversal_eq false))
  rw [liveroomQlistMakeText, h.qlistForeach_eq]
  by_cases hzero : seq.count = 0
  · simp [hzero, feed]
  · simp [hzero]

theorem nameTerminated_of_traversal {seq : Sequence} (h : Represents q seq)
    (hnames : ∀ c ∈ seq.cells, NameTerminated c.unit.data)
    (htraversal : traversal q false = some pairs) : ∀ p ∈ pairs, NameTerminated p.2 := by
  obtain rfl := Option.some.inj (htraversal.symm.trans (h.traversal_eq false))
  intro p hp
  obtain ⟨c, hc, rfl⟩ := List.mem_map.mp hp
  exact hnames c (List.mem_of_mem_take hc)

/-- The text of a represented queue whose nicknames are strings. -/
theorem textFits_iff (hconf : ColoursTerminated conf) {seq : Sequence} (h : Represents q seq)
    (hnames : ∀ c ∈ seq.cells, NameTerminated c.unit.data) (hcleared : Holds dst [])
    (htraversal : traversal q false = some pairs) :
    TextFits conf q pairs dst ↔ (pairs.map fun p => rowLength conf p.2).sum < dst.length := by
  have hnamed := nameTerminated_of_traversal h hnames htraversal
  rw [TextFits, liveroomQlistMakeText_eq h htraversal, ← length_rows]
  constructor
  · intro hfits
    obtain ⟨-, -, -, -, hlength⟩ := hfits
    exact hlength
  · intro hlength
    have hroom : ([] : List UInt8).length + (rows conf pairs).length < dst.length := by
      simpa using hlength
    obtain ⟨dst', hfeed, hsize, hholds⟩ :=
      feed_makeText_fits (fun p _ => hconf.colorStr p.2) hnamed hcleared hroom
    exact ⟨dst', by rw [hfeed], hsize, hholds, hlength⟩

/-- Without room for the rows the callback writes beyond the buffer. -/
theorem liveroomQlistMakeText_eq_none (hconf : ColoursTerminated conf) {seq : Sequence}
    (h : Represents q seq) (hnames : ∀ c ∈ seq.cells, NameTerminated c.unit.data)
    (hcleared : Holds dst []) (htraversal : traversal q false = some pairs)
    (hover : dst.length ≤ (pairs.map fun p => rowLength conf p.2).sum) :
    liveroomQlistMakeText conf q dst = none := by
  have hnamed := nameTerminated_of_traversal h hnames htraversal
  have hlength : dst.length ≤ ([] : List UInt8).length + (rows conf pairs).length := by
    simpa [length_rows] using hover
  rw [liveroomQlistMakeText_eq h htraversal,
    feed_makeText_overflow hconf hnamed hcleared hlength]

/-- On a cleared buffer of the size that `http_sendfile` provides, the text of a
reachable queue fits exactly when the lengths of its rows add up to less than that;
otherwise a row is written beyond the buffer. -/
theorem queue_text_fits_iff (hconf : ColoursTerminated conf)
    {history : List (QlistCall × QlistRet)} (run : qlistSystem.Run NamesTerminated history q)
    (hsize : dst.length = Httpd.dataSize) (hcleared : Holds dst []) :
    ∃ pairs, traversal q false = some pairs ∧
      (TextFits conf q pairs dst ↔
        (pairs.map fun p => rowLength conf p.2).sum < Httpd.dataSize) ∧
      (liveroomQlistMakeText conf q dst ≠ none ↔
        (pairs.map fun p => rowLength conf p.2).sum < Httpd.dataSize) := by
  obtain ⟨seq, h, hnames⟩ := exists_represents_data (P := NameTerminated)
    (fun _ _ hguard => hguard) run
  have htraversal := h.traversal_eq false
  have hiff := textFits_iff hconf h hnames hcleared htraversal
  refine ⟨_, htraversal, hsize ▸ hiff, ?_⟩
  rw [← hsize, ← hiff]
  constructor
  · intro hwritten
    apply hiff.mpr
    apply Nat.lt_of_not_le
    intro hover
    exact hwritten (liveroomQlistMakeText_eq_none hconf h hnames hcleared htraversal hover)
  · intro hfits
    obtain ⟨dst', htext, -⟩ := hfits
    rw [htext]
    exact Option.some_ne_none dst'

/-- No row has more than 69 bytes. -/
theorem rowLength_le (hconf : ColoursTerminated conf) (hname : NameTerminated data) :
    rowLength conf data ≤ 69 := by
  have hcolour := (holds_of_mem (hconf.colorStr data)).length_lt
  have hnick := (holds_of_mem hname).length_lt
  rw [Vector.length_toList] at hcolour hnick
  have hnick' : (text data.danmuSenderName.toList).length < 32 := hnick
  unfold rowLength
  omega

theorem sum_rowLength_le (hconf : ColoursTerminated conf)
    (hnames : ∀ p ∈ pairs, NameTerminated p.2) :
    (pairs.map fun p => rowLength conf p.2).sum ≤ pairs.length * 69 := by
  induction pairs with
  | nil => simp
  | cons p pairs ih =>
      rw [List.forall_mem_cons] at hnames
      have hrow := rowLength_le hconf hnames.1
      have hrest := ih hnames.2
      simp only [List.map_cons, List.sum_cons, List.length_cons]
      omega

/-- The text of up to 296 users always fits, whatever the colours and nicknames are. -/
theorem textFits_of_length_le (hconf : ColoursTerminated conf)
    {history : List (QlistCall × QlistRet)} (run : qlistSystem.Run NamesTerminated history q)
    (hsize : dst.length = Httpd.dataSize) (hcleared : Holds dst [])
    (htraversal : traversal q false = some pairs) (hfew : pairs.length ≤ 296) :
    TextFits conf q pairs dst := by
  obtain ⟨seq, h, hnames⟩ := exists_represents_data (P := NameTerminated)
    (fun _ _ hguard => hguard) run
  rw [textFits_iff hconf h hnames hcleared htraversal, hsize]
  have hsum := sum_rowLength_le hconf (nameTerminated_of_traversal h hnames htraversal)
  have hbound : 296 * 69 < Httpd.dataSize := by decide
  omega

/-! ## Long names -/

/-- The colours of the shipped configuration file. -/
def shippedColours : ColorConfig where
  titleColor := #v[35, 48, 48, 48, 48, 48, 48, 0]
  captColor := #v[35, 48, 52, 55, 48, 102, 102, 0]
  fansColor := #v[35, 49, 57, 49, 57, 55, 48, 0]
  othersColor := #v[35, 48, 48, 48, 48, 48, 48, 0]

theorem shippedColours_terminated : ColoursTerminated shippedColours :=
  ⟨by decide, by decide, by decide⟩

/-- A user with a nickname of 31 bytes. -/
def longNamed : QlistUnitData :=
  { QlistUnitData.zero with
    danmuSenderName := Vector.ofFn fun i => if i.val < 31 then 97 else 0 }

theorem longNamed_terminated : NameTerminated longNamed := by
  unfold NameTerminated
  decide

theorem rowLength_longNamed : rowLength shippedColours longNamed = 69 := by decide

theorem sum_rowLength_longNamed (n : ℕ) :
    ((anchoragesWith longNamed n).map fun p => rowLength shippedColours p.2).sum = n * 69 := by
  simp [anchoragesWith, rowLength_longNamed, Function.comp_def]

/-- Any number of such users can be in the queue. -/
theorem exists_longNamed {n : ℕ} (hn : n < 2 ^ 32) :
    ∃ history q seq, qlistSystem.Run NamesTerminated history q ∧ Represents q seq ∧
      (∀ c ∈ seq.cells, NameTerminated c.unit.data) ∧
      traversal q false = some (anchoragesWith longNamed n) := by
  obtain ⟨history, q, seq, run, h, hs, hline⟩ := exists_filled longNamed hn
  refine ⟨history, q, seq, ?_, h, ?_, hline ▸ h.traversal_eq_line hs⟩
  · apply run.mono
    intro q label hguard a d mem hcall
    obtain ⟨-, a', mem', hlong⟩ := hguard
    obtain ⟨-, rfl, -⟩ := QlistCall.appendUpdate.inj (hcall.symm.trans hlong)
    exact longNamed_terminated
  · intro c hc
    have hpair : c.pair ∈ anchoragesWith longNamed n := hline ▸ List.mem_map_of_mem hc
    obtain ⟨i, -, heq⟩ := List.mem_map.mp hpair
    have hdata : c.unit.data = longNamed := (congrArg Prod.snd heq).symm
    exact hdata ▸ longNamed_terminated

/-- The buffer of `http_sendfile` before the first line. -/
def freshData : Buffer := List.replicate Httpd.dataSize 0

theorem holds_freshData : Holds freshData [] :=
  ⟨by simp, List.replicate (Httpd.dataSize - 1) 0, rfl⟩

theorem length_freshData : freshData.length = Httpd.dataSize := List.length_replicate

/-- 296 users with long names still fit. -/
theorem queue_text_fits_of_296_users :
    ∃ history q pairs, qlistSystem.Run NamesTerminated history q ∧
      traversal q false = some pairs ∧ pairs.length = 296 ∧
      TextFits shippedColours q pairs freshData := by
  obtain ⟨history, q, seq, run, -, -, htraversal⟩ := exists_longNamed (n := 296) (by decide)
  obtain ⟨pairs, hpairs, hiff, -⟩ := queue_text_fits_iff shippedColours_terminated run
    length_freshData holds_freshData
  obtain rfl := Option.some.inj (hpairs.symm.trans htraversal)
  refine ⟨history, q, _, run, htraversal, by simp, hiff.mpr ?_⟩
  rw [sum_rowLength_longNamed]
  decide

/-- One user more, and the text leaves the buffer. -/
theorem exists_text_beyond_buffer :
    ∃ history q pairs, qlistSystem.Run NamesTerminated history q ∧
      traversal q false = some pairs ∧ pairs.length = 297 ∧
      liveroomQlistMakeText shippedColours q freshData = none ∧
      ¬ TextFits shippedColours q pairs freshData := by
  obtain ⟨history, q, seq, run, h, hnames, htraversal⟩ := exists_longNamed (n := 297) (by decide)
  have hover : freshData.length ≤
      ((anchoragesWith longNamed 297).map fun p => rowLength shippedColours p.2).sum := by
    rw [sum_rowLength_longNamed, length_freshData]
    decide
  have hnone := liveroomQlistMakeText_eq_none shippedColours_terminated h hnames
    holds_freshData htraversal hover
  refine ⟨history, q, _, run, htraversal, by simp, hnone, ?_⟩
  intro hfits
  obtain ⟨dst', htext, -⟩ := hfits
  exact absurd (hnone.symm.trans htext) (by simp)

end BliveQueue.Callbacks
