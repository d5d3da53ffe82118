/-
# Messages that are survived

`danmu_callback` checks one of its lookups, the first item of the medal, and dereferences
all the others. It comes to an end if the message has all the fields that are read, with
strings where strings are read, and if the first entry of the sender in a list that is
searched has a nickname. Any other message ends the program before a record is sent.
-/

import BliveQueue.Callbacks.Message
import BliveQueue.Callbacks.Search

namespace BliveQueue.Callbacks

open BliveQueue.Config BliveQueue.Math.CharBuffer
open BliveQueue.Utils BliveQueue.Utils.QList

variable {Json : Type} {cjson : CJson Json} {conf : BliveExtCfg Json} {msg : Json}
  {info : UserInfo} {name : CString}

/-- The text of a message. -/
def messageText (cjson : CJson Json) (msg : Json) : Option CString :=
  cjson.text (cjson.getArrayItem (messageInfo cjson msg) 1)

/-- The number by which the lists are searched for the sender of a message. -/
def searchedUid (cjson : CJson Json) (msg : Json) : Option UInt32 :=
  (cjson.int (cjson.getArrayItem (cjson.getArrayItem (messageInfo cjson msg) 2) 0)).map
    Int32.toUInt32

/-- A field that is required of a message is missing. -/
def LacksField (cjson : CJson Json) (msg : Json) : Prop :=
  messageText cjson msg = none ∨ ¬ Complete cjson msg

/-- The callback comes to an end, and it sends nothing for a message that lacks a field. -/
def Survives (cjson : CJson Json) (conf : BliveExtCfg Json) (msg : Json) : Prop :=
  ∃ sent conf', danmuCallback cjson conf msg = some (sent, conf') ∧
    (LacksField cjson msg → sent = none)

/-- The searches for a user go well in the lists that are searched. -/
structure NamedInLists (cjson : CJson Json) (filter : FilterConfig Json) (uid : UInt32) :
    Prop where
  whitelist : Named cjson uid filter.whitelist
  blacklist : firstEntry cjson uid filter.whitelist = none → Named cjson uid filter.blacklist

/-- Everything that the callback dereferences is there. -/
structure Readable (cjson : CJson Json) (conf : BliveExtCfg Json) (msg : Json) : Prop where
  text : (messageText cjson msg).isSome
  complete : Complete cjson msg
  host : Comparable cjson conf msg
  lists : (∃ body ∈ messageText cjson msg, IsCommand body) →
    ∀ uid ∈ searchedUid cjson msg, NamedInLists cjson conf.filterConfig uid

/-! ## The lists -/

/-- The lists are searched to the end if both searches go well, or the first one finds
somebody. -/
theorem admitUser_isSome_iff (hname : toCString info.data.danmuSenderName.toList = some name) :
    (admitUser cjson conf info).isSome ↔
      NamedInLists cjson conf.filterConfig info.data.danmuSenderUid := by
  have hsome : ∀ list, (searchUserInList cjson info list).isSome ↔
      Named cjson info.data.danmuSenderUid list := searchUserInList_isSome_iff hname
  cases hsearch : searchUserInList cjson info conf.filterConfig.whitelist with
  | none =>
      have hnot : ¬ Named cjson info.data.danmuSenderUid conf.filterConfig.whitelist := by
        rw [← hsome, hsearch]
        simp
      simp only [admitUser, hsearch, Option.bind_eq_bind, Option.bind_none, Option.isSome_none]
      exact ⟨fun h => absurd h Bool.false_ne_true, fun h => absurd h.whitelist hnot⟩
  | some r =>
      obtain ⟨trusted, whitelist⟩ := r
      have hanswer := searchUserInList_answer hname hsearch
      have hnamed : Named cjson info.data.danmuSenderUid conf.filterConfig.whitelist := by
        rw [← hsome, hsearch]
        rfl
      cases trusted with
      | true =>
          have hfound : firstEntry cjson info.data.danmuSenderUid conf.filterConfig.whitelist ≠
              none := Option.isSome_iff_ne_none.mp hanswer.symm
          simp only [admitUser, hsearch, Option.bind_eq_bind, Option.bind_some, if_true,
            Option.isSome_some, true_iff]
          exact ⟨hnamed, fun hnone => absurd hnone hfound⟩
      | false =>
          have hmissed : firstEntry cjson info.data.danmuSenderUid conf.filterConfig.whitelist =
              none := Option.not_isSome_iff_eq_none.mp (by rw [← hanswer]; decide)
          have hiff : (admitUser cjson conf info).isSome ↔
              (searchUserInList cjson info conf.filterConfig.blacklist).isSome := by
            simp only [admitUser, hsearch, Option.bind_eq_bind, Option.bind_some]
            cases searchUserInList cjson info conf.filterConfig.blacklist <;> simp
          rw [hiff, hsome]
          exact ⟨fun h => ⟨hnamed, fun _ => h⟩, fun h => h.blacklist hmissed⟩

/-! ## The callback -/

/-- After the record has been filled in, the lists decide about a command. -/
theorem danmuCallback_isSome_iff {body : CString} (hbody : messageText cjson msg = some body)
    (hinfo : danmuInfo cjson conf (messageInfo cjson msg) = some info) :
    (danmuCallback cjson conf msg).isSome ↔
      (IsCommand body → NamedInLists cjson conf.filterConfig info.data.danmuSenderUid) := by
  obtain ⟨name, hname⟩ := (RecordOf.of_danmuInfo hinfo).exists_name
  have hbody : cjson.text (cjson.getArrayItem (cjson.getObjectItem (some msg) "info") 1) =
      some body := hbody
  have hinfo : danmuInfo cjson conf (cjson.getObjectItem (some msg) "info") = some info := hinfo
  have hlists : ∀ cancel, (admitUser cjson conf
      { info with data := { info.data with cancelQueueUp := cancel } }).isSome ↔
        NamedInLists cjson conf.filterConfig info.data.danmuSenderUid := by
    intro cancel
    exact admitUser_isSome_iff hname
  simp only [danmuCallback, hbody, hinfo, Option.bind_eq_bind, Option.bind_some, IsCommand]
  by_cases hjoin : body.val = literal "排队"
  · simp [hjoin, hlists]
  · by_cases hleave : body.val = literal "取消排队"
    · rw [if_neg hjoin, if_pos hleave, hlists true]
      simp [hleave]
    · simp [hjoin, hleave]

/-- The callback comes to an end exactly if everything it dereferences is there. -/
theorem danmuCallback_isSome_iff_readable :
    (danmuCallback cjson conf msg).isSome ↔ Readable cjson conf msg := by
  cases hbody : messageText cjson msg with
  | none =>
      have hnone : danmuCallback cjson conf msg = none := by
        have hbody : cjson.text (cjson.getArrayItem (cjson.getObjectItem (some msg) "info") 1) =
          none := hbody
        simp [danmuCallback, hbody]
      rw [hnone]
      exact ⟨fun h => absurd h Bool.false_ne_true, fun h => by simpa [hbody] using h.text⟩
  | some body =>
      cases hinfo : danmuInfo cjson conf (messageInfo cjson msg) with
      | none =>
          rw [danmuCallback_eq_none_of_danmuInfo hinfo]
          refine ⟨fun h => absurd h Bool.false_ne_true, fun h => ?_⟩
          have hsome := danmuInfo_isSome_iff.mpr ⟨h.complete, h.host⟩
          rw [hinfo] at hsome
          cases hsome
      | some info =>
          obtain ⟨hcomplete, hhost⟩ :=
            danmuInfo_isSome_iff.mp (Option.isSome_iff_exists.mpr ⟨info, hinfo⟩)
          obtain ⟨item, hitem, huid⟩ := (RecordOf.of_danmuInfo hinfo).uid
          have hsearched : searchedUid cjson msg = some info.data.danmuSenderUid := by
            rw [searchedUid, hitem, huid]
            rfl
          rw [danmuCallback_isSome_iff hbody hinfo]
          constructor
          · intro h
            refine ⟨by rw [hbody]; rfl, hcomplete, hhost, ?_⟩
            simpa [hbody, hsearched] using h
          · intro h hcommand
            exact h.lists ⟨body, hbody, hcommand⟩ _ hsearched

/-- The callback survives a message exactly if everything it dereferences is there. -/
theorem survives_iff : Survives cjson conf msg ↔ Readable cjson conf msg := by
  rw [← danmuCallback_isSome_iff_readable, Option.isSome_iff_exists]
  constructor
  · intro h
    obtain ⟨sent, conf', hsent, -⟩ := h
    exact ⟨_, hsent⟩
  · intro h
    obtain ⟨⟨sent, conf'⟩, hsent⟩ := h
    have hreadable : Readable cjson conf msg :=
      danmuCallback_isSome_iff_readable.mp (Option.isSome_iff_exists.mpr ⟨_, hsent⟩)
    refine ⟨sent, conf', hsent, fun hlacks => ?_⟩
    rcases hlacks with hnone | hincomplete
    · have htext := hreadable.text
      rw [hnone] at htext
      cases htext
    · exact absurd hreadable.complete hincomplete

/-! ## A short message -/

/-- The places of a message whose array `info` is empty. -/
inductive ShortNode
  | msg
  | cmd
  | info
  deriving DecidableEq

/-- The trees at these places. -/
def ShortNode.shape : ShortNode → CJson.Shape ShortNode
  | .msg => .object [("cmd", .cmd), ("info", .info)]
  | .cmd => .string "DANMU_MSG"
  | .info => .array []

/-- A configuration without filter lists. -/
def openRoom (Json : Type) : BliveExtCfg Json where
  roomId := 1
  queueUpConfig := ⟨⟨false, true, true⟩, Vector.replicate _ 0, 0⟩
  colorConfig :=
    ⟨Vector.replicate _ 0, Vector.replicate _ 0, Vector.replicate _ 0, Vector.replicate _ 0⟩
  rearrangeConfig := ⟨false, false, 0, 0, false, 0⟩
  filterConfig := ⟨none, none⟩

/-- The text of such a message is dereferenced although it is absent. -/
theorem exists_message_not_survived :
    ¬ Survives (CJson.ofShape ShortNode.shape [] 0) (openRoom ShortNode) .msg := by
  intro h
  obtain ⟨sent, conf', hsent, -⟩ := h
  have hnone : (danmuCallback (CJson.ofShape ShortNode.shape [] 0) (openRoom ShortNode)
      .msg).isNone = true := by
    decide +kernel
  rw [hsent] at hnone
  cases hnone

end BliveQueue.Callbacks
