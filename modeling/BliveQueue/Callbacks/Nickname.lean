/-
# The nicknames in the filter lists

The search for a sender also brings the nickname in his entry up to date. It takes the
nickname from the record, which holds the first 31 bytes of the one in the message, so
that an entry never gets a longer nickname and loses one that it has. And it stops at the
first entry whose uid is read as the number of the sender, which is an entry of another
user if both numbers are beyond the range of a C `int`.
-/

import BliveQueue.Callbacks.Survival
import BliveQueue.Math.FirstMatch

namespace BliveQueue.Callbacks

open BliveQueue.Config BliveQueue.Math BliveQueue.Math.CharBuffer
open BliveQueue.Utils BliveQueue.Utils.QList

variable {Json : Type} {cjson : CJson Json} {number : Json → Option ℤ}
  {conf : BliveExtCfg Json} {msg : Json} {info : UserInfo} {u : ℤ} {body name nick old : CString}
  {list list' : Option Json} {item item' : Json} {i : ℕ}

/-! ## Entries -/

/-- `cJSON_SetValuestring` on the nickname of an item of a list: the item gets it and keeps
its other members, and the other items stay. -/
def SetsNicknames (cjson : CJson Json) : Prop :=
  ∀ list item i nick, (cjson.children list)[i]? = some item → (nickname cjson item).isSome →
    ∃ item', cjson.children (cjson.setItemString list i (literal "昵称") nick) =
        (cjson.children list).set i item' ∧
      nickname cjson item' = some nick ∧
      ∀ member, member ≠ literal "昵称" → cjson.member item' member = cjson.member item member

/-- The uid of an entry. -/
def entryUid (cjson : CJson Json) (number : Json → Option ℤ) (item : Json) : Option ℤ :=
  (cjson.getObjectItem (some item) "uid").bind number

/-- Every entry of a list has a numeric uid and a nickname. -/
def Numeric (cjson : CJson Json) (number : Json → Option ℤ) (list : Option Json) : Prop :=
  ∀ item ∈ listItems cjson list,
    (entryUid cjson number item).isSome ∧ (nickname cjson item).isSome

/-- An entry is the one of a user. -/
def BelongsTo (cjson : CJson Json) (number : Json → Option ℤ) (u : ℤ) (item : Json) : Prop :=
  entryUid cjson number item = some u

instance (cjson : CJson Json) (number : Json → Option ℤ) (u : ℤ) (item : Json) :
    Decidable (BelongsTo cjson number u item) :=
  inferInstanceAs (Decidable (entryUid cjson number item = some u))

/-- The uid of an entry is the one of a user as a C `int`. -/
def ReadAs (cjson : CJson Json) (number : Json → Option ℤ) (u : ℤ) (item : Json) : Prop :=
  ∃ v ∈ entryUid cjson number item,
    max (-2 ^ 31) (min v intMax) = max (-2 ^ 31) (min u intMax)

instance (cjson : CJson Json) (number : Json → Option ℤ) (u : ℤ) (item : Json) :
    Decidable (ReadAs cjson number u item) :=
  inferInstanceAs (Decidable (∃ v ∈ entryUid cjson number item,
    max (-2 ^ 31) (min v intMax) = max (-2 ^ 31) (min u intMax)))

/-- Two lists have the same items, up to the nickname of one of them. -/
structure SameButNickname (cjson : CJson Json) (i : ℕ) (list list' : Option Json) : Prop where
  length : (listItems cjson list').length = (listItems cjson list).length
  others : ∀ j, j ≠ i → (listItems cjson list')[j]? = (listItems cjson list)[j]?
  members : ∀ item ∈ (listItems cjson list)[i]?, ∀ item' ∈ (listItems cjson list')[i]?,
    ∀ member, member ≠ literal "昵称" → cjson.member item' member = cjson.member item member

/-- A search has brought the nickname of a user up to date. -/
structure SyncsNickname (cjson : CJson Json) (number : Json → Option ℤ) (u : ℤ) (nick : CString)
    (list : Option Json) (found : Bool) (list' : Option Json) : Prop where
  missed : found = false → list' = list
  held : found = true → ∃ i item,
    IsFirst (listItems cjson list') (BelongsTo cjson number u) i item ∧
      nickname cjson item = some nick
  frame : found = true → ∀ i item,
    IsFirst (listItems cjson list) (BelongsTo cjson number u) i item →
      SameButNickname cjson i list list'
  idle : found = true → ∀ i item,
    IsFirst (listItems cjson list) (BelongsTo cjson number u) i item →
      nickname cjson item = some nick → list' = list

/-- The nickname is short enough for the record; or an entry of somebody else is taken for
the one of the user, but nothing has to be changed. -/
def NothingLost (cjson : CJson Json) (number : Json → Option ℤ) (u : ℤ) (nick : CString)
    (list : Option Json) : Prop :=
  ∀ i item, IsFirst (listItems cjson list) (ReadAs cjson number u) i item →
    if BelongsTo cjson number u item then nick.val.length ≤ defaultNameLen - 1
    else (nickname cjson item).map Subtype.val = some (nick.val.take (defaultNameLen - 1)) ∧
      ∃ j other, IsFirst (listItems cjson list) (BelongsTo cjson number u) j other ∧
        nickname cjson other = some nick

/-- The nickname of the sender, `info[2][1]`, as the message has it. -/
def senderNick (cjson : CJson Json) (msg : Json) : Option CString :=
  cjson.text (cjson.getArrayItem (cjson.getArrayItem (messageInfo cjson msg) 2) 1)

/-! ## One search -/

/-- The record has the first 31 bytes of the nickname. -/
theorem RecordOf.exists_cut_name (h : RecordOf cjson conf msg info)
    (hnick : senderNick cjson msg = some nick) :
    ∃ name, toCString info.data.danmuSenderName.toList = some name ∧
      name.val = nick.val.take (defaultNameLen - 1) := by
  obtain ⟨copied, hcopied, hname⟩ := h.name
  obtain rfl := Option.some.inj (hcopied.symm.trans hnick)
  have hholds : Holds info.data.danmuSenderName.toList (copied.val.take (defaultNameLen - 1)) := by
    rw [hname]
    exact holds_take_strncpy (by decide) (by decide)
  exact ⟨_, hholds.toCString_eq, rfl⟩

/-- The search takes an entry for the one of the sender if both uids are the same `int`. -/
theorem RecordOf.hasUid_iff (h : RecordOf cjson conf msg info) (hsat : cjson.Saturates number)
    (hu : senderUid cjson number msg = some u) (hitem : (entryUid cjson number item).isSome) :
    HasUid cjson info.data.danmuSenderUid item ↔ ReadAs cjson number u item := by
  obtain ⟨sender, hsender, huid⟩ := h.uid
  have hnumber : number sender = some u := number_of_senderUid hsender hu
  obtain ⟨v, hv⟩ := Option.isSome_iff_exists.mp hitem
  obtain ⟨node, hnode, hnumber'⟩ := Option.bind_eq_some_iff.mp hv
  have hsame := valueint_eq_iff hsat hnumber' hnumber
  simp only [HasUid, ReadAs, hnode, hv, huid, Option.mem_some_iff, exists_eq_left', hsame]

/-- An entry of the sender is taken for one. -/
theorem BelongsTo.readAs (h : BelongsTo cjson number u item) : ReadAs cjson number u item :=
  ⟨u, h, rfl⟩

/-- The list after a search has the nickname of the record in the entry that was found. -/
theorem exists_syncName (hset : SetsNicknames cjson)
    (hitem : (listItems cjson list)[i]? = some item) (hold : nickname cjson item = some old)
    (name : CString) :
    ∃ item', listItems cjson (syncName cjson list i old name) = (listItems cjson list).set i item' ∧
      nickname cjson item' = some name ∧
      ∀ member, member ≠ literal "昵称" → cjson.member item' member = cjson.member item member := by
  by_cases hsame : old.val = name.val
  · obtain ⟨hlt, hget⟩ := List.getElem?_eq_some_iff.mp hitem
    refine ⟨item, ?_, hold.trans (congrArg some (Subtype.ext hsame)), fun _ _ => rfl⟩
    rw [syncName, if_pos hsame, ← hget, List.set_getElem_self]
  · rw [syncName, if_neg hsame]
    cases list with
    | none => cases hitem
    | some list => exact hset list item i name hitem (Option.isSome_iff_exists.mpr ⟨old, hold⟩)

/-- An entry keeps its uid. -/
theorem belongsTo_iff_of_members
    (h : ∀ member, member ≠ literal "昵称" → cjson.member item' member = cjson.member item member) :
    BelongsTo cjson number u item' ↔ BelongsTo cjson number u item := by
  have huid : literal "uid" ≠ literal "昵称" := by decide +kernel
  have hsame : cjson.getObjectItem (some item') "uid" = cjson.getObjectItem (some item) "uid" :=
    h _ huid
  rw [BelongsTo, BelongsTo, entryUid, entryUid, hsame]

/-- A list with one entry set is the same up to the nickname there. -/
theorem sameButNickname_of_set
    (hlist : listItems cjson list' = (listItems cjson list).set i item')
    (hitem : (listItems cjson list)[i]? = some item)
    (h : ∀ member, member ≠ literal "昵称" → cjson.member item' member = cjson.member item member) :
    SameButNickname cjson i list list' := by
  have hlt : i < (listItems cjson list).length := (List.getElem?_eq_some_iff.mp hitem).1
  constructor
  · rw [hlist, List.length_set]
  · intro j hj
    rw [hlist, List.getElem?_set_ne hj.symm]
  · intro old hold new hnew
    obtain rfl := Option.some.inj (hitem.symm.trans hold)
    rw [hlist, List.getElem?_set_self hlt] at hnew
    obtain rfl := Option.some.inj hnew
    exact h

/-- The entry of the sender gets the nickname if this is not cut off in the record. -/
theorem syncsNickname_own_iff (hset : SetsNicknames cjson)
    (hfirst : IsFirst (listItems cjson list) (ReadAs cjson number u) i item)
    (hown : BelongsTo cjson number u item) (hold : nickname cjson item = some old)
    (hname : name.val = nick.val.take (defaultNameLen - 1)) :
    SyncsNickname cjson number u nick list true (syncName cjson list i old name) ↔
      nick.val.length ≤ defaultNameLen - 1 := by
  obtain ⟨item', hitems, hnick', hmembers⟩ := exists_syncName hset hfirst.here hold name
  have hkept : BelongsTo cjson number u item' ↔ BelongsTo cjson number u item :=
    belongsTo_iff_of_members hmembers
  have hfirstOwn : IsFirst (listItems cjson list) (BelongsTo cjson number u) i item :=
    hfirst.of_imp (fun _ h => h.readAs) hown
  have hfirst' : IsFirst (listItems cjson (syncName cjson list i old name))
      (BelongsTo cjson number u) i item' := by
    rw [hitems]
    simpa using hfirstOwn.set hfirst.here hkept
  constructor
  · intro h
    obtain ⟨j, other, hother, hheld⟩ := h.held rfl
    obtain ⟨-, rfl⟩ := hother.unique hfirst'
    obtain rfl : name = nick := Option.some.inj (hnick'.symm.trans hheld)
    have hlength := congrArg List.length hname
    rw [List.length_take] at hlength
    omega
  · intro hshort
    obtain rfl : name = nick := Subtype.ext (hname.trans (List.take_of_length_le hshort))
    constructor
    · intro hfalse
      cases hfalse
    · intro _
      exact ⟨i, item', hfirst', hnick'⟩
    · intro _ j other hother
      obtain ⟨rfl, rfl⟩ := hother.unique hfirstOwn
      exact sameButNickname_of_set hitems hfirst.here hmembers
    · intro _ j other hother hheld
      obtain ⟨rfl, rfl⟩ := hother.unique hfirstOwn
      obtain rfl : old = name := Option.some.inj (hold.symm.trans hheld)
      exact if_pos rfl

/-- If the entry of somebody else is found, its nickname must already be the one of the
record, and the entry of the sender must have the right one. -/
theorem syncsNickname_other_iff (hset : SetsNicknames cjson)
    (hfirst : IsFirst (listItems cjson list) (ReadAs cjson number u) i item)
    (hother : ¬ BelongsTo cjson number u item) (hold : nickname cjson item = some old)
    (hname : name.val = nick.val.take (defaultNameLen - 1)) :
    SyncsNickname cjson number u nick list true (syncName cjson list i old name) ↔
      (nickname cjson item).map Subtype.val = some (nick.val.take (defaultNameLen - 1)) ∧
        ∃ j other, IsFirst (listItems cjson list) (BelongsTo cjson number u) j other ∧
          nickname cjson other = some nick := by
  obtain ⟨item', hitems, hnick', hmembers⟩ := exists_syncName hset hfirst.here hold name
  have hlt : i < (listItems cjson list).length := (List.getElem?_eq_some_iff.mp hfirst.here).1
  constructor
  · intro h
    obtain ⟨j, other, hown, hheld⟩ := h.held rfl
    rw [hitems] at hown
    have hback := hown.of_set hfirst.here (belongsTo_iff_of_members hmembers)
    -- the entry of the sender is not the one that was found
    have hij : i ≠ j := by
      intro hij
      rw [if_pos hij] at hback
      exact hother hback.holds
    rw [if_neg hij] at hback
    have hkept := (h.frame rfl j other hback).others i hij
    rw [hitems, List.getElem?_set_self hlt, hfirst.here] at hkept
    obtain rfl : item' = item := Option.some.inj hkept
    refine ⟨?_, j, other, hback, hheld⟩
    rw [hnick', Option.map_some, hname]
  · intro h
    obtain ⟨hsame, j, other, hown, hheld⟩ := h
    rw [hold, Option.map_some, ← hname] at hsame
    rw [syncName, if_pos (Option.some.inj hsame)]
    constructor
    · intro hfalse
      cases hfalse
    · intro _
      exact ⟨j, other, hown, hheld⟩
    · intro _ k entry _
      refine ⟨rfl, fun _ _ => rfl, fun x hx y hy => ?_⟩
      obtain rfl := Option.some.inj (Eq.trans (Eq.symm hx) hy)
      exact fun _ _ => rfl
    · intro _ _ _ _ _
      rfl

/-- Nothing is lost if no entry is found. -/
theorem nothingLost_of_none
    (hnone : ∀ item ∈ listItems cjson list, ¬ ReadAs cjson number u item) :
    NothingLost cjson number u nick list :=
  fun _ item hfirst => absurd hfirst.holds (hnone item hfirst.mem)

/-- Whether something is lost depends on the entry that is found. -/
theorem nothingLost_iff_of_first
    (hfirst : IsFirst (listItems cjson list) (ReadAs cjson number u) i item) :
    NothingLost cjson number u nick list ↔
      if BelongsTo cjson number u item then nick.val.length ≤ defaultNameLen - 1
      else (nickname cjson item).map Subtype.val = some (nick.val.take (defaultNameLen - 1)) ∧
        ∃ j other, IsFirst (listItems cjson list) (BelongsTo cjson number u) j other ∧
          nickname cjson other = some nick := by
  constructor
  · intro h
    exact h i item hfirst
  · intro h j other hother
    obtain ⟨rfl, rfl⟩ := hother.unique hfirst
    exact h

/-- A search for the sender of a message brings his nickname up to date exactly if nothing
of it is lost. -/
theorem RecordOf.search_syncs_iff (h : RecordOf cjson conf msg info)
    (hsat : cjson.Saturates number) (hset : SetsNicknames cjson)
    (hu : senderUid cjson number msg = some u) (hnick : senderNick cjson msg = some nick)
    (hlist : Numeric cjson number list) :
    (∃ found list', searchUserInList cjson info list = some (found, list') ∧
        SyncsNickname cjson number u nick list found list') ↔
      NothingLost cjson number u nick list := by
  obtain ⟨name, hname, hcut⟩ := h.exists_cut_name hnick
  have hread : ∀ item ∈ listItems cjson list,
      (HasUid cjson info.data.danmuSenderUid item ↔ ReadAs cjson number u item) :=
    fun item hitem => h.hasUid_iff hsat hu (hlist item hitem).1
  have hsearch : searchUserInList cjson info list = _ := searchUserInList_eq_firstEntry hname list
  cases hfound : firstEntry cjson info.data.danmuSenderUid list with
  | none =>
      rw [hfound] at hsearch
      have hnobody : ∀ item ∈ listItems cjson list, ¬ ReadAs cjson number u item := by
        intro item hitem hreads
        have hsome : (firstEntry cjson info.data.danmuSenderUid list).isSome = true :=
          isSome_firstEntry_iff.mpr ⟨item, hitem, (hread item hitem).mpr hreads⟩
        rw [hfound] at hsome
        exact Bool.false_ne_true hsome
      refine iff_of_true ⟨false, list, hsearch, ?_⟩ (nothingLost_of_none hnobody)
      exact ⟨fun _ => rfl, nofun, nofun, nofun⟩
  | some e =>
      obtain ⟨item, i⟩ := e
      obtain ⟨-, hfirst⟩ := isFirst_of_find? hfound
      have hfirst : IsFirst (listItems cjson list) (ReadAs cjson number u) i item :=
        hfirst.congr hread
      obtain ⟨old, hold⟩ := Option.isSome_iff_exists.mp (hlist item hfirst.mem).2
      rw [hfound] at hsearch
      simp only [hold, Option.map_some] at hsearch
      have hresult : (∃ found list', searchUserInList cjson info list = some (found, list') ∧
          SyncsNickname cjson number u nick list found list') ↔
            SyncsNickname cjson number u nick list true (syncName cjson list i old name) := by
        simp [hsearch]
      rw [hresult, nothingLost_iff_of_first hfirst]
      by_cases hown : BelongsTo cjson number u item
      · rw [if_pos hown]
        exact syncsNickname_own_iff hset hfirst hown hold hcut
      · rw [if_neg hown]
        exact syncsNickname_other_iff hset hfirst hown hold hcut

/-- The searches of `danmu_callback` for the sender of a message bring his nickname up to date
exactly if nothing of it is lost. -/
theorem syncsNickname_iff (hsat : cjson.Saturates number) (hset : SetsNicknames cjson)
    (hwell : WellFormed cjson number msg u body) (hnick : senderNick cjson msg = some nick)
    (hinfo : danmuInfo cjson conf (messageInfo cjson msg) = some info)
    (hlist : Numeric cjson number list) :
    (∃ found list', searchUserInList cjson (info.withCommand body) list = some (found, list') ∧
        SyncsNickname cjson number u nick list found list') ↔
      NothingLost cjson number u nick list := by
  have hrecord := RecordOf.of_danmuInfo hinfo
  have hrecord' : RecordOf cjson conf msg (info.withCommand body) :=
    ⟨hrecord.infoType, hrecord.uid, hrecord.name, hrecord.fleetLv, hrecord.medal⟩
  exact hrecord'.search_syncs_iff hsat hset hwell.uid hnick hlist

/-! ## Two nicknames -/

/-- The places of a list of uids and nicknames and of a message. -/
inductive NickNode
  | list (entries : List (ℤ × CString))
  | entry (uid : ℤ) (nick : CString)
  | msg (sender : ℤ) (nick : CString)
  | info (sender : ℤ) (nick : CString)
  | sender (uid : ℤ) (nick : CString)
  | text (value : CString)
  | number (value : ℤ)
  | empty
  deriving DecidableEq

/-- `DANMU_MSG`. -/
def danmuText : CString := ⟨literal "DANMU_MSG", by decide +kernel⟩

/-- The trees at these places; their strings are bytes. -/
def NickNode.shape : NickNode → CJson.Shape NickNode
  | .list entries => .array (entries.map fun e => .entry e.1 e.2)
  | .entry uid nick => .object [("uid", .number uid), ("昵称", .text nick)]
  | .msg uid nick => .object [("cmd", .text danmuText), ("info", .info uid nick)]
  | .info uid nick =>
    .array [.empty, .text joinText, .sender uid nick, .empty, .number 0, .number 0, .number 0,
      .number 0]
  | .sender uid nick => .array [.number uid, .text nick, .number 0]
  | .text _ => .string ""
  | .number value => .number value
  | .empty => .array []

/-- The text of a place. -/
def NickNode.valuestring : NickNode → Option CString
  | .text value => some value
  | _ => none

/-- A list after a string has been set in one of its entries. -/
def NickNode.setItemString (list : NickNode) (i : ℕ) (member : List UInt8) (value : CString) :
    NickNode :=
  match list with
  | .list entries =>
    if member = literal "昵称" then .list (entries.modify i fun e => (e.1, value)) else list
  | _ => list

/-- cJSON on these trees. -/
def nickJson : CJson NickNode :=
  { CJson.ofShape NickNode.shape [] 0 with
    valuestring := NickNode.valuestring
    setItemString := NickNode.setItemString }

/-- The numbers in these trees. -/
def nickNumber (node : NickNode) : Option ℤ := node.shape.numberOf

theorem nickJson_saturates : nickJson.Saturates nickNumber :=
  CJson.ofShape_saturates NickNode.shape [] 0

/-- Only the entries of lists have a nickname. -/
theorem exists_entry_of_nickname {item : NickNode} (h : (nickname nickJson item).isSome) :
    ∃ uid old, item = .entry uid old := by
  have hcmd : literal "cmd" ≠ literal "昵称" := by decide +kernel
  have hinfo : literal "info" ≠ literal "昵称" := by decide +kernel
  have hmember : nickname nickJson item =
      (item.shape.member (literal "昵称")).bind NickNode.valuestring := rfl
  rw [hmember] at h
  cases item with
  | entry uid old => exact ⟨uid, old, rfl⟩
  | msg uid nick => simp [NickNode.shape, CJson.Shape.member, hcmd, hinfo] at h
  | list | info | sender | text | number | empty =>
      simp [NickNode.shape, CJson.Shape.member] at h

theorem nickJson_setsNicknames : SetsNicknames nickJson := by
  intro list item i nick hitem hsome
  obtain ⟨uid, old, rfl⟩ := exists_entry_of_nickname hsome
  have hmem : .entry uid old ∈ list.shape.children := List.mem_of_getElem? hitem
  cases list with
  | list entries =>
      have hchildren : ∀ es, nickJson.children (.list es) =
          es.map fun e => NickNode.entry e.1 e.2 := fun _ => rfl
      have hset : nickJson.setItemString (.list entries) i (literal "昵称") nick =
          .list (entries.modify i fun e => (e.1, nick)) := by
        show (NickNode.list entries).setItemString i (literal "昵称") nick = _
        rw [NickNode.setItemString, if_pos rfl]
      rw [hchildren, List.getElem?_map, Option.map_eq_some_iff] at hitem
      obtain ⟨⟨uid', old'⟩, hentry, hsame⟩ := hitem
      obtain ⟨rfl, rfl⟩ := NickNode.entry.inj hsame
      refine ⟨.entry uid' nick, ?_, ?_, ?_⟩
      · rw [hset, hchildren, hchildren]
        apply List.ext_getElem?
        intro j
        by_cases hij : i = j
        · subst hij
          have hlt := (List.getElem?_eq_some_iff.mp hentry).1
          rw [List.getElem?_set_self (by simpa using hlt), List.getElem?_map,
            List.getElem?_modify_eq, hentry]
          rfl
        · rw [List.getElem?_set_ne hij, List.getElem?_map, List.getElem?_map,
            List.getElem?_modify_ne _ _ hij]
      · have huid : literal "uid" ≠ literal "昵称" := by decide +kernel
        show ((NickNode.entry uid' nick).shape.member (literal "昵称")).bind NickNode.valuestring =
          some nick
        simp [NickNode.shape, CJson.Shape.member, huid, NickNode.valuestring]
      · intro member hmember
        show (NickNode.entry uid' nick).shape.member member =
          (NickNode.entry uid' old').shape.member member
        by_cases huid : literal "uid" = member
        · simp [NickNode.shape, CJson.Shape.member, huid]
        · simp [NickNode.shape, CJson.Shape.member, huid, hmember.symm]
  | entry | msg | info | sender | text | number | empty =>
      simp [NickNode.shape, CJson.Shape.children] at hmem

/-- The list after such a message of a listed user. -/
theorem syncsNickname_of_short :
    ∃ info found list', danmuInfo nickJson (openRoom NickNode)
        (messageInfo nickJson (.msg 50500335 joinText)) = some info ∧
      searchUserInList nickJson (info.withCommand joinText)
        (some (.list [(1, danmuText), (50500335, danmuText)])) = some (found, list') ∧
      SyncsNickname nickJson nickNumber 50500335 joinText
        (some (.list [(1, danmuText), (50500335, danmuText)])) found list' := by
  have hwell : WellFormed nickJson nickNumber (.msg 50500335 joinText) 50500335 joinText := by
    constructor
    · decide +kernel
    · decide +kernel
    · decide +kernel
    · decide +kernel
    · decide +kernel
    · decide +kernel
  have hhost : Comparable nickJson (openRoom NickNode) (.msg 50500335 joinText) := by
    have hnone : medalHost nickJson (.msg 50500335 joinText) = none := by decide +kernel
    simp [Comparable, hnone]
  have hown : ∀ item ∈ listItems nickJson (some (.list [(1, danmuText), (50500335, danmuText)])),
      ReadAs nickJson nickNumber 50500335 item → BelongsTo nickJson nickNumber 50500335 item := by
    decide +kernel
  have hnumeric : Numeric nickJson nickNumber
      (some (.list [(1, danmuText), (50500335, danmuText)])) := by
    unfold Numeric
    decide +kernel
  obtain ⟨info, hinfo⟩ := Option.isSome_iff_exists.mp (hwell.danmuInfo_isSome.mpr hhost)
  obtain ⟨found, list', hsearch, hsyncs⟩ := (syncsNickname_iff nickJson_saturates
    nickJson_setsNicknames hwell rfl hinfo hnumeric).mpr (by
      intro i item hfirst
      rw [if_pos (hown item hfirst.mem hfirst.holds)]
      decide +kernel)
  exact ⟨info, found, list', hinfo, hsearch, hsyncs⟩

/-- A nickname of 32 bytes. -/
def longNick : CString := ⟨List.replicate 32 97, by decide⟩

/-- Its first 31 bytes. -/
def cutNick : CString := ⟨List.replicate 31 97, by decide⟩

/-- The entry has the nickname of the message already, and is shortened all the same. -/
theorem exists_nickname_cut :
    ∃ info, danmuInfo nickJson (openRoom NickNode)
        (messageInfo nickJson (.msg 1 longNick)) = some info ∧
      searchUserInList nickJson (info.withCommand joinText) (some (.list [(1, longNick)])) =
        some (true, some (.list [(1, cutNick)])) ∧
      ¬ SyncsNickname nickJson nickNumber 1 longNick (some (.list [(1, longNick)])) true
        (some (.list [(1, cutNick)])) := by
  have htest : (danmuInfo nickJson (openRoom NickNode)
      (messageInfo nickJson (.msg 1 longNick))).any (fun info =>
        searchUserInList nickJson (info.withCommand joinText) (some (.list [(1, longNick)])) =
          some (true, some (.list [(1, cutNick)]))) = true := by
    decide +kernel
  obtain ⟨info, hinfo, hsearch⟩ := (Option.any_eq_true _ _).mp htest
  refine ⟨info, hinfo, of_decide_eq_true hsearch, fun hsyncs => ?_⟩
  have hfirst : IsFirst (listItems nickJson (some (.list [(1, longNick)])))
      (BelongsTo nickJson nickNumber 1) 0 (.entry 1 longNick) := by
    constructor
    · rfl
    · decide +kernel
    · intro j hj
      exact absurd hj (Nat.not_lt_zero j)
  have hsame := hsyncs.idle rfl 0 _ hfirst (by decide +kernel)
  exact absurd hsame (by decide +kernel)

end BliveQueue.Callbacks
