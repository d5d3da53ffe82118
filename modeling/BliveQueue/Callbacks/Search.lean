/-
# The search in a filter list

`search_user_in_list` stops at the first entry whose uid is read as the number of the
user. Its answer and the list that it leaves depend on this entry alone: the entry must
have a nickname, and this one is overwritten if it is not the one in the record.
-/

import BliveQueue.Callbacks

namespace BliveQueue.Callbacks

open BliveQueue.Math.CharBuffer BliveQueue.Utils BliveQueue.Utils.QList

variable {Json : Type} {cjson : CJson Json} {info : UserInfo} {name : CString} {index : ℕ}

/-- The uid of an entry is read as some number. -/
def HasUid (cjson : CJson Json) (uid : UInt32) (item : Json) : Prop :=
  ∃ node ∈ cjson.getObjectItem (some item) "uid", (cjson.valueint node).toUInt32 = uid

instance (cjson : CJson Json) (uid : UInt32) (item : Json) : Decidable (HasUid cjson uid item) :=
  inferInstanceAs (Decidable
    (∃ node ∈ cjson.getObjectItem (some item) "uid", (cjson.valueint node).toUInt32 = uid))

/-- The nickname of an entry. -/
def nickname (cjson : CJson Json) (item : Json) : Option CString :=
  cjson.text (cjson.getObjectItem (some item) "昵称")

/-- The items of a list; a `NULL` list has none. -/
def listItems (cjson : CJson Json) (list : Option Json) : List Json :=
  (list.map cjson.children).getD []

/-- The first entry of a user in a list, and its index. -/
def firstEntry (cjson : CJson Json) (uid : UInt32) (list : Option Json) : Option (Json × ℕ) :=
  (listItems cjson list).zipIdx.find? fun e => HasUid cjson uid e.1

/-- An entry is found exactly if there is one of the user. -/
theorem isSome_firstEntry_iff {uid : UInt32} :
    (firstEntry cjson uid list).isSome ↔ ∃ item ∈ listItems cjson list, HasUid cjson uid item := by
  rw [firstEntry, List.find?_isSome]
  constructor
  · intro hfound
    obtain ⟨e, he, huid⟩ := hfound
    exact ⟨e.1, List.fst_mem_of_mem_zipIdx he, of_decide_eq_true huid⟩
  · intro hsome
    obtain ⟨item, hitem, huid⟩ := hsome
    obtain ⟨i, hi⟩ := List.mem_iff_getElem?.mp hitem
    exact ⟨(item, i), List.mem_zipIdx_iff_getElem?.mpr hi, decide_eq_true huid⟩

/-- A list after the search has found the user in it. -/
def syncName (cjson : CJson Json) (list : Option Json) (index : ℕ) (old name : CString) :
    Option Json :=
  if old.val = name.val then list
  else list.map fun list => cjson.setItemString list index (literal "昵称") name

/-- The loop looks at the first entry of the user. -/
theorem searchLoop_eq (hname : toCString info.data.danmuSenderName.toList = some name)
    (list : Json) (items : List Json) (index : ℕ) :
    (searchLoop cjson info list index items).map (fun r => (r.1, some r.2)) =
      match (items.zipIdx index).find? fun e => HasUid cjson info.data.danmuSenderUid e.1 with
      | none => some (false, some list)
      | some (item, i) => (nickname cjson item).map fun old =>
          (true, syncName cjson (some list) i old name) := by
  induction items generalizing index with
  | nil => rfl
  | cons item items ih =>
      rw [List.zipIdx_cons, List.find?_cons]
      cases hnode : cjson.getObjectItem (some item) "uid" with
      | none =>
          have hother : ¬ HasUid cjson info.data.danmuSenderUid item := by simp [HasUid, hnode]
          simp only [searchLoop, hnode, hother, decide_false]
          exact ih (index + 1)
      | some node =>
          by_cases huid : (cjson.valueint node).toUInt32 = info.data.danmuSenderUid
          · have hfound : HasUid cjson info.data.danmuSenderUid item := ⟨node, hnode, huid⟩
            simp only [searchLoop, hnode, if_pos huid, hfound, decide_true, nickname, hname,
              Option.bind_eq_bind, Option.bind_some]
            cases cjson.text (cjson.getObjectItem (some item) "昵称") with
            | none => rfl
            | some old => by_cases hsame : old.val = name.val <;> simp [syncName, hsame]
          · have hother : ¬ HasUid cjson info.data.danmuSenderUid item := by
              simp [HasUid, hnode, huid]
            simp only [searchLoop, hnode, if_neg huid, hother, decide_false]
            exact ih (index + 1)

/-- What `search_user_in_list` answers and leaves. -/
theorem searchUserInList_eq_firstEntry
    (hname : toCString info.data.danmuSenderName.toList = some name) (list : Option Json) :
    searchUserInList cjson info list =
      match firstEntry cjson info.data.danmuSenderUid list with
      | none => some (false, list)
      | some (item, i) => (nickname cjson item).map fun old =>
          (true, syncName cjson list i old name) := by
  cases list with
  | none => rfl
  | some list => exact searchLoop_eq hname list (cjson.children list) 0

/-- The search goes well if the first entry of the user has a nickname. -/
def Named (cjson : CJson Json) (uid : UInt32) (list : Option Json) : Prop :=
  ∀ e ∈ firstEntry cjson uid list, (nickname cjson e.1).isSome

theorem searchUserInList_isSome_iff
    (hname : toCString info.data.danmuSenderName.toList = some name) (list : Option Json) :
    (searchUserInList cjson info list).isSome ↔ Named cjson info.data.danmuSenderUid list := by
  rw [searchUserInList_eq_firstEntry hname, Named]
  cases firstEntry cjson info.data.danmuSenderUid list with
  | none => simp
  | some e => simp

/-- The answer says whether there is an entry of the user. -/
theorem searchUserInList_answer {list list' : Option Json} {found : Bool}
    (hname : toCString info.data.danmuSenderName.toList = some name)
    (h : searchUserInList cjson info list = some (found, list')) :
    found = (firstEntry cjson info.data.danmuSenderUid list).isSome := by
  rw [searchUserInList_eq_firstEntry hname] at h
  cases hfirst : firstEntry cjson info.data.danmuSenderUid list with
  | none =>
      rw [hfirst] at h
      exact (Prod.mk.inj (Option.some.inj h)).1.symm
  | some e =>
      rw [hfirst] at h
      obtain ⟨old, -, heq⟩ := Option.map_eq_some_iff.mp h
      exact (Prod.mk.inj heq).1.symm

end BliveQueue.Callbacks
