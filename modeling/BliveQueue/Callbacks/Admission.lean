/-
# Who is admitted to the queue

The uids of the filter lists are strings of digits, and the `valueint` of a string is
zero. A search in such a list therefore finds the user with the uid zero, in its first
entry, and nobody else, so that the blacklist keeps nobody out. The decision is still
right for all users but those who are in the blacklist only.
-/

import BliveQueue.Callbacks.Message
import BliveQueue.Callbacks.Search

namespace BliveQueue.Callbacks

open BliveQueue.Config BliveQueue.Math.CharBuffer
open BliveQueue.Utils BliveQueue.Utils.QList

variable {Json : Type} {cjson : CJson Json} {number : Json → Option ℤ}
  {conf : BliveExtCfg Json} {msg : Json} {info : UserInfo} {u : ℤ} {body : CString}

/-! ## Filter lists -/

/-- A text of one or more decimal digits. -/
def IsDecimal (s : List UInt8) : Prop := s ≠ [] ∧ ∀ c ∈ s, 48 ≤ c ∧ c ≤ 57

/-- The number that a text of decimal digits stands for. -/
def decimalValue (s : List UInt8) : ℕ := s.foldl (fun n c => 10 * n + (c.toNat - 48)) 0

/-- Every entry of a list has a uid of decimal digits and a nickname. -/
def Documented (cjson : CJson Json) (list : Option Json) : Prop :=
  ∀ item ∈ listItems cjson list,
    (∃ uid ∈ cjson.text (cjson.getObjectItem (some item) "uid"), IsDecimal uid.val) ∧
      (cjson.text (cjson.getObjectItem (some item) "昵称")).isSome

/-- A list has an entry with some uid. -/
def Listed (cjson : CJson Json) (list : Option Json) (u : ℤ) : Prop :=
  ∃ item ∈ listItems cjson list,
    ∃ uid ∈ cjson.text (cjson.getObjectItem (some item) "uid"), (decimalValue uid.val : ℤ) = u

instance (s : List UInt8) : Decidable (IsDecimal s) :=
  inferInstanceAs (Decidable (s ≠ [] ∧ ∀ c ∈ s, 48 ≤ c ∧ c ≤ 57))

instance (cjson : CJson Json) (list : Option Json) : Decidable (Documented cjson list) :=
  inferInstanceAs (Decidable (∀ item ∈ listItems cjson list,
    (∃ uid ∈ cjson.text (cjson.getObjectItem (some item) "uid"), IsDecimal uid.val) ∧
      (cjson.text (cjson.getObjectItem (some item) "昵称")).isSome))

instance (cjson : CJson Json) (list : Option Json) (u : ℤ) : Decidable (Listed cjson list u) :=
  inferInstanceAs (Decidable (∃ item ∈ listItems cjson list,
    ∃ uid ∈ cjson.text (cjson.getObjectItem (some item) "uid"), (decimalValue uid.val : ℤ) = u))

/-- `search_user_in_list` finds a user in a list of the documented shape. -/
def Finds (cjson : CJson Json) (list : Option Json) (uid : UInt32) : Prop :=
  uid = 0 ∧ listItems cjson list ≠ []

/-- The uid of a documented entry is read as zero. -/
theorem Documented.hasUid_iff {list : Option Json} (h : Documented cjson list)
    (hzero : cjson.ZeroStrings) {item : Json} (hitem : item ∈ listItems cjson list)
    {uid : UInt32} : HasUid cjson uid item ↔ uid = 0 := by
  obtain ⟨⟨text, htext, -⟩, -⟩ := h item hitem
  obtain ⟨node, hnode, htext⟩ := Option.bind_eq_some_iff.mp htext
  have hvalue : (cjson.valueint node).toUInt32 = 0 := by rw [hzero node text htext]; rfl
  simp [HasUid, hnode, hvalue, eq_comm]

/-- The user zero is found if there is an entry, and nobody else. -/
theorem Documented.firstEntry_isSome_iff {list : Option Json} (h : Documented cjson list)
    (hzero : cjson.ZeroStrings) {uid : UInt32} :
    (firstEntry cjson uid list).isSome ↔ Finds cjson list uid := by
  rw [isSome_firstEntry_iff]
  constructor
  · intro hfound
    obtain ⟨item, hitem, huid⟩ := hfound
    exact ⟨(h.hasUid_iff hzero hitem).mp huid, List.ne_nil_of_mem hitem⟩
  · intro hfinds
    obtain ⟨huid, hne⟩ := hfinds
    obtain ⟨item, hitem⟩ := List.exists_mem_of_ne_nil _ hne
    exact ⟨item, hitem, (h.hasUid_iff hzero hitem).mpr huid⟩

open Classical in
/-- The result of `search_user_in_list` on a list of the documented shape. -/
theorem searchUserInList_eq {list : Option Json} {name : CString} (hdoc : Documented cjson list)
    (hzero : cjson.ZeroStrings) (hname : toCString info.data.danmuSenderName.toList = some name) :
    ∃ list', searchUserInList cjson info list =
      some (decide (Finds cjson list info.data.danmuSenderUid), list') := by
  have hnamed : Named cjson info.data.danmuSenderUid list := by
    intro e he
    exact (hdoc e.1 (List.fst_mem_of_mem_zipIdx (List.mem_of_find?_eq_some he))).2
  obtain ⟨⟨found, list'⟩, hsearch⟩ :=
    Option.isSome_iff_exists.mp ((searchUserInList_isSome_iff hname list).mpr hnamed)
  refine ⟨list', ?_⟩
  have hanswer := searchUserInList_answer hname hsearch
  have hiff : (firstEntry cjson info.data.danmuSenderUid list).isSome ↔
      Finds cjson list info.data.danmuSenderUid := hdoc.firstEntry_isSome_iff hzero
  rw [hsearch, hanswer, Bool.eq_iff_iff.mpr (hiff.trans decide_eq_true_iff.symm)]

/-! ## The decision -/

/-- The lists let a user through: he is in the whitelist, or not in the blacklist. -/
def Admits (cjson : CJson Json) (filter : FilterConfig Json) (u : ℤ) : Prop :=
  Listed cjson filter.whitelist u ∨ ¬ Listed cjson filter.blacklist u

/-- What `danmu_callback` sends is right for the text, the sender and the lists. -/
structure Decides (cjson : CJson Json) (filter : FilterConfig Json) (u : ℤ) (body : CString)
    (sent : Option UserInfo) : Prop where
  isSome : sent.isSome ↔ IsCommand body ∧ Admits cjson filter u
  record : ∀ info ∈ sent, info.data.danmuSenderUid.toInt32.toInt = u ∧
    (info.data.cancelQueueUp = true ↔ body.val = literal "取消排队")

/-- The lists let a user through who is searched for by the `valueint` of the entries. -/
def AdmitsFound (cjson : CJson Json) (filter : FilterConfig Json) (uid : UInt32) : Prop :=
  Finds cjson filter.whitelist uid ∨ ¬ Finds cjson filter.blacklist uid

/-- The condition on the lists: the search lets everybody through but the user zero, whom
only an empty blacklist or a whitelist with an entry lets through. -/
def SearchAgrees (cjson : CJson Json) (filter : FilterConfig Json) (u : ℤ) : Prop :=
  if u = 0 then
    (listItems cjson filter.whitelist ≠ [] ∨ listItems cjson filter.blacklist = [] ↔
      Admits cjson filter 0)
  else Admits cjson filter u

/-- A user is let through by the search exactly if it agrees with the lists or both keep
him out. -/
theorem searchAgrees_iff {filter : FilterConfig Json} {uid : UInt32}
    (huid : uid.toInt32.toInt = u) :
    SearchAgrees cjson filter u ↔ (AdmitsFound cjson filter uid ↔ Admits cjson filter u) := by
  have hzero : uid = 0 ↔ u = 0 := by
    constructor
    · intro h
      rw [← huid, h]
      rfl
    · intro h
      have hint : uid.toInt32 = (0 : UInt32).toInt32 := Int32.toInt_inj.mp (huid.trans h)
      exact congrArg Int32.toUInt32 hint
  by_cases hu : u = 0
  · simp [SearchAgrees, AdmitsFound, Finds, hzero, hu]
  · simp [SearchAgrees, AdmitsFound, Finds, hzero, hu]

open Classical in
/-- What is sent for a record with a terminated nickname. -/
theorem admitUser_eq {name : CString} (hwhite : Documented cjson conf.filterConfig.whitelist)
    (hblack : Documented cjson conf.filterConfig.blacklist) (hzero : cjson.ZeroStrings)
    (hname : toCString info.data.danmuSenderName.toList = some name) :
    ∃ conf', admitUser cjson conf info =
      some (if AdmitsFound cjson conf.filterConfig info.data.danmuSenderUid then some info
        else none, conf') := by
  obtain ⟨whitelist, hsearch⟩ := searchUserInList_eq hwhite hzero hname
  obtain ⟨blacklist, hsearch'⟩ := searchUserInList_eq hblack hzero hname
  simp only [admitUser, hsearch, hsearch', Option.bind_eq_bind, Option.bind_some, decide_eq_true_eq,
    AdmitsFound]
  by_cases htrusted : Finds cjson conf.filterConfig.whitelist info.data.danmuSenderUid
  · simp [htrusted]
  · by_cases hbanned : Finds cjson conf.filterConfig.blacklist info.data.danmuSenderUid
    · simp [htrusted, hbanned]
    · simp [htrusted, hbanned]

/-- What `danmu_callback` sends for a record that could be filled in. -/
theorem WellFormed.exists_sent (hwell : WellFormed cjson number msg u body)
    (hinfo : danmuInfo cjson conf (messageInfo cjson msg) = some info)
    (hwhite : Documented cjson conf.filterConfig.whitelist)
    (hblack : Documented cjson conf.filterConfig.blacklist) (hzero : cjson.ZeroStrings) :
    ∃ sent conf', danmuCallback cjson conf msg = some (sent, conf') ∧
      (sent.isSome ↔
        IsCommand body ∧ AdmitsFound cjson conf.filterConfig info.data.danmuSenderUid) ∧
      ∀ record ∈ sent, record = info.withCommand body := by
  by_cases hcommand : IsCommand body
  · obtain ⟨name, hname⟩ := (RecordOf.of_danmuInfo hinfo).exists_name
    have hname : toCString (info.withCommand body).data.danmuSenderName.toList = some name := hname
    obtain ⟨conf', hsent⟩ := admitUser_eq hwhite hblack hzero hname
    have huid : (info.withCommand body).data.danmuSenderUid = info.data.danmuSenderUid := rfl
    rw [huid] at hsent
    refine ⟨_, conf', (hwell.danmuCallback_eq hcommand hinfo).trans hsent, ?_, ?_⟩
    · simp [hcommand]
    · intro record hrecord
      split at hrecord
      · exact (Option.some.inj hrecord).symm
      · cases hrecord
  · refine ⟨none, conf, hwell.danmuCallback_eq_none hcommand hinfo, ?_, ?_⟩
    · simp [hcommand]
    · simp

/-- `danmu_callback` decides rightly about a message exactly if its host can be compared and
the search agrees with the lists about its sender. -/
theorem danmuCallback_decides_iff (hsat : cjson.Saturates number) (hzero : cjson.ZeroStrings)
    (hwhite : Documented cjson conf.filterConfig.whitelist)
    (hblack : Documented cjson conf.filterConfig.blacklist)
    (hwell : WellFormed cjson number msg u body) (hlower : -2 ^ 31 ≤ u) (hupper : u ≤ intMax) :
    (∃ sent conf', danmuCallback cjson conf msg = some (sent, conf') ∧
        Decides cjson conf.filterConfig u body sent) ↔
      Comparable cjson conf msg ∧
        (IsCommand body → SearchAgrees cjson conf.filterConfig u) := by
  rw [← hwell.danmuInfo_isSome]
  cases hinfo : danmuInfo cjson conf (messageInfo cjson msg) with
  | none => simp [danmuCallback_eq_none_of_danmuInfo hinfo]
  | some info =>
      have huid := (RecordOf.of_danmuInfo hinfo).uid_eq hsat hwell.uid hlower hupper
      obtain ⟨sent, conf', hsent, hsome, hrecord⟩ := hwell.exists_sent hinfo hwhite hblack hzero
      have hdecides : Decides cjson conf.filterConfig u body sent ↔
          (IsCommand body → SearchAgrees cjson conf.filterConfig u) := by
        rw [searchAgrees_iff huid]
        constructor
        · intro hright hcommand
          have hiff := hsome.symm.trans hright.isSome
          simpa [hcommand] using hiff
        · intro hagrees
          constructor
          · rw [hsome]
            constructor
            · intro hboth
              exact ⟨hboth.1, (hagrees hboth.1).mp hboth.2⟩
            · intro hboth
              exact ⟨hboth.1, (hagrees hboth.1).mpr hboth.2⟩
          · intro record hmem
            obtain rfl := hrecord record hmem
            refine ⟨huid, ?_⟩
            simp [UserInfo.withCommand]
      simp only [hsent, Option.some.injEq, Prod.mk.injEq, Option.isSome_some, true_and]
      constructor
      · intro hright
        obtain ⟨_, _, ⟨rfl, -⟩, hright⟩ := hright
        exact hdecides.mp hright
      · intro hagrees
        exact ⟨sent, conf', ⟨rfl, rfl⟩, hdecides.mpr hagrees⟩

/-! ## The shipped lists -/

/-- The places of the shipped filter lists and of a message from some sender. -/
inductive FilterNode
  | blacklist
  | whitelist
  | entry (uid name : String)
  | text (value : String)
  | msg (sender : ℤ)
  | info (sender : ℤ)
  | sender (uid : ℤ)
  | number (value : ℤ)
  | empty
  deriving DecidableEq

/-- The trees at these places. -/
def FilterNode.shape : FilterNode → CJson.Shape FilterNode
  | .blacklist =>
    .array [.entry "123123123" "111", .entry "456456456" "222", .entry "789789789" "333"]
  | .whitelist => .array [.entry "000000000" "000"]
  | .entry uid name => .object [("uid", .text uid), ("昵称", .text name)]
  | .text value => .string value
  | .msg uid => .object [("cmd", .text "DANMU_MSG"), ("info", .info uid)]
  | .info uid =>
    .array [.empty, .text "排队", .sender uid, .empty, .number 0, .number 0, .number 0, .number 0]
  | .sender uid => .array [.number uid, .text "属官一号", .number 0]
  | .number value => .number value
  | .empty => .array []

/-- cJSON on these trees. -/
def filterJson : CJson FilterNode := CJson.ofShape FilterNode.shape [] 0

/-- The numbers in these trees. -/
def filterNumber (node : FilterNode) : Option ℤ := node.shape.numberOf

/-- A configuration with the shipped lists. -/
def shippedConf : BliveExtCfg FilterNode where
  roomId := 1
  queueUpConfig := ⟨⟨false, true, true⟩, Vector.replicate _ 0, 0⟩
  colorConfig :=
    ⟨Vector.replicate _ 0, Vector.replicate _ 0, Vector.replicate _ 0, Vector.replicate _ 0⟩
  rearrangeConfig := ⟨false, false, 0, 0, false, 0⟩
  filterConfig := ⟨some .blacklist, some .whitelist⟩

theorem filterJson_saturates : filterJson.Saturates filterNumber :=
  CJson.ofShape_saturates FilterNode.shape [] 0

theorem filterJson_zeroStrings : filterJson.ZeroStrings :=
  CJson.ofShape_zeroStrings FilterNode.shape [] 0

theorem shippedConf_documented :
    Documented filterJson shippedConf.filterConfig.whitelist ∧
      Documented filterJson shippedConf.filterConfig.blacklist := by
  decide +kernel

/-- A message of the shape above is well formed if it is for two senders. -/
theorem wellFormed_msg {sender : ℤ} (h : sender = 123123123 ∨ sender = 50500335) :
    WellFormed filterJson filterNumber (.msg sender) sender joinText := by
  rcases h with rfl | rfl
  all_goals
    constructor
    · decide +kernel
    · decide +kernel
    · decide +kernel
    · decide +kernel
    · decide +kernel
    · decide +kernel

/-- A viewer who is in no list queues up. -/
theorem danmuCallback_decides_unlisted :
    ¬ Listed filterJson shippedConf.filterConfig.blacklist 50500335 ∧
      ∃ sent conf', danmuCallback filterJson shippedConf (.msg 50500335) = some (sent, conf') ∧
        Decides filterJson shippedConf.filterConfig 50500335 joinText sent := by
  have hunlisted : ¬ Listed filterJson shippedConf.filterConfig.blacklist 50500335 := by
    decide +kernel
  refine ⟨hunlisted, ?_⟩
  apply (danmuCallback_decides_iff filterJson_saturates filterJson_zeroStrings
    shippedConf_documented.1 shippedConf_documented.2 (wellFormed_msg (Or.inr rfl))
    (by decide) (by decide)).mpr
  constructor
  · intro host hhost
    have hnone : medalHost filterJson (.msg 50500335) = none := by decide +kernel
    rw [hnone] at hhost
    cases hhost
  · intro _
    exact Or.inr hunlisted

/-- The first entry of the shipped blacklist queues up all the same. -/
theorem exists_blacklisted_sent :
    ∃ sent conf', danmuCallback filterJson shippedConf (.msg 123123123) = some (sent, conf') ∧
      WellFormed filterJson filterNumber (.msg 123123123) 123123123 joinText ∧
      ¬ Listed filterJson shippedConf.filterConfig.whitelist 123123123 ∧
      Listed filterJson shippedConf.filterConfig.blacklist 123123123 ∧
      ¬ Decides filterJson shippedConf.filterConfig 123123123 joinText sent := by
  have hsome : ((danmuCallback filterJson shippedConf (.msg 123123123)).any
      fun r => r.1.isSome) = true := by decide +kernel
  have htrusted : ¬ Listed filterJson shippedConf.filterConfig.whitelist 123123123 := by
    decide +kernel
  have hbanned : Listed filterJson shippedConf.filterConfig.blacklist 123123123 := by
    decide +kernel
  obtain ⟨⟨sent, conf'⟩, hsent, hsome⟩ := (Option.any_eq_true _ _).mp hsome
  refine ⟨sent, conf', hsent, wellFormed_msg (Or.inl rfl), htrusted, hbanned, ?_⟩
  intro hright
  rcases (hright.isSome.mp hsome).2 with hlisted | hunlisted
  · exact htrusted hlisted
  · exact hunlisted hbanned

end BliveQueue.Callbacks
