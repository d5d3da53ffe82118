/-
# Well-formed messages

What `danmu_callback` reads of a message, and the record that it makes of a message in
which everything is there. The record has a terminated nickname, the uid and the fleet
level of the sender, and a flag that says whether a medal is from another room.
-/

import BliveQueue.Callbacks

namespace BliveQueue.Callbacks

open BliveQueue.Config BliveQueue.Math.CharBuffer
open BliveQueue.Utils BliveQueue.Utils.QList

variable {Json : Type} {cjson : CJson Json} {number : Json → Option ℤ}
  {conf : BliveExtCfg Json} {msg : Json} {info : UserInfo} {u : ℤ} {body : CString}

/-- `INT_MAX`. -/
def intMax : ℤ := 2 ^ 31 - 1

/-- Two saturated numbers become one anchorage exactly if they are equal as C `int`s. -/
theorem valueint_eq_iff (hsat : cjson.Saturates number) {item item' : Json} {u v : ℤ}
    (hu : number item = some u) (hv : number item' = some v) :
    (cjson.valueint item).toUInt32 = (cjson.valueint item').toUInt32 ↔
      max (-2 ^ 31) (min u intMax) = max (-2 ^ 31) (min v intMax) := by
  have hint : (cjson.valueint item).toUInt32 = (cjson.valueint item').toUInt32 ↔
      cjson.valueint item = cjson.valueint item' :=
    ⟨fun h => by
      cases hitem : cjson.valueint item
      cases hitem' : cjson.valueint item'
      rw [hitem, hitem'] at h
      exact congrArg Int32.ofUInt32 h, fun h => by rw [h]⟩
  rw [hint, ← Int32.toInt_inj, hsat item u hu, hsat item' v hv]
  rfl

/-- The uid of the sender, `info[2][0]`, as the message has it. -/
def senderUid (cjson : CJson Json) (number : Json → Option ℤ) (msg : Json) : Option ℤ :=
  (cjson.getArrayItem (cjson.getArrayItem (cjson.getObjectItem (some msg) "info") 2) 0).bind number

/-- The array `info` of a message. -/
def messageInfo (cjson : CJson Json) (msg : Json) : Option Json :=
  cjson.getObjectItem (some msg) "info"

/-- The host on the medal of the sender, `info[3][2]`, if there is a medal. -/
def medalHost (cjson : CJson Json) (msg : Json) : Option CString :=
  let medal := cjson.getArrayItem (messageInfo cjson msg) 3
  (cjson.getArrayItem medal 0).bind fun _ => cjson.text (cjson.getArrayItem medal 2)

/-- A `DANMU_MSG` with a text and the uid of its sender, in which nothing is missing. -/
structure WellFormed (cjson : CJson Json) (number : Json → Option ℤ) (msg : Json) (u : ℤ)
    (body : CString) : Prop where
  body : cjson.text (cjson.getArrayItem (messageInfo cjson msg) 1) = some body
  uid : senderUid cjson number msg = some u
  name : (cjson.text
    (cjson.getArrayItem (cjson.getArrayItem (messageInfo cjson msg) 2) 1)).isSome
  manager : (cjson.getArrayItem (cjson.getArrayItem (messageInfo cjson msg) 2) 2).isSome
  fleetLv : (cjson.getArrayItem (messageInfo cjson msg) 7).isSome
  medal : ∀ level ∈ cjson.getArrayItem (cjson.getArrayItem (messageInfo cjson msg) 3) 0,
    (cjson.text (cjson.getArrayItem (cjson.getArrayItem (messageInfo cjson msg) 3) 1)).isSome ∧
      (medalHost cjson msg).isSome

/-- Everything that the record for a message is filled in from is there. -/
structure Complete (cjson : CJson Json) (msg : Json) : Prop where
  uid : (cjson.getArrayItem (cjson.getArrayItem (messageInfo cjson msg) 2) 0).isSome
  name : (cjson.text
    (cjson.getArrayItem (cjson.getArrayItem (messageInfo cjson msg) 2) 1)).isSome
  manager : (cjson.getArrayItem (cjson.getArrayItem (messageInfo cjson msg) 2) 2).isSome
  fleetLv : (cjson.getArrayItem (messageInfo cjson msg) 7).isSome
  medal : ∀ level ∈ cjson.getArrayItem (cjson.getArrayItem (messageInfo cjson msg) 3) 0,
    (cjson.text (cjson.getArrayItem (cjson.getArrayItem (messageInfo cjson msg) 3) 1)).isSome ∧
      (medalHost cjson msg).isSome

/-- The host name can be compared with the one on the medal: it has a zero, or it differs
before its array ends. -/
def Comparable (cjson : CJson Json) (conf : BliveExtCfg Json) (msg : Json) : Prop :=
  ∀ host ∈ medalHost cjson msg,
    (equalsString conf.queueUpConfig.hostName.toList host.val).isSome

/-- The texts that ask for a place in the queue or give it up. -/
def IsCommand (body : CString) : Prop := body.val = literal "排队" ∨ body.val = literal "取消排队"

/-- The text that asks for a place. -/
def joinText : CString := ⟨literal "排队", by decide +kernel⟩

/-- What the record for a message holds before the text decides about it. -/
structure RecordOf (cjson : CJson Json) (conf : BliveExtCfg Json) (msg : Json)
    (info : UserInfo) : Prop where
  infoType : info.infoType = .danmuMsg
  uid : ∃ uid,
    cjson.getArrayItem (cjson.getArrayItem (messageInfo cjson msg) 2) 0 = some uid ∧
      info.data.danmuSenderUid = (cjson.valueint uid).toUInt32
  name : ∃ name,
    cjson.text (cjson.getArrayItem (cjson.getArrayItem (messageInfo cjson msg) 2) 1) = some name ∧
      info.data.danmuSenderName =
        strncpy QlistUnitData.zero.danmuSenderName name (defaultNameLen - 1)
  fleetLv : (cjson.int (cjson.getArrayItem (messageInfo cjson msg) 7)).map Int32.toUInt32 =
    some info.data.fleetLv
  medal : info.data.fansPriceIsCurLiveroom = true ↔ ∃ host, medalHost cjson msg = some host ∧
    equalsString conf.queueUpConfig.hostName.toList host.val = some false

/-- Whatever is filled in is the record for the message. -/
theorem RecordOf.of_danmuInfo
    (h : danmuInfo cjson conf (messageInfo cjson msg) = some info) :
    RecordOf cjson conf msg info := by
  simp only [danmuInfo, Option.bind_eq_bind, Option.bind_eq_some_iff] at h
  obtain ⟨uid, huid, name, hname, manager, -, fleetLv, hfleet, hrest⟩ := h
  obtain ⟨item, hitem, rfl⟩ := Option.map_eq_some_iff.mp huid
  split at hrest
  next hmedal =>
    obtain rfl := Option.some.inj hrest
    constructor
    · rfl
    · exact ⟨item, hitem, rfl⟩
    · exact ⟨name, hname, rfl⟩
    · rw [hfleet]
      rfl
    · constructor
      · intro hflag
        cases hflag
      · intro hhost
        obtain ⟨host, hhost, -⟩ := hhost
        simp [medalHost, hmedal] at hhost
  next level hmedal =>
    simp only [Option.bind_eq_some_iff, Option.some.injEq] at hrest
    obtain ⟨priceName, -, host, hhost, sameHost, hsame, rfl⟩ := hrest
    have hmedalHost : medalHost cjson msg = some host := by
      rw [medalHost, hmedal]
      exact hhost
    constructor
    · rfl
    · exact ⟨item, hitem, rfl⟩
    · exact ⟨name, hname, rfl⟩
    · rw [hfleet]
      rfl
    · simp only [Bool.not_eq_true']
      constructor
      · intro hflag
        exact ⟨host, hmedalHost, hflag ▸ hsame⟩
      · intro hother
        obtain ⟨host', hhost', hdiffers⟩ := hother
        obtain rfl := Option.some.inj (hmedalHost.symm.trans hhost')
        exact Option.some.inj (hsame.symm.trans hdiffers)

/-- A record depends on the host name only. -/
theorem RecordOf.of_rules {conf' : BliveExtCfg Json} (h : RecordOf cjson conf msg info)
    (hrules : conf.queueUpConfig = conf'.queueUpConfig) : RecordOf cjson conf' msg info where
  infoType := h.infoType
  uid := h.uid
  name := h.name
  fleetLv := h.fleetLv
  medal := hrules ▸ h.medal

/-- Whatever the lists say, they hold the record back or let it pass as it is, and the rules
stay. -/
theorem admitUser_cases {conf' : BliveExtCfg Json} {sent : Option UserInfo}
    (h : admitUser cjson conf info = some (sent, conf')) :
    (sent = none ∨ sent = some info) ∧ conf'.queueUpConfig = conf.queueUpConfig := by
  simp only [admitUser, Option.bind_eq_bind, Option.bind_eq_some_iff] at h
  obtain ⟨⟨trusted, whitelist⟩, -, h⟩ := h
  cases trusted with
  | true =>
      obtain ⟨rfl, rfl⟩ := Prod.mk.inj (Option.some.inj h)
      exact ⟨Or.inr rfl, rfl⟩
  | false =>
      simp only [Bool.false_eq_true, ↓reduceIte, Option.bind_eq_some_iff] at h
      obtain ⟨⟨banned, blacklist⟩, -, h⟩ := h
      obtain ⟨rfl, rfl⟩ := Prod.mk.inj (Option.some.inj h)
      cases banned with
      | true => exact ⟨Or.inl rfl, rfl⟩
      | false => exact ⟨Or.inr rfl, rfl⟩

/-- What `danmu_callback` sends, if anything, is the record it has filled in, up to the flag
of the command, and the rules stay. -/
theorem danmuCallback_cases {conf' : BliveExtCfg Json} {sent : Option UserInfo}
    (h : danmuCallback cjson conf msg = some (sent, conf')) :
    ∃ filled, danmuInfo cjson conf (messageInfo cjson msg) = some filled ∧
      (sent = none ∨ ∃ cancel,
        sent = some { filled with data := { filled.data with cancelQueueUp := cancel } }) ∧
      conf'.queueUpConfig = conf.queueUpConfig := by
  simp only [danmuCallback, Option.bind_eq_bind, Option.bind_eq_some_iff] at h
  obtain ⟨danmuBody, -, filled, hfilled, h⟩ := h
  refine ⟨filled, hfilled, ?_⟩
  split at h
  · obtain ⟨hsent, hrules⟩ := admitUser_cases h
    exact ⟨hsent.imp_right fun heq => ⟨false, heq⟩, hrules⟩
  · split at h
    · obtain ⟨hsent, hrules⟩ := admitUser_cases h
      exact ⟨hsent.imp_right fun heq => ⟨true, heq⟩, hrules⟩
    · obtain ⟨rfl, rfl⟩ := Prod.mk.inj (Option.some.inj h)
      exact ⟨Or.inl rfl, rfl⟩

/-- What is sent for a message is its record. -/
theorem RecordOf.of_danmuCallback {conf' : BliveExtCfg Json}
    (h : danmuCallback cjson conf msg = some (some info, conf')) :
    RecordOf cjson conf msg info := by
  obtain ⟨filled, hfilled, hsent, -⟩ := danmuCallback_cases h
  have hrecord : RecordOf cjson conf msg filled := .of_danmuInfo hfilled
  rcases hsent with hnone | ⟨cancel, hsome⟩
  · cases hnone
  · obtain rfl := Option.some.inj hsome
    exact ⟨hrecord.infoType, hrecord.uid, hrecord.name, hrecord.fleetLv, hrecord.medal⟩

/-- The rules of the configuration stay. -/
theorem danmuCallback_rules {conf' : BliveExtCfg Json} {sent : Option UserInfo}
    (h : danmuCallback cjson conf msg = some (sent, conf')) :
    conf'.queueUpConfig = conf.queueUpConfig := by
  obtain ⟨-, -, -, hrules⟩ := danmuCallback_cases h
  exact hrules

/-- What arrives is what `danmu_callback` has sent. -/
theorem callback_of_step {state state' : LiveroomState Json}
    {label : LiveroomLabel Json} (taken : (liveroomSystem cjson conf).step state label state')
    (hinfo : info ∈ label.arrived) :
    danmuCallback cjson state.conf label.msg = some (some info, state'.conf) := by
  obtain ⟨-, ⟨sent, hsent, harrived⟩, -⟩ := taken
  rcases harrived with hnone | hsame
  · rw [hnone] at hinfo
    cases hinfo
  · rwa [← hsame, show label.arrived = some info from hinfo] at hsent

/-- The host is read once there is a level. -/
theorem medalHost_eq {level : Json}
    (hlevel : cjson.getArrayItem (cjson.getArrayItem (messageInfo cjson msg) 3) 0 = some level) :
    medalHost cjson msg =
      cjson.text (cjson.getArrayItem (cjson.getArrayItem (messageInfo cjson msg) 3) 2) := by
  rw [medalHost, hlevel, Option.bind_some]

/-- A record is filled in from the medal's two names and the comparison of the hosts. -/
theorem exists_medal_of_danmuInfo {level : Json}
    (h : danmuInfo cjson conf (messageInfo cjson msg) = some info)
    (hlevel : cjson.getArrayItem (cjson.getArrayItem (messageInfo cjson msg) 3) 0 = some level) :
    ∃ priceName host same,
      cjson.text (cjson.getArrayItem (cjson.getArrayItem (messageInfo cjson msg) 3) 1) =
        some priceName ∧
      medalHost cjson msg = some host ∧
      equalsString conf.queueUpConfig.hostName.toList host.val = some same := by
  simp only [danmuInfo, hlevel, Option.bind_eq_bind, Option.bind_eq_some_iff] at h
  obtain ⟨uid, -, name, -, manager, -, fleetLv, -, hmedal⟩ := h
  obtain ⟨priceName, hprice, host, hhost, same, hsame, -⟩ := hmedal
  exact ⟨priceName, host, same, hprice, (medalHost_eq hlevel).trans hhost, hsame⟩

/-- A message for which a record is filled in is complete. -/
theorem complete_of_danmuInfo (h : danmuInfo cjson conf (messageInfo cjson msg) = some info) :
    Complete cjson msg := by
  have hinfo := h
  simp only [danmuInfo, Option.bind_eq_bind, Option.bind_eq_some_iff] at hinfo
  obtain ⟨uid, huid, name, hname, manager, hmanager, fleetLv, hfleet, -⟩ := hinfo
  obtain ⟨uidItem, huid, -⟩ := Option.map_eq_some_iff.mp huid
  obtain ⟨managerItem, hmanager, -⟩ := Option.map_eq_some_iff.mp hmanager
  obtain ⟨fleetItem, hfleet, -⟩ := Option.map_eq_some_iff.mp hfleet
  refine ⟨by rw [huid]; rfl, by rw [hname]; rfl, by rw [hmanager]; rfl, by rw [hfleet]; rfl, ?_⟩
  intro level hlevel
  obtain ⟨priceName, host, same, hprice, hhost, -⟩ := exists_medal_of_danmuInfo h hlevel
  rw [hprice, hhost]
  exact ⟨rfl, rfl⟩

/-- A message for which a record is filled in has a host that could be compared. -/
theorem comparable_of_danmuInfo (h : danmuInfo cjson conf (messageInfo cjson msg) = some info) :
    Comparable cjson conf msg := by
  intro host hhost
  obtain ⟨level, hlevel, -⟩ := Option.bind_eq_some_iff.mp hhost
  obtain ⟨priceName, host', same, -, hhost', hsame⟩ := exists_medal_of_danmuInfo h hlevel
  obtain rfl := Option.some.inj (hhost'.symm.trans hhost)
  rw [hsame]
  rfl

/-- A record is filled in for a complete message whose host can be compared. -/
theorem Complete.danmuInfo_isSome (h : Complete cjson msg)
    (hcomparable : Comparable cjson conf msg) :
    (danmuInfo cjson conf (messageInfo cjson msg)).isSome := by
  obtain ⟨uid, huid⟩ := Option.isSome_iff_exists.mp h.uid
  obtain ⟨name, hname⟩ := Option.isSome_iff_exists.mp h.name
  obtain ⟨manager, hmanager⟩ := Option.isSome_iff_exists.mp h.manager
  obtain ⟨fleetLv, hfleet⟩ := Option.isSome_iff_exists.mp h.fleetLv
  cases hmedal : cjson.getArrayItem (cjson.getArrayItem (messageInfo cjson msg) 3) 0 with
  | none => simp [danmuInfo, CJson.int, huid, hname, hmanager, hfleet, hmedal]
  | some level =>
      obtain ⟨hprice, hhost⟩ := h.medal level hmedal
      obtain ⟨priceName, hprice⟩ := Option.isSome_iff_exists.mp hprice
      obtain ⟨host, hhost⟩ := Option.isSome_iff_exists.mp hhost
      obtain ⟨same, hsame⟩ := Option.isSome_iff_exists.mp (hcomparable host hhost)
      rw [medalHost_eq hmedal] at hhost
      simp [danmuInfo, CJson.int, huid, hname, hmanager, hfleet, hmedal, hprice, hhost, hsame]

/-- A record can be filled in exactly if the message is complete and the comparison of the
hosts ends. -/
theorem danmuInfo_isSome_iff :
    (danmuInfo cjson conf (messageInfo cjson msg)).isSome ↔
      Complete cjson msg ∧ Comparable cjson conf msg := by
  constructor
  · intro hsome
    obtain ⟨info, hinfo⟩ := Option.isSome_iff_exists.mp hsome
    exact ⟨complete_of_danmuInfo hinfo, comparable_of_danmuInfo hinfo⟩
  · intro h
    exact h.1.danmuInfo_isSome h.2

theorem WellFormed.complete (h : WellFormed cjson number msg u body) : Complete cjson msg where
  uid := by
    obtain ⟨uid, huid, -⟩ := Option.bind_eq_some_iff.mp h.uid
    exact Option.isSome_iff_exists.mpr ⟨uid, huid⟩
  name := h.name
  manager := h.manager
  fleetLv := h.fleetLv
  medal := h.medal

/-- For a well-formed message the comparison of the hosts decides. -/
theorem WellFormed.danmuInfo_isSome (h : WellFormed cjson number msg u body) :
    (danmuInfo cjson conf (messageInfo cjson msg)).isSome ↔ Comparable cjson conf msg := by
  rw [danmuInfo_isSome_iff]
  exact and_iff_right h.complete

/-- The nickname in a record is terminated. -/
theorem RecordOf.zero_mem_name (h : RecordOf cjson conf msg info) :
    0 ∈ info.data.danmuSenderName.toList := by
  obtain ⟨name, -, hcopy⟩ := h.name
  rw [hcopy, toList_strncpy _ _ (by decide), List.mem_append, List.mem_append]
  exact Or.inr (Or.inr (by decide))

theorem RecordOf.exists_name (h : RecordOf cjson conf msg info) :
    ∃ name, toCString info.data.danmuSenderName.toList = some name :=
  ⟨_, if_pos h.zero_mem_name⟩

theorem number_of_senderUid {item : Json}
    (hitem : cjson.getArrayItem (cjson.getArrayItem (messageInfo cjson msg) 2) 0 = some item)
    (hu : senderUid cjson number msg = some u) : number item = some u := by
  have hu : (cjson.getArrayItem (cjson.getArrayItem (messageInfo cjson msg) 2) 0).bind number =
      some u := hu
  rwa [hitem] at hu

/-- The uid in a record is the one in the message, if that is a C `int`. -/
theorem RecordOf.uid_eq (h : RecordOf cjson conf msg info) (hsat : cjson.Saturates number)
    (hu : senderUid cjson number msg = some u) (hlower : -2 ^ 31 ≤ u) (hupper : u ≤ intMax) :
    info.data.danmuSenderUid.toInt32.toInt = u := by
  obtain ⟨uid, hitem, huid⟩ := h.uid
  have hnumber : number uid = some u := number_of_senderUid hitem hu
  calc info.data.danmuSenderUid.toInt32.toInt
    _ = (cjson.valueint uid).toInt := by rw [huid]; rfl
    _ = max (-2 ^ 31) (min u (2 ^ 31 - 1)) := hsat uid u hnumber
    _ = u := by
      unfold intMax at hupper
      omega

/-- A record whose flag says whether the text gives a place up. -/
def UserInfo.withCommand (info : UserInfo) (body : CString) : UserInfo :=
  { info with data := { info.data with cancelQueueUp := body.val = literal "取消排队" } }

/-- The text of a well-formed message decides. -/
theorem WellFormed.danmuCallback_unfold (h : WellFormed cjson number msg u body)
    (hinfo : danmuInfo cjson conf (messageInfo cjson msg) = some info) :
    danmuCallback cjson conf msg =
      if body.val = literal "排队" then
        admitUser cjson conf { info with data := { info.data with cancelQueueUp := false } }
      else if body.val = literal "取消排队" then
        admitUser cjson conf { info with data := { info.data with cancelQueueUp := true } }
      else some (none, conf) := by
  have hbody : cjson.text (cjson.getArrayItem (cjson.getObjectItem (some msg) "info") 1) =
      some body := h.body
  have hinfo : danmuInfo cjson conf (cjson.getObjectItem (some msg) "info") = some info := hinfo
  simp only [danmuCallback, hbody, hinfo, Option.bind_eq_bind, Option.bind_some]

/-- A command goes to the filter lists. -/
theorem WellFormed.danmuCallback_eq (h : WellFormed cjson number msg u body)
    (hcommand : IsCommand body)
    (hinfo : danmuInfo cjson conf (messageInfo cjson msg) = some info) :
    danmuCallback cjson conf msg = admitUser cjson conf (info.withCommand body) := by
  rw [h.danmuCallback_unfold hinfo]
  by_cases hleave : body.val = literal "取消排队"
  · have hjoin : ¬ body.val = literal "排队" := by
      rw [hleave]
      decide +kernel
    rw [if_neg hjoin, if_pos hleave, UserInfo.withCommand, decide_eq_true hleave]
  · have hjoin : body.val = literal "排队" := hcommand.resolve_right hleave
    rw [if_pos hjoin, UserInfo.withCommand, decide_eq_false hleave]

/-- Nothing is sent for any other text. -/
theorem WellFormed.danmuCallback_eq_none (h : WellFormed cjson number msg u body)
    (hcommand : ¬ IsCommand body)
    (hinfo : danmuInfo cjson conf (messageInfo cjson msg) = some info) :
    danmuCallback cjson conf msg = some (none, conf) := by
  obtain ⟨hjoin, hleave⟩ := not_or.mp hcommand
  rw [h.danmuCallback_unfold hinfo, if_neg hjoin, if_neg hleave]

/-- No record, no result. -/
theorem danmuCallback_eq_none_of_danmuInfo
    (hinfo : danmuInfo cjson conf (messageInfo cjson msg) = none) :
    danmuCallback cjson conf msg = none := by
  have hinfo : danmuInfo cjson conf (cjson.getObjectItem (some msg) "info") = none := hinfo
  simp [danmuCallback, hinfo]

end BliveQueue.Callbacks
