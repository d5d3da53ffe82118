/-
# The configured lists

`parse_config` copies the two lists of `filter_config` from the section 过号重排规则. The
lists a user configures stand in the section 过滤规则, as in the shipped file. They take
effect exactly if the first section has the same lists.
-/

import BliveQueue.Main.Sections

namespace BliveQueue.Main

open BliveQueue.Config BliveQueue.Math.CharBuffer BliveQueue.Utils

variable {Json : Type} {cjson : CJson Json} {file : Option ConfigFile} {mem : Bool}
  {jsonMain : Json} {config config' : BliveExtCfg Json}

/-- The item of a section of the document. -/
def sectionItem (cjson : CJson Json) (jsonMain : Json) (sectionName key : String) : Option Json :=
  cjson.getObjectItem (cjson.getObjectItem (some jsonMain) sectionName) key

/-- The loaded lists are the configured ones; an absent list is a `NULL` one. -/
structure ListsTakeEffect (cjson : CJson Json) (jsonMain : Json) (lists : FilterConfig Json) :
    Prop where
  blacklist : lists.blacklist = sectionItem cjson jsonMain "过滤规则" "黑名单"
  whitelist : lists.whitelist = sectionItem cjson jsonMain "过滤规则" "白名单"

/-- The section that is read has the lists of the section that is meant. -/
structure SameLists (cjson : CJson Json) (jsonMain : Json) : Prop where
  present : cjson.getObjectItem (some jsonMain) "过号重排规则" ≠ none
  blacklist : sectionItem cjson jsonMain "过号重排规则" "黑名单" =
    sectionItem cjson jsonMain "过滤规则" "黑名单"
  whitelist : sectionItem cjson jsonMain "过号重排规则" "白名单" =
    sectionItem cjson jsonMain "过滤规则" "白名单"

/-- What is loaded as the lists. -/
theorem filterConfig_of_present (hround : cjson.RoundTrips)
    (hload : loadConfig cjson jsonMain config = some (.ok, config'))
    (hpresent : cjson.getObjectItem (some jsonMain) "过号重排规则" ≠ none) :
    config'.filterConfig = ⟨sectionItem cjson jsonMain "过号重排规则" "黑名单",
      sectionItem cjson jsonMain "过号重排规则" "白名单"⟩ := by
  obtain ⟨-, -, -, -, hfilter⟩ := loadConfig_eq_ok_iff.mp hload
  rw [sectionItem, sectionItem]
  cases hsection : cjson.getObjectItem (some jsonMain) "过号重排规则" with
  | none => exact absurd hsection hpresent
  | some jsonObj =>
      have hlists : loadFilterConfig cjson (some jsonObj) config.filterConfig =
          some config'.filterConfig := by rwa [hsection] at hfilter
      rw [loadFilterConfig, hround, hround] at hlists
      exact (Option.some.inj hlists).symm

/-- Without the section the old content stays. -/
theorem filterConfig_of_absent (hload : loadConfig cjson jsonMain config = some (.ok, config'))
    (habsent : cjson.getObjectItem (some jsonMain) "过号重排规则" = none) :
    config'.filterConfig = config.filterConfig := by
  obtain ⟨-, -, -, -, hfilter⟩ := loadConfig_eq_ok_iff.mp hload
  rw [habsent] at hfilter
  exact (Option.some.inj hfilter).symm

/-- In an accepted document the configured lists take effect, whatever the structure
held before, if and only if the section that is read has the same lists. -/
theorem lists_take_effect_iff (hround : cjson.RoundTrips)
    (hdocument : document cjson file = some jsonMain)
    (haccepted : ∃ config config', parseConfig cjson file mem config = some (.ok, config')) :
    (∀ config config', parseConfig cjson file mem config = some (.ok, config') →
        ListsTakeEffect cjson jsonMain config'.filterConfig) ↔
      SameLists cjson jsonMain := by
  obtain ⟨config, config', hok⟩ := haccepted
  constructor
  · intro hall
    have hpresent : cjson.getObjectItem (some jsonMain) "过号重排规则" ≠ none := by
      intro habsent
      -- an old content that is not the configured list would stay
      obtain ⟨old, hold⟩ : ∃ old, old ≠ sectionItem cjson jsonMain "过滤规则" "黑名单" := by
        cases hlist : sectionItem cjson jsonMain "过滤规则" "黑名单" with
        | none => exact ⟨some jsonMain, Option.some_ne_none jsonMain⟩
        | some list => exact ⟨none, (Option.some_ne_none list).symm⟩
      obtain ⟨config'', hok'⟩ :=
        exists_parseConfig hok { config with filterConfig := ⟨old, old⟩ }
      have hkept := filterConfig_of_absent (loadConfig_of_parseConfig hdocument hok') habsent
      have heffect := hall _ _ hok'
      rw [hkept] at heffect
      exact hold heffect.blacklist
    have hlists := filterConfig_of_present hround (loadConfig_of_parseConfig hdocument hok) hpresent
    have heffect := hall _ _ hok
    rw [hlists] at heffect
    exact ⟨hpresent, heffect.blacklist, heffect.whitelist⟩
  · intro hsame config config' hok'
    rw [filterConfig_of_present hround (loadConfig_of_parseConfig hdocument hok') hsame.present]
    exact ⟨hsame.blacklist, hsame.whitelist⟩

/-! ## Two documents -/

/-- The places of two documents: one with the keys of the shipped file, and one that is
tidier, with short colours and with the lists in both sections. -/
inductive PdjNode
  | shipped
  | tidy
  | rooms
  | room
  | queueUp
  | hostName
  | minvalue
  | colors
  | black
  | blue
  | indigo
  | tidyColors
  | red
  | rearrange
  | tidyRearrange
  | three
  | two
  | filter
  | blacklist
  | banned
  | bannedUid
  | bannedName
  | whitelist
  | trusted
  | trustedUid
  | trustedName
  | yes
  | no
  deriving DecidableEq

namespace PdjNode

/-- The rules for those who missed their turn. -/
def rearrangeRules : List (String × PdjNode) :=
  [("重启软件保留原先的排队列表", yes), ("允许过号重排", no), ("过号列表最多保留几位", three),
    ("过号1位排队向后调整几位", two), ("频繁过号加入黑名单", no),
    ("单次启动期间连续过号几次加入黑名单", three)]

open CJson.Shape in
/-- The trees of the two documents. -/
def shape : PdjNode → CJson.Shape PdjNode
  | shipped => object [("监听的直播间", rooms), ("排队规则", queueUp), ("颜色配置", colors),
      ("过号重排规则", rearrange), ("过滤规则", filter)]
  | tidy => object [("监听的直播间", rooms), ("排队规则", queueUp), ("颜色配置", tidyColors),
      ("过号重排规则", tidyRearrange), ("过滤规则", filter)]
  | rooms => array [room]
  | room => number 7734200
  | queueUp => object [("主播名称", hostName), ("舰队优先", yes), ("允许弹幕排队", yes),
      ("允许送礼物排队", yes), ("礼物排队最低送出礼物价值", minvalue)]
  | hostName => string "YS-君宝"
  | minvalue => number 6
  | colors => object [("标题颜色", black), ("舰队颜色", blue), ("粉丝牌颜色", indigo),
      ("白嫖颜色", black)]
  | black => string "#000000"
  | blue => string "#0470ff"
  | indigo => string "#191970"
  | tidyColors => object [("标题颜色", red), ("舰队颜色", red), ("粉丝牌颜色", red),
      ("白嫖颜色", red)]
  | red => string "red"
  | rearrange => object rearrangeRules
  | tidyRearrange => object (rearrangeRules ++ [("黑名单", blacklist), ("白名单", whitelist)])
  | three => number 3
  | two => number 2
  | filter => object [("黑名单", blacklist), ("白名单", whitelist)]
  | blacklist => array [banned]
  | banned => object [("uid", bannedUid), ("昵称", bannedName)]
  | bannedUid => string "123123123"
  | bannedName => string "111"
  | whitelist => array [trusted]
  | trusted => object [("uid", trustedUid), ("昵称", trustedName)]
  | trustedUid => string "000000000"
  | trustedName => string "000"
  | yes => flag true
  | no => flag false

/-- All places. -/
def all : List PdjNode :=
  [shipped, tidy, rooms, room, queueUp, hostName, minvalue, colors, black, blue, indigo,
    tidyColors, red, rearrange, tidyRearrange, three, two, filter, blacklist, banned, bannedUid,
    bannedName, whitelist, trusted, trustedUid, trustedName, yes, no]

/-- The file that holds a document. -/
def toFile (node : PdjNode) : ConfigFile :=
  ⟨(CJson.Shape.print shape 5 node).length, CJson.Shape.print shape 5 node⟩

end PdjNode

/-- cJSON on the two documents. -/
def pdjJson : CJson PdjNode := CJson.ofShape PdjNode.shape PdjNode.all 5

theorem pdjJson_roundTrips : pdjJson.RoundTrips := by
  apply CJson.ofShape_roundTrips
  · intro node
    cases node <;> decide
  · decide +kernel
  · decide +kernel

theorem document_toFile (node : PdjNode) : document pdjJson (some node.toFile) = some node := by
  have hread : node.toFile.txtSize = node.toFile.content.length := rfl
  rw [document, Option.bind_some, if_pos hread]
  exact pdjJson_roundTrips (some node)

/-- A file whose document can be loaded is accepted. -/
theorem exists_accepted {node : PdjNode} {bit : Bool}
    (h : (loadConfig pdjJson node (stackContent bit)).map Prod.fst = some .ok) :
    ∃ config', parseConfig pdjJson (some node.toFile) true (stackContent bit) =
      some (.ok, config') := by
  obtain ⟨⟨err, config'⟩, hload, hok⟩ := Option.map_eq_some_iff.mp h
  obtain rfl : err = .ok := hok
  exact ⟨config', parseConfig_eq_ok_iff.mpr ⟨rfl, node, document_toFile node, hload⟩⟩

theorem tidy_accepted :
    ∃ config config', parseConfig pdjJson (some PdjNode.tidy.toFile) true config =
      some (.ok, config') :=
  ⟨stackContent false, exists_accepted (by decide +kernel)⟩

/-- The lists of the tidy document take effect. -/
theorem lists_take_effect_of_tidy :
    SameLists pdjJson .tidy ∧
      ∀ config config', parseConfig pdjJson (some PdjNode.tidy.toFile) true config =
        some (.ok, config') → ListsTakeEffect pdjJson .tidy config'.filterConfig := by
  have hsame : SameLists pdjJson .tidy :=
    ⟨by decide +kernel, by decide +kernel, by decide +kernel⟩
  exact ⟨hsame, (lists_take_effect_iff pdjJson_roundTrips (document_toFile .tidy)
    tidy_accepted).mpr hsame⟩

/-- The lists of the document with the keys of the shipped file are ignored. -/
theorem exists_lists_ignored :
    pdjJson.RoundTrips ∧ document pdjJson (some PdjNode.shipped.toFile) = some .shipped ∧
      sectionItem pdjJson .shipped "过滤规则" "黑名单" = some .blacklist ∧
      ∃ config config', parseConfig pdjJson (some PdjNode.shipped.toFile) true config =
          some (.ok, config') ∧ config'.filterConfig = ⟨none, none⟩ ∧
        ¬ ListsTakeEffect pdjJson .shipped config'.filterConfig := by
  have hconfigured : sectionItem pdjJson .shipped "过滤规则" "黑名单" = some .blacklist := by
    decide +kernel
  obtain ⟨config', hok⟩ : ∃ config', parseConfig pdjJson (some PdjNode.shipped.toFile) true
      (stackContent false) = some (.ok, config') := exists_accepted (by decide +kernel)
  have hlists := filterConfig_of_present pdjJson_roundTrips
    (loadConfig_of_parseConfig (document_toFile .shipped) hok) (by decide +kernel)
  have hblack : sectionItem pdjJson .shipped "过号重排规则" "黑名单" = none := by decide +kernel
  have hwhite : sectionItem pdjJson .shipped "过号重排规则" "白名单" = none := by decide +kernel
  have hnone : config'.filterConfig = ⟨none, none⟩ := by rw [hlists, hblack, hwhite]
  refine ⟨pdjJson_roundTrips, document_toFile .shipped, hconfigured, _, config', hok, hnone, ?_⟩
  intro heffect
  have hloaded := heffect.blacklist
  rw [hnone, hconfigured] at hloaded
  cases hloaded

end BliveQueue.Main
