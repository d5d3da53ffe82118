/-
# Documents that are rejected cleanly

`parse_config` looks whether a section is there, and takes for granted what is in it. A
key that is missing ends the program, and a flag or a number of another type is read as
if it were one. So the only documents with a room that end in a code as they should are
those in which every section that is there has all its keys, with the right types; they
are accepted. Rejections come from the file, the parser and a missing room only.
-/

import BliveQueue.Main.Sections

namespace BliveQueue.Main

open BliveQueue.Config BliveQueue.Math.CharBuffer BliveQueue.Utils

/-- The type that the program expects of an item; `valuestring` is there for strings only,
and the other types are those of the library. -/
inductive ItemKind
  | flag
  | number
  | text
  deriving DecidableEq

/-- The types of items that are not seen in the fields which the program reads. -/
structure ItemTypes (Json : Type) where
  isBool : Json → Prop
  isNumber : Json → Prop
  isArray : Json → Prop

/-- The keys of the section 排队规则. -/
def queueUpKeys : List (String × ItemKind) :=
  [("主播名称", .text), ("舰队优先", .flag), ("允许弹幕排队", .flag), ("允许送礼物排队", .flag),
    ("礼物排队最低送出礼物价值", .number)]

/-- The keys of the section 颜色配置. -/
def colorKeys : List (String × ItemKind) :=
  [("标题颜色", .text), ("舰队颜色", .text), ("粉丝牌颜色", .text), ("白嫖颜色", .text)]

/-- The keys of the section 过号重排规则; its two lists may be missing. -/
def rearrangeKeys : List (String × ItemKind) :=
  [("重启软件保留原先的排队列表", .flag), ("允许过号重排", .flag), ("过号列表最多保留几位", .number),
    ("过号1位排队向后调整几位", .number), ("频繁过号加入黑名单", .flag),
    ("单次启动期间连续过号几次加入黑名单", .number)]

variable {Json : Type} {cjson : CJson Json} {types : ItemTypes Json} {fp : ConfigFile}
  {jsonMain jsonObj : Json} {config config' : BliveExtCfg Json} {key : String} {code : BliveErrno}

/-- An item has the type that is expected. -/
def ItemKind.Fits (cjson : CJson Json) (types : ItemTypes Json) (item : Json) : ItemKind → Prop
  | .flag => types.isBool item
  | .number => types.isNumber item
  | .text => (cjson.valuestring item).isSome

/-- A section has all of some keys, with the types that are expected. -/
def HasKeys (cjson : CJson Json) (types : ItemTypes Json) (keys : List (String × ItemKind))
    (jsonObj : Json) : Prop :=
  ∀ k ∈ keys, ∃ item ∈ cjson.getObjectItem (some jsonObj) k.1, k.2.Fits cjson types item

/-- The first item of the rooms is a number, and every section that is there has its keys. -/
structure WellTyped (cjson : CJson Json) (types : ItemTypes Json) (jsonMain : Json) : Prop where
  rooms : ∀ rooms ∈ cjson.getObjectItem (some jsonMain) "监听的直播间",
    types.isArray rooms ∧ ∃ room ∈ cjson.getArrayItem (some rooms) 0, types.isNumber room
  queueUp : ∀ jsonObj ∈ cjson.getObjectItem (some jsonMain) "排队规则",
    HasKeys cjson types queueUpKeys jsonObj
  colors : ∀ jsonObj ∈ cjson.getObjectItem (some jsonMain) "颜色配置",
    HasKeys cjson types colorKeys jsonObj
  rearrange : ∀ jsonObj ∈ cjson.getObjectItem (some jsonMain) "过号重排规则",
    HasKeys cjson types rearrangeKeys jsonObj

/-- `parse_config` on a file that can be read returns a code, and this is an error if a key
is missing or has the wrong type. -/
def EndsCleanly (cjson : CJson Json) (types : ItemTypes Json) (fp : ConfigFile)
    (config : BliveExtCfg Json) : Prop :=
  ∃ code config', parseConfig cjson (some fp) true config = some (code, config') ∧
    ∀ jsonMain ∈ document cjson (some fp), ¬ WellTyped cjson types jsonMain → code ≠ .ok

/-! ## Sections -/

/-- The lookups of a text succeed. -/
theorem exists_text {item : Json} (hitem : cjson.getObjectItem (some jsonObj) key = some item)
    (hfits : ItemKind.text.Fits cjson types item) :
    ∃ text, cjson.text (cjson.getObjectItem (some jsonObj) key) = some text := by
  obtain ⟨text, htext⟩ := Option.isSome_iff_exists.mp hfits
  exact ⟨text, Option.bind_eq_some_iff.mpr ⟨item, hitem, htext⟩⟩

theorem exists_loadQueueUpConfig (h : HasKeys cjson types queueUpKeys jsonObj)
    (rules : QueueUpRules) :
    ∃ rules', loadQueueUpConfig cjson (some jsonObj) rules = some rules' := by
  simp only [HasKeys, queueUpKeys, List.forall_mem_cons, Option.mem_def] at h
  obtain ⟨⟨host, hhost, hfits⟩, ⟨capt, hcapt, -⟩, ⟨danmu, hdanmu, -⟩, ⟨gift, hgift, -⟩,
    ⟨minvalue, hmin, -⟩, -⟩ := h
  obtain ⟨hostName, htext⟩ := exists_text hhost hfits
  simp [loadQueueUpConfig, CJson.flag, CJson.int, htext, hcapt, hdanmu, hgift, hmin]

theorem exists_loadColorConfig (h : HasKeys cjson types colorKeys jsonObj)
    (colors : ColorConfig) :
    ∃ colors', loadColorConfig cjson (some jsonObj) colors = some colors' := by
  simp only [HasKeys, colorKeys, List.forall_mem_cons, Option.mem_def] at h
  obtain ⟨⟨_, htitle, hfits₁⟩, ⟨_, hcapt, hfits₂⟩, ⟨_, hfans, hfits₃⟩, ⟨_, hothers, hfits₄⟩, -⟩ := h
  obtain ⟨title, htitle⟩ := exists_text htitle hfits₁
  obtain ⟨capt, hcapt⟩ := exists_text hcapt hfits₂
  obtain ⟨fans, hfans⟩ := exists_text hfans hfits₃
  obtain ⟨others, hothers⟩ := exists_text hothers hfits₄
  simp [loadColorConfig, htitle, hcapt, hfans, hothers]

theorem exists_loadRearrangeConfig (h : HasKeys cjson types rearrangeKeys jsonObj)
    (rearrange : RearrangeConfig) :
    ∃ rearrange', loadRearrangeConfig cjson (some jsonObj) rearrange = some rearrange' := by
  simp only [HasKeys, rearrangeKeys, List.forall_mem_cons, Option.mem_def] at h
  obtain ⟨⟨_, hrestore, -⟩, ⟨_, hallow, -⟩, ⟨_, hkept, -⟩, ⟨_, hreward, -⟩, ⟨_, hadd, -⟩,
    ⟨_, hcount, -⟩, -⟩ := h
  simp [loadRearrangeConfig, CJson.flag, CJson.int, hrestore, hallow, hkept, hreward, hadd, hcount]

/-- A section that is skipped or can be loaded has a result. -/
theorem exists_loadSection_of_present {α : Type} {load : Option Json → α → Option α}
    {section' : Option Json} (old : α)
    (hload : ∀ jsonObj ∈ section', ∃ new, load (some jsonObj) old = some new) :
    ∃ new, loadSection section' load old = some new := by
  cases section' with
  | none => exact ⟨old, rfl⟩
  | some jsonObj => exact hload jsonObj rfl

/-! ## Documents -/

variable (config) in
/-- A document with a room whose keys are there is accepted. -/
theorem WellTyped.exists_loadConfig (h : WellTyped cjson types jsonMain)
    (hrooms : cjson.getObjectItem (some jsonMain) "监听的直播间" ≠ none) :
    ∃ config', loadConfig cjson jsonMain config = some (.ok, config') := by
  obtain ⟨rooms, hrooms⟩ := Option.ne_none_iff_exists'.mp hrooms
  obtain ⟨-, room, hroom, -⟩ := h.rooms rooms hrooms
  obtain ⟨rules, hrules⟩ := exists_loadSection_of_present config.queueUpConfig
    fun jsonObj hobj => exists_loadQueueUpConfig (h.queueUp jsonObj hobj) config.queueUpConfig
  obtain ⟨colors, hcolors⟩ := exists_loadSection_of_present config.colorConfig
    fun jsonObj hobj => exists_loadColorConfig (h.colors jsonObj hobj) config.colorConfig
  obtain ⟨rearrange, hrearrange⟩ := exists_loadSection_of_present config.rearrangeConfig
    fun jsonObj hobj => exists_loadRearrangeConfig (h.rearrange jsonObj hobj) config.rearrangeConfig
  obtain ⟨filter, hfilter⟩ := exists_loadSection_of_present config.filterConfig
    fun jsonObj _ => ⟨_, (rfl : loadFilterConfig cjson (some jsonObj) config.filterConfig = some _)⟩
  refine ⟨⟨(cjson.valueint room).toUInt32, rules, colors, rearrange, filter⟩, ?_⟩
  exact loadConfig_eq_ok_iff.mpr ⟨⟨rooms, hrooms, cjson.valueint room,
    Option.map_eq_some_iff.mpr ⟨room, hroom, rfl⟩, rfl⟩, hrules, hcolors, hrearrange, hfilter⟩

/-- A document is rejected for a missing room only. -/
theorem loadConfig_code (hrooms : cjson.getObjectItem (some jsonMain) "监听的直播间" ≠ none)
    (h : loadConfig cjson jsonMain config = some (code, config')) : code = .ok := by
  obtain ⟨rooms, hrooms⟩ := Option.ne_none_iff_exists'.mp hrooms
  simp only [loadConfig, hrooms, Option.bind_eq_bind, Option.bind_eq_some_iff] at h
  obtain ⟨roomId, -, rules, -, colors, -, rearrange, -, filter, -, heq⟩ := h
  exact (Prod.mk.inj (Option.some.inj heq)).1.symm

/-- What `parse_config` does with a file that can be read. -/
theorem parseConfig_of_document (hdocument : document cjson (some fp) = some jsonMain) :
    parseConfig cjson (some fp) true config = loadConfig cjson jsonMain config := by
  have hdocument : (if fp.txtSize = fp.content.length then
      cjson.parse (toCString (fp.content ++ [0])) else none) = some jsonMain := hdocument
  split at hdocument
  next hread => simp [parseConfig, hread, hdocument]
  next => cases hdocument

variable (config) in
/-- A file without a document is rejected. -/
theorem exists_parseConfig_error (hdocument : document cjson (some fp) = none) :
    ∃ code, parseConfig cjson (some fp) true config = some (code, config) ∧ code ≠ .ok := by
  have hdocument : (if fp.txtSize = fp.content.length then
      cjson.parse (toCString (fp.content ++ [0])) else none) = none := hdocument
  split at hdocument
  next hread => exact ⟨.invalid, by simp [parseConfig, hread, hdocument], by decide⟩
  next hshort => exact ⟨.unknown, by simp [parseConfig, hshort], by decide⟩

/-- A file ends cleanly exactly if its document, if it has one with a room, has all keys with
the right types in the sections that are there. -/
theorem endsCleanly_iff :
    EndsCleanly cjson types fp config ↔
      ∀ jsonMain ∈ document cjson (some fp),
        cjson.getObjectItem (some jsonMain) "监听的直播间" ≠ none →
          WellTyped cjson types jsonMain := by
  cases hdocument : document cjson (some fp) with
  | none =>
      obtain ⟨code, hparse, hcode⟩ := exists_parseConfig_error config hdocument
      refine ⟨fun _ jsonMain hmem => absurd hmem (Option.not_mem_none jsonMain), fun _ => ?_⟩
      exact ⟨code, config, hparse, fun _ _ _ => hcode⟩
  | some jsonMain =>
      have hparse : parseConfig cjson (some fp) true config = loadConfig cjson jsonMain config :=
        parseConfig_of_document hdocument
      simp only [EndsCleanly, hparse, hdocument, Option.mem_some_iff, forall_eq']
      by_cases hrooms : cjson.getObjectItem (some jsonMain) "监听的直播间" = none
      · have hreject : loadConfig cjson jsonMain config = some (.invalid, config) := by
          simp [loadConfig, hrooms]
        exact ⟨fun _ hne => absurd hrooms hne,
          fun _ => ⟨.invalid, config, hreject, fun _ => by decide⟩⟩
      · constructor
        · intro h _
          obtain ⟨code, config', hload, hcode⟩ := h
          by_contra hbad
          exact hcode hbad (loadConfig_code hrooms hload)
        · intro h
          obtain ⟨config', hload⟩ := (h hrooms).exists_loadConfig config hrooms
          exact ⟨.ok, config', hload, fun hbad => absurd (h hrooms) hbad⟩

/-! ## A section without its keys -/

/-- The places of a document whose section 颜色配置 is empty. -/
inductive EmptyColors
  | main
  | rooms
  | room
  | colors
  deriving DecidableEq

/-- The trees at these places. -/
def EmptyColors.shape : EmptyColors → CJson.Shape EmptyColors
  | .main => .object [("监听的直播间", .rooms), ("颜色配置", .colors)]
  | .rooms => .array [.room]
  | .room => .number 7734200
  | .colors => .object []

/-- cJSON on this document. -/
def emptyColorsJson : CJson EmptyColors := CJson.ofShape EmptyColors.shape [.main] 3

/-- The file with this document. -/
def emptyColorsFile : ConfigFile where
  txtSize := (CJson.Shape.print EmptyColors.shape 3 .main).length
  content := CJson.Shape.print EmptyColors.shape 3 .main

/-- The colours of the section are dereferenced although they are absent. -/
theorem exists_file_not_clean :
    document emptyColorsJson (some emptyColorsFile) = some .main ∧
      ∀ types, ¬ EndsCleanly emptyColorsJson types emptyColorsFile (stackContent false) := by
  have hdocument : document emptyColorsJson (some emptyColorsFile) = some .main := by
    decide +kernel
  refine ⟨hdocument, fun types h => ?_⟩
  obtain ⟨code, config', hparse, -⟩ := h
  have hnone : (parseConfig emptyColorsJson (some emptyColorsFile) true
      (stackContent false)).isNone = true := by
    decide +kernel
  rw [hparse] at hnone
  cases hnone

end BliveQueue.Main
