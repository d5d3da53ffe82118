/-
# What an accepted document loads

`parse_config` succeeds exactly if the document has a room and every section that is
present can be read; each part of the result then comes from its own section, or is the
old content if the section is missing. Whether a section can be read does not depend on
the old content.
-/

import BliveQueue.Main

namespace BliveQueue.Main

open BliveQueue.Config BliveQueue.Math.CharBuffer BliveQueue.Utils

variable {Json : Type} {cjson : CJson Json} {file : Option ConfigFile} {mem : Bool}
  {jsonMain : Json} {jsonObj : Option Json} {config config' : BliveExtCfg Json}

/-- The document in a file that could be read. -/
def document (cjson : CJson Json) (file : Option ConfigFile) : Option Json :=
  file.bind fun fp =>
    if fp.txtSize = fp.content.length then cjson.parse (toCString (fp.content ++ [0])) else none

/-- Accepted files hold a document that can be loaded. -/
theorem parseConfig_eq_ok_iff :
    parseConfig cjson file mem config = some (.ok, config') ↔
      mem = true ∧ ∃ jsonMain ∈ document cjson file,
        loadConfig cjson jsonMain config = some (.ok, config') := by
  cases file with
  | none => simp [parseConfig, document]
  | some fp =>
      by_cases hread : fp.txtSize = fp.content.length
      · cases hparse : cjson.parse (toCString (fp.content ++ [0])) with
        | none => simp [parseConfig, document, hread, hparse]
        | some jsonMain => simp [parseConfig, document, hread, hparse]
      · simp [parseConfig, document, hread]

/-- The parts of a loaded document. -/
theorem loadConfig_eq_ok_iff :
    loadConfig cjson jsonMain config = some (.ok, config') ↔
      (∃ rooms, cjson.getObjectItem (some jsonMain) "监听的直播间" = some rooms ∧
        ∃ roomId, cjson.int (cjson.getArrayItem (some rooms) 0) = some roomId ∧
          config'.roomId = roomId.toUInt32) ∧
      loadSection (cjson.getObjectItem (some jsonMain) "排队规则") (loadQueueUpConfig cjson)
        config.queueUpConfig = some config'.queueUpConfig ∧
      loadSection (cjson.getObjectItem (some jsonMain) "颜色配置") (loadColorConfig cjson)
        config.colorConfig = some config'.colorConfig ∧
      loadSection (cjson.getObjectItem (some jsonMain) "过号重排规则") (loadRearrangeConfig cjson)
        config.rearrangeConfig = some config'.rearrangeConfig ∧
      loadSection (cjson.getObjectItem (some jsonMain) "过号重排规则") (loadFilterConfig cjson)
        config.filterConfig = some config'.filterConfig := by
  unfold loadConfig
  cases hrooms : cjson.getObjectItem (some jsonMain) "监听的直播间" with
  | none => simp
  | some rooms =>
      simp only [Option.bind_eq_bind, Option.bind_eq_some_iff, Option.some.injEq, Prod.mk.injEq,
        true_and]
      constructor
      · intro h
        obtain ⟨roomId, hroom, rules, hrules, colors, hcolors, rearrange, hrearrange, filter,
          hfilter, rfl⟩ := h
        exact ⟨⟨rooms, rfl, roomId, hroom, rfl⟩, hrules, hcolors, hrearrange, hfilter⟩
      · intro h
        obtain ⟨⟨rooms', hsame, roomId, hroom, hid⟩, hrules, hcolors, hrearrange, hfilter⟩ := h
        refine ⟨roomId, ?_, _, hrules, _, hcolors, _, hrearrange, _, hfilter, ?_⟩
        · rwa [hsame]
        · rw [← hid]

theorem loadConfig_of_parseConfig (hdocument : document cjson file = some jsonMain)
    (h : parseConfig cjson file mem config = some (.ok, config')) :
    loadConfig cjson jsonMain config = some (.ok, config') := by
  obtain ⟨-, jsonMain', hdocument', hload⟩ := parseConfig_eq_ok_iff.mp h
  rwa [Option.some.inj (hdocument.symm.trans hdocument')]

/-! ## Sections -/

/-- A section can be loaded over any old content if it can be loaded over some. -/
theorem exists_loadSection {α : Type} {load : Option Json → α → Option α} {old new : α}
    (hload : ∀ section' old new, load section' old = some new →
      ∀ other, (load section' other).isSome)
    (h : loadSection jsonObj load old = some new) (other : α) :
    ∃ new', loadSection jsonObj load other = some new' := by
  cases jsonObj with
  | none => exact ⟨other, rfl⟩
  | some section' => exact Option.isSome_iff_exists.mp (hload (some section') old new h other)

/-- An array that was overwritten with the first bytes of a text, which has to be there. -/
def Copied {k : ℕ} (configured : Option CString) (old new : Vector UInt8 k) (n : ℕ) : Prop :=
  ∃ t, configured = some t ∧ new = strncpy old t n

theorem loadQueueUpConfig_eq_some_iff {rules rules' : QueueUpRules} :
    loadQueueUpConfig cjson jsonObj rules = some rules' ↔
      Copied (cjson.text (cjson.getObjectItem jsonObj "主播名称")) rules.hostName rules'.hostName
        (defaultNameLen - 1) ∧
      cjson.flag (cjson.getObjectItem jsonObj "舰队优先") = some rules'.captFirst ∧
      cjson.flag (cjson.getObjectItem jsonObj "允许弹幕排队") = some rules'.allowDanmuQueueup ∧
      cjson.flag (cjson.getObjectItem jsonObj "允许送礼物排队") =
        some rules'.allowGiftQueueup ∧
      (∃ minvalue, cjson.int (cjson.getObjectItem jsonObj "礼物排队最低送出礼物价值") =
        some minvalue ∧ rules'.minvalueGiftQueueup = minvalue.toUInt32) := by
  simp only [loadQueueUpConfig, Option.bind_eq_bind, Option.bind_eq_some_iff, Option.some.injEq]
  constructor
  · intro h
    obtain ⟨hostName, hhost, capt, hcapt, danmu, hdanmu, gift, hgift, minvalue, hmin, rfl⟩ := h
    exact ⟨⟨hostName, hhost, rfl⟩, hcapt, hdanmu, hgift, minvalue, hmin, rfl⟩
  · intro h
    obtain ⟨⟨hostName, hhost, heq⟩, hcapt, hdanmu, hgift, minvalue, hmin, hvalue⟩ := h
    exact ⟨hostName, hhost, _, hcapt, _, hdanmu, _, hgift, minvalue, hmin,
      by rw [← heq, ← hvalue]⟩

theorem loadColorConfig_eq_some_iff {colors colors' : ColorConfig} :
    loadColorConfig cjson jsonObj colors = some colors' ↔
      Copied (cjson.text (cjson.getObjectItem jsonObj "标题颜色")) colors.titleColor colors'.titleColor
        7 ∧
      Copied (cjson.text (cjson.getObjectItem jsonObj "舰队颜色")) colors.captColor colors'.captColor
        7 ∧
      Copied (cjson.text (cjson.getObjectItem jsonObj "粉丝牌颜色")) colors.fansColor colors'.fansColor
        7 ∧
      Copied (cjson.text (cjson.getObjectItem jsonObj "白嫖颜色")) colors.othersColor
        colors'.othersColor 7 := by
  simp only [loadColorConfig, Option.bind_eq_bind, Option.bind_eq_some_iff, Option.some.injEq]
  constructor
  · intro h
    obtain ⟨title, htitle, capt, hcapt, fans, hfans, others, hothers, rfl⟩ := h
    exact ⟨⟨title, htitle, rfl⟩, ⟨capt, hcapt, rfl⟩, ⟨fans, hfans, rfl⟩, others, hothers, rfl⟩
  · intro h
    obtain ⟨⟨title, htitle, ht⟩, ⟨capt, hcapt, hc⟩, ⟨fans, hfans, hf⟩, others, hothers, ho⟩ := h
    exact ⟨title, htitle, capt, hcapt, fans, hfans, others, hothers, by rw [← ht, ← hc, ← hf, ← ho]⟩

theorem isSome_loadQueueUpConfig {rules rules' : QueueUpRules}
    (h : loadQueueUpConfig cjson jsonObj rules = some rules') (other : QueueUpRules) :
    (loadQueueUpConfig cjson jsonObj other).isSome := by
  obtain ⟨⟨hostName, hhost, -⟩, hcapt, hdanmu, hgift, minvalue, hmin, -⟩ :=
    loadQueueUpConfig_eq_some_iff.mp h
  simp [loadQueueUpConfig, hhost, hcapt, hdanmu, hgift, hmin]

theorem isSome_loadColorConfig {colors colors' : ColorConfig}
    (h : loadColorConfig cjson jsonObj colors = some colors') (other : ColorConfig) :
    (loadColorConfig cjson jsonObj other).isSome := by
  obtain ⟨⟨title, htitle, -⟩, ⟨capt, hcapt, -⟩, ⟨fans, hfans, -⟩, others, hothers, -⟩ :=
    loadColorConfig_eq_some_iff.mp h
  simp [loadColorConfig, htitle, hcapt, hfans, hothers]

/-- The two sections without character arrays ignore the old content. -/
theorem isSome_loadRearrangeConfig {rearrange rearrange' : RearrangeConfig}
    (h : loadRearrangeConfig cjson jsonObj rearrange = some rearrange')
    (other : RearrangeConfig) : (loadRearrangeConfig cjson jsonObj other).isSome :=
  Option.isSome_of_eq_some (h : loadRearrangeConfig cjson jsonObj other = some rearrange')

/-- A file that is accepted over some old content is accepted over any. -/
theorem exists_parseConfig (h : parseConfig cjson file mem config = some (.ok, config'))
    (other : BliveExtCfg Json) :
    ∃ other', parseConfig cjson file mem other = some (.ok, other') := by
  obtain ⟨hmem, jsonMain, hdocument, hload⟩ := parseConfig_eq_ok_iff.mp h
  obtain ⟨⟨rooms, hrooms, roomId, hroom, -⟩, hrules, hcolors, hrearrange, hfilter⟩ :=
    loadConfig_eq_ok_iff.mp hload
  obtain ⟨rules, hrules'⟩ := exists_loadSection
    (fun _ _ _ hsection => isSome_loadQueueUpConfig hsection) hrules other.queueUpConfig
  obtain ⟨colors, hcolors'⟩ := exists_loadSection
    (fun _ _ _ hsection => isSome_loadColorConfig hsection) hcolors other.colorConfig
  obtain ⟨rearrange, hrearrange'⟩ := exists_loadSection
    (fun _ _ _ hsection => isSome_loadRearrangeConfig hsection) hrearrange other.rearrangeConfig
  obtain ⟨filter, hfilter'⟩ := exists_loadSection
    (fun _ _ _ _ _ => Option.isSome_some) hfilter other.filterConfig
  refine ⟨⟨roomId.toUInt32, rules, colors, rearrange, filter⟩, ?_⟩
  exact parseConfig_eq_ok_iff.mpr ⟨hmem, jsonMain, hdocument, loadConfig_eq_ok_iff.mpr
    ⟨⟨rooms, hrooms, roomId, hroom, rfl⟩, hrules', hcolors', hrearrange', hfilter'⟩⟩

/-- What the structure may hold when `main` passes it: no character array has a zero. -/
def stackContent (bit : Bool) : BliveExtCfg Json where
  roomId := 0
  queueUpConfig := ⟨⟨bit, bit, bit⟩, Vector.replicate _ 1, 0⟩
  colorConfig :=
    ⟨Vector.replicate _ 1, Vector.replicate _ 1, Vector.replicate _ 1, Vector.replicate _ 1⟩
  rearrangeConfig := ⟨bit, bit, 0, 0, bit, 0⟩
  filterConfig := ⟨none, none⟩

end BliveQueue.Main
