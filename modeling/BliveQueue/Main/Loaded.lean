/-
# What the loaded configuration depends on

Two structures that are loaded from the same document agree if everything in them was
written, and every character array was written with its zero. A skipped section is left
as it lay on the stack, and `strncpy` writes no zero behind a text that reaches its
bound. The law is about all old contents, so one missing section or one text of that
length breaks it.
-/

import BliveQueue.Main.FilterLists

namespace BliveQueue.Main

open BliveQueue.Config BliveQueue.Math.CharBuffer BliveQueue.Utils

variable {Json : Type} {cjson : CJson Json} {file : Option ConfigFile} {mem : Bool}
  {jsonMain : Json} {config config' other other' : BliveExtCfg Json}

/-- Two character arrays hold the same string, which begins the configured text. -/
def SameText {k : ℕ} (array array' : Vector UInt8 k) (configured : Option CString) : Prop :=
  ∃ s t, configured = some t ∧ string array.toList = some s ∧ string array'.toList = some s ∧
    s <+: t.val

/-- The text under a key of a section. -/
def configuredText (cjson : CJson Json) (jsonMain : Json) (sectionName key : String) :
    Option CString :=
  cjson.text (sectionItem cjson jsonMain sectionName key)

/-- Two structures agree on the configuration. -/
structure Agree (cjson : CJson Json) (jsonMain : Json) (config other : BliveExtCfg Json) :
    Prop where
  roomId : config.roomId = other.roomId
  queueUpConfig : config.queueUpConfig.toQueueUpConfig = other.queueUpConfig.toQueueUpConfig
  minvalue : config.queueUpConfig.minvalueGiftQueueup = other.queueUpConfig.minvalueGiftQueueup
  rearrange : config.rearrangeConfig = other.rearrangeConfig
  blacklist : config.filterConfig.blacklist = other.filterConfig.blacklist
  whitelist : config.filterConfig.whitelist = other.filterConfig.whitelist
  hostName : SameText config.queueUpConfig.hostName other.queueUpConfig.hostName
    (configuredText cjson jsonMain "排队规则" "主播名称")
  titleColor : SameText config.colorConfig.titleColor other.colorConfig.titleColor
    (configuredText cjson jsonMain "颜色配置" "标题颜色")
  captColor : SameText config.colorConfig.captColor other.colorConfig.captColor
    (configuredText cjson jsonMain "颜色配置" "舰队颜色")
  fansColor : SameText config.colorConfig.fansColor other.colorConfig.fansColor
    (configuredText cjson jsonMain "颜色配置" "粉丝牌颜色")
  othersColor : SameText config.colorConfig.othersColor other.colorConfig.othersColor
    (configuredText cjson jsonMain "颜色配置" "白嫖颜色")

/-- A text leaves room for its zero. -/
def ShorterThan (n : ℕ) (configured : Option CString) : Prop :=
  ∀ t ∈ configured, t.val.length < n

instance (n : ℕ) (configured : Option CString) : Decidable (ShorterThan n configured) :=
  inferInstanceAs (Decidable (∀ t ∈ configured, t.val.length < n))

/-- The document has all sections, and its texts leave room for their zeros. -/
structure Complete (cjson : CJson Json) (jsonMain : Json) : Prop where
  queueUp : cjson.getObjectItem (some jsonMain) "排队规则" ≠ none
  colors : cjson.getObjectItem (some jsonMain) "颜色配置" ≠ none
  rearrange : cjson.getObjectItem (some jsonMain) "过号重排规则" ≠ none
  hostName : ShorterThan (defaultNameLen - 1) (configuredText cjson jsonMain "排队规则" "主播名称")
  titleColor : ShorterThan 7 (configuredText cjson jsonMain "颜色配置" "标题颜色")
  captColor : ShorterThan 7 (configuredText cjson jsonMain "颜色配置" "舰队颜色")
  fansColor : ShorterThan 7 (configuredText cjson jsonMain "颜色配置" "粉丝牌颜色")
  othersColor : ShorterThan 7 (configuredText cjson jsonMain "颜色配置" "白嫖颜色")

/-! ## Character arrays -/

section Arrays

variable {k n : ℕ} {array array' old old' : Vector UInt8 k} {configured : Option CString}

/-- A short text is the same string in every array it was copied into. -/
theorem Copied.sameText (h : Copied configured old array n) (h' : Copied configured old' array' n)
    (hshort : ShorterThan n configured) (hn : n ≤ k) : SameText array array' configured := by
  obtain ⟨t, hconfigured, rfl⟩ := h
  obtain ⟨t', hconfigured', rfl⟩ := h'
  obtain rfl := Option.some.inj (hconfigured.symm.trans hconfigured')
  have hlength : t.val.length < n := hshort t (by rw [hconfigured]; rfl)
  exact ⟨t.val, t, hconfigured, (holds_strncpy hlength hn).string_eq,
    (holds_strncpy hlength hn).string_eq, List.prefix_rfl⟩

/-- A text that was copied over an array without zeros is a string there only if it was
short. -/
theorem Copied.shorterThan (h : Copied configured old array n) (hold : 0 ∉ old.toList)
    (hn : n ≤ k) (hsame : SameText array array' configured) : ShorterThan n configured := by
  obtain ⟨t, hconfigured, rfl⟩ := h
  obtain ⟨s, -, -, hstring, -⟩ := hsame
  intro t' ht'
  obtain rfl : t = t' := Option.some.inj (hconfigured.symm.trans ht')
  apply Nat.lt_of_not_le
  intro hlong
  rw [string_strncpy_eq_none hlong hn hold] at hstring
  cases hstring

/-- An array without zeros holds no string. -/
theorem not_sameText (harray : 0 ∉ array.toList) : ¬ SameText array array' configured := by
  intro h
  obtain ⟨s, -, -, hstring, -⟩ := h
  rw [string, if_neg harray] at hstring
  cases hstring

theorem zero_notMem_replicate_one (k : ℕ) : 0 ∉ (Vector.replicate k (1 : UInt8)).toList := by
  simp

end Arrays

/-! ## Sections -/

theorem loadSection_of_ne_none {α : Type} {jsonObj : Option Json} (h : jsonObj ≠ none)
    (load : Option Json → α → Option α) (old : α) :
    loadSection jsonObj load old = load jsonObj old := by
  cases jsonObj with
  | none => exact absurd rfl h
  | some section' => rfl

/-- The switches and the value of a queueing section do not depend on the old content. -/
theorem queueUpConfig_agree {jsonObj : Option Json} {rules rules' old old' : QueueUpRules}
    (h : loadQueueUpConfig cjson jsonObj old = some rules)
    (h' : loadQueueUpConfig cjson jsonObj old' = some rules') :
    rules.toQueueUpConfig = rules'.toQueueUpConfig ∧
      rules.minvalueGiftQueueup = rules'.minvalueGiftQueueup := by
  obtain ⟨-, hcapt, hdanmu, hgift, minvalue, hmin, hvalue⟩ := loadQueueUpConfig_eq_some_iff.mp h
  obtain ⟨-, hcapt', hdanmu', hgift', minvalue', hmin', hvalue'⟩ :=
    loadQueueUpConfig_eq_some_iff.mp h'
  constructor
  · rw [QueueUpConfig.mk.injEq]
    exact ⟨Option.some.inj (hcapt.symm.trans hcapt'), Option.some.inj (hdanmu.symm.trans hdanmu'),
      Option.some.inj (hgift.symm.trans hgift')⟩
  · rw [hvalue, hvalue', Option.some.inj (hmin.symm.trans hmin')]

/-- Complete documents load the same into any two structures. -/
theorem Complete.agree (hcomplete : Complete cjson jsonMain)
    (h : loadConfig cjson jsonMain config = some (.ok, config'))
    (h' : loadConfig cjson jsonMain other = some (.ok, other')) :
    Agree cjson jsonMain config' other' := by
  obtain ⟨⟨rooms, hrooms, roomId, hroom, hid⟩, hrules, hcolors, hrearrange, hfilter⟩ :=
    loadConfig_eq_ok_iff.mp h
  obtain ⟨⟨rooms', hrooms', roomId', hroom', hid'⟩, hrules', hcolors', hrearrange', hfilter'⟩ :=
    loadConfig_eq_ok_iff.mp h'
  rw [loadSection_of_ne_none hcomplete.queueUp] at hrules hrules'
  rw [loadSection_of_ne_none hcomplete.colors] at hcolors hcolors'
  rw [loadSection_of_ne_none hcomplete.rearrange] at hrearrange hrearrange' hfilter hfilter'
  obtain ⟨hswitches, hminvalue⟩ := queueUpConfig_agree hrules hrules'
  obtain ⟨hhost, -⟩ := loadQueueUpConfig_eq_some_iff.mp hrules
  obtain ⟨hhost', -⟩ := loadQueueUpConfig_eq_some_iff.mp hrules'
  obtain ⟨htitle, hcapt, hfans, hothers⟩ := loadColorConfig_eq_some_iff.mp hcolors
  obtain ⟨htitle', hcapt', hfans', hothers'⟩ := loadColorConfig_eq_some_iff.mp hcolors'
  obtain rfl := Option.some.inj (hrooms.symm.trans hrooms')
  obtain rfl := Option.some.inj (hroom.symm.trans hroom')
  have hlists : config'.filterConfig = other'.filterConfig :=
    Option.some.inj (hfilter.symm.trans hfilter')
  have hbound : 7 ≤ 8 := by decide
  exact
    { roomId := hid.trans hid'.symm
      queueUpConfig := hswitches
      minvalue := hminvalue
      rearrange := Option.some.inj (hrearrange.symm.trans hrearrange')
      blacklist := by rw [hlists]
      whitelist := by rw [hlists]
      hostName := hhost.sameText hhost' hcomplete.hostName (Nat.sub_le _ _)
      titleColor := htitle.sameText htitle' hcomplete.titleColor hbound
      captColor := hcapt.sameText hcapt' hcomplete.captColor hbound
      fansColor := hfans.sameText hfans' hcomplete.fansColor hbound
      othersColor := hothers.sameText hothers' hcomplete.othersColor hbound }

/-! ## The stack of `main` -/

variable {bit : Bool}

/-- A queueing section that is missing, or whose host name was copied without its zero,
shows the stack. -/
theorem queueUp_of_agree
    (hload : loadConfig cjson jsonMain (stackContent bit) = some (.ok, config'))
    (hagree : Agree cjson jsonMain config' other') :
    cjson.getObjectItem (some jsonMain) "排队规则" ≠ none ∧
      ShorterThan (defaultNameLen - 1)
        (configuredText cjson jsonMain "排队规则" "主播名称") := by
  obtain ⟨-, hrules, -⟩ := loadConfig_eq_ok_iff.mp hload
  have hpresent : cjson.getObjectItem (some jsonMain) "排队规则" ≠ none := by
    intro habsent
    rw [habsent] at hrules
    have htext := hagree.hostName
    rw [← Option.some.inj hrules] at htext
    exact not_sameText (zero_notMem_replicate_one _) htext
  rw [loadSection_of_ne_none hpresent] at hrules
  obtain ⟨hhost, -⟩ := loadQueueUpConfig_eq_some_iff.mp hrules
  exact ⟨hpresent,
    hhost.shorterThan (zero_notMem_replicate_one _) (Nat.sub_le _ _) hagree.hostName⟩

/-- A missing section of colours shows the stack. -/
theorem colors_present_of_agree
    (hload : loadConfig cjson jsonMain (stackContent bit) = some (.ok, config'))
    (hagree : Agree cjson jsonMain config' other') :
    cjson.getObjectItem (some jsonMain) "颜色配置" ≠ none := by
  obtain ⟨-, -, hcolors, -⟩ := loadConfig_eq_ok_iff.mp hload
  intro habsent
  rw [habsent] at hcolors
  have htext := hagree.titleColor
  rw [← Option.some.inj hcolors] at htext
  exact not_sameText (zero_notMem_replicate_one _) htext

/-- A colour that was copied without its zero shows the stack. -/
theorem colors_short_of_agree
    (hload : loadConfig cjson jsonMain (stackContent bit) = some (.ok, config'))
    (hagree : Agree cjson jsonMain config' other') :
    ShorterThan 7 (configuredText cjson jsonMain "颜色配置" "标题颜色") ∧
      ShorterThan 7 (configuredText cjson jsonMain "颜色配置" "舰队颜色") ∧
      ShorterThan 7 (configuredText cjson jsonMain "颜色配置" "粉丝牌颜色") ∧
      ShorterThan 7 (configuredText cjson jsonMain "颜色配置" "白嫖颜色") := by
  obtain ⟨-, -, hcolors, -⟩ := loadConfig_eq_ok_iff.mp hload
  rw [loadSection_of_ne_none (colors_present_of_agree hload hagree)] at hcolors
  obtain ⟨htitle, hcapt, hfans, hothers⟩ := loadColorConfig_eq_some_iff.mp hcolors
  have hzero := zero_notMem_replicate_one 8
  have hbound : 7 ≤ 8 := by decide
  exact ⟨htitle.shorterThan hzero hbound hagree.titleColor,
    hcapt.shorterThan hzero hbound hagree.captColor,
    hfans.shorterThan hzero hbound hagree.fansColor,
    hothers.shorterThan hzero hbound hagree.othersColor⟩

/-- A missing section of rules for those who missed their turn shows the stack. -/
theorem rearrange_present_of_agree
    (hload : loadConfig cjson jsonMain (stackContent false) = some (.ok, config'))
    (hload' : loadConfig cjson jsonMain (stackContent true) = some (.ok, other'))
    (hagree : Agree cjson jsonMain config' other') :
    cjson.getObjectItem (some jsonMain) "过号重排规则" ≠ none := by
  obtain ⟨-, -, -, hrearrange, -⟩ := loadConfig_eq_ok_iff.mp hload
  obtain ⟨-, -, -, hrearrange', -⟩ := loadConfig_eq_ok_iff.mp hload'
  intro habsent
  rw [habsent] at hrearrange hrearrange'
  have hsame := congrArg RearrangeConfig.allowRearrange hagree.rearrange
  rw [← Option.some.inj hrearrange, ← Option.some.inj hrearrange'] at hsame
  cases hsame

/-- An accepted document loads the same configuration into any two structures if and
only if it is complete. -/
theorem loaded_config_agrees_iff (hdocument : document cjson file = some jsonMain)
    (haccepted : ∃ config config', parseConfig cjson file mem config = some (.ok, config')) :
    (∀ config other config' other', parseConfig cjson file mem config = some (.ok, config') →
        parseConfig cjson file mem other = some (.ok, other') →
          Agree cjson jsonMain config' other') ↔
      Complete cjson jsonMain := by
  constructor
  · intro hall
    obtain ⟨config, config', hok⟩ := haccepted
    obtain ⟨low, hlow⟩ := exists_parseConfig hok (stackContent false)
    obtain ⟨high, hhigh⟩ := exists_parseConfig hok (stackContent true)
    have hagree := hall _ _ _ _ hlow hhigh
    have hload := loadConfig_of_parseConfig hdocument hlow
    have hload' := loadConfig_of_parseConfig hdocument hhigh
    obtain ⟨hqueueUp, hhost⟩ := queueUp_of_agree hload hagree
    obtain ⟨htitle, hcapt, hfans, hothers⟩ := colors_short_of_agree hload hagree
    exact ⟨hqueueUp, colors_present_of_agree hload hagree,
      rearrange_present_of_agree hload hload' hagree, hhost, htitle, hcapt, hfans, hothers⟩
  · intro hcomplete config other config' other' hok hok'
    exact hcomplete.agree (loadConfig_of_parseConfig hdocument hok)
      (loadConfig_of_parseConfig hdocument hok')

/-- The tidy document is complete. -/
theorem loaded_config_agrees_of_tidy :
    Complete pdjJson .tidy ∧
      ∀ config other config' other',
        parseConfig pdjJson (some PdjNode.tidy.toFile) true config = some (.ok, config') →
        parseConfig pdjJson (some PdjNode.tidy.toFile) true other = some (.ok, other') →
          Agree pdjJson .tidy config' other' := by
  have hcomplete : Complete pdjJson .tidy :=
    ⟨by decide +kernel, by decide +kernel, by decide +kernel, by decide +kernel,
      by decide +kernel, by decide +kernel, by decide +kernel, by decide +kernel⟩
  exact ⟨hcomplete, (loaded_config_agrees_iff (document_toFile .tidy) tidy_accepted).mpr hcomplete⟩

/-- The colours of the shipped file have 7 bytes and are copied without a zero. -/
theorem exists_loaded_unterminated :
    document pdjJson (some PdjNode.shipped.toFile) = some .shipped ∧
      ∃ config other config' other',
        parseConfig pdjJson (some PdjNode.shipped.toFile) true config = some (.ok, config') ∧
        parseConfig pdjJson (some PdjNode.shipped.toFile) true other = some (.ok, other') ∧
        string config'.colorConfig.titleColor.toList = none ∧
        ¬ Agree pdjJson .shipped config' other' := by
  obtain ⟨low, hlow⟩ : ∃ low, parseConfig pdjJson (some PdjNode.shipped.toFile) true
      (stackContent false) = some (.ok, low) := exists_accepted (by decide +kernel)
  obtain ⟨high, hhigh⟩ := exists_parseConfig hlow (stackContent true)
  have hload := loadConfig_of_parseConfig (document_toFile .shipped) hlow
  have htitle : (loadConfig pdjJson .shipped (stackContent false)).map
      (fun r => string r.2.colorConfig.titleColor.toList) = some none := by decide +kernel
  rw [hload] at htitle
  have hnone : string low.colorConfig.titleColor.toList = none := Option.some.inj htitle
  refine ⟨document_toFile .shipped, _, _, low, high, hlow, hhigh, hnone, ?_⟩
  intro hagree
  obtain ⟨s, -, -, hstring, -⟩ := hagree.titleColor
  rw [hnone] at hstring
  cases hstring

end BliveQueue.Main
