/-
# `main.c`: loading the configuration

`parse_config` reads the configuration file, parses it and copies its sections, one
after the other, into the structure it is given. A section that is missing is skipped.
Every other lookup is dereferenced at once, so a computation that meets an absent node
or an absent string has no result.
-/

import BliveQueue.Config
import BliveQueue.Utils.CJson
import BliveQueue.Utils.Errno

namespace BliveQueue.Main

open BliveQueue.Config BliveQueue.Math.CharBuffer BliveQueue.Utils

/-- A configuration file that was opened: its size, and what `fread` delivers of it. -/
structure ConfigFile where
  txtSize : ℕ
  content : List UInt8

variable {Json : Type} (cjson : CJson Json)

/-- A section as it is loaded: skipped if it is missing. -/
def loadSection {α : Type} (jsonObj : Option Json) (load : Option Json → α → Option α)
    (config : α) : Option α :=
  if jsonObj.isSome then load jsonObj config else some config

/-- The section 排队规则. -/
def loadQueueUpConfig (jsonObj : Option Json) (config : QueueUpRules) : Option QueueUpRules := do
  let hostName ← cjson.text (cjson.getObjectItem jsonObj "主播名称")
  let captFirst ← cjson.flag (cjson.getObjectItem jsonObj "舰队优先")
  let allowDanmuQueueup ← cjson.flag (cjson.getObjectItem jsonObj "允许弹幕排队")
  let allowGiftQueueup ← cjson.flag (cjson.getObjectItem jsonObj "允许送礼物排队")
  let minvalueGiftQueueup ← cjson.int (cjson.getObjectItem jsonObj "礼物排队最低送出礼物价值")
  some
    { hostName := strncpy config.hostName hostName (defaultNameLen - 1)
      captFirst := captFirst
      allowDanmuQueueup := allowDanmuQueueup
      allowGiftQueueup := allowGiftQueueup
      minvalueGiftQueueup := minvalueGiftQueueup.toUInt32 }

/-- The section 颜色配置. -/
def loadColorConfig (jsonObj : Option Json) (config : ColorConfig) : Option ColorConfig := do
  let titleColor ← cjson.text (cjson.getObjectItem jsonObj "标题颜色")
  let captColor ← cjson.text (cjson.getObjectItem jsonObj "舰队颜色")
  let fansColor ← cjson.text (cjson.getObjectItem jsonObj "粉丝牌颜色")
  let othersColor ← cjson.text (cjson.getObjectItem jsonObj "白嫖颜色")
  some
    { titleColor := strncpy config.titleColor titleColor 7
      captColor := strncpy config.captColor captColor 7
      fansColor := strncpy config.fansColor fansColor 7
      othersColor := strncpy config.othersColor othersColor 7 }

/-- The section 过号重排规则. -/
def loadRearrangeConfig (jsonObj : Option Json) (_ : RearrangeConfig) :
    Option RearrangeConfig := do
  let restoreLastQueue ← cjson.flag (cjson.getObjectItem jsonObj "重启软件保留原先的排队列表")
  let allowRearrange ← cjson.flag (cjson.getObjectItem jsonObj "允许过号重排")
  let maxKeptRearranger ← cjson.int (cjson.getObjectItem jsonObj "过号列表最多保留几位")
  let reawardPerPass ← cjson.int (cjson.getObjectItem jsonObj "过号1位排队向后调整几位")
  let addBlklstFreqRearr ← cjson.flag (cjson.getObjectItem jsonObj "频繁过号加入黑名单")
  let addBlklstRearrCnt ←
    cjson.int (cjson.getObjectItem jsonObj "单次启动期间连续过号几次加入黑名单")
  some
    { restoreLastQueue := restoreLastQueue
      allowRearrange := allowRearrange
      maxKeptRearranger := maxKeptRearranger.toUInt32.toUInt16
      reawardPerPass := reawardPerPass.toUInt32.toUInt16
      addBlklstFreqRearr := addBlklstFreqRearr
      addBlklstRearrCnt := addBlklstRearrCnt.toUInt32.toUInt16 }

/-- The two lists of a section, as copies that are printed and parsed again. -/
def loadFilterConfig (jsonObj : Option Json) (_ : FilterConfig Json) :
    Option (FilterConfig Json) :=
  some
    { blacklist := cjson.parse (cjson.printBuffered (cjson.getObjectItem jsonObj "黑名单"))
      whitelist := cjson.parse (cjson.printBuffered (cjson.getObjectItem jsonObj "白名单")) }

/-- `parse_config` from the parsed document on. The lists of `filter_config` are looked
up in the section 过号重排规则. -/
def loadConfig (jsonMain : Json) (config : BliveExtCfg Json) :
    Option (BliveErrno × BliveExtCfg Json) :=
  match cjson.getObjectItem (some jsonMain) "监听的直播间" with
  | none => some (.invalid, config)
  | some rooms => do
    let roomId ← cjson.int (cjson.getArrayItem (some rooms) 0)
    let queueUpConfig ← loadSection (cjson.getObjectItem (some jsonMain) "排队规则")
      (loadQueueUpConfig cjson) config.queueUpConfig
    let colorConfig ← loadSection (cjson.getObjectItem (some jsonMain) "颜色配置")
      (loadColorConfig cjson) config.colorConfig
    let rearrangeConfig ← loadSection (cjson.getObjectItem (some jsonMain) "过号重排规则")
      (loadRearrangeConfig cjson) config.rearrangeConfig
    let filterConfig ← loadSection (cjson.getObjectItem (some jsonMain) "过号重排规则")
      (loadFilterConfig cjson) config.filterConfig
    some (.ok,
      { roomId := roomId.toUInt32
        queueUpConfig := queueUpConfig
        colorConfig := colorConfig
        rearrangeConfig := rearrangeConfig
        filterConfig := filterConfig })

/-- `parse_config`. The file is `none` if `fopen` fails, and `mem` tells whether the
allocation of `config_buffer` succeeds; the code goes on without looking in both cases. -/
def parseConfig (file : Option ConfigFile) (mem : Bool) (config : BliveExtCfg Json) :
    Option (BliveErrno × BliveExtCfg Json) := do
  let fp ← file
  if mem then
    if fp.txtSize ≠ fp.content.length then some (.unknown, config)
    else
      match cjson.parse (toCString (fp.content ++ [0])) with
      | none => some (.invalid, config)
      | some jsonMain => loadConfig cjson jsonMain config
  else none

end BliveQueue.Main
