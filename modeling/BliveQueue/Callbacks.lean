/-
# `callbacks.c`: from live-room records to the queue

`liveroom_info_recv` reads one `user_info` record from its descriptor and turns
it into a call on the queue. A short read is `none`. The record's own weight is
ignored: the function computes it from the type of the record, the configuration
and the fleet level, in unsigned 32-bit arithmetic.

`danmu_callback` makes these records from the messages of the room, which are trees of
the cJSON library. A lookup that it dereferences although it is absent has no result.

`liveroom_qlist_make_text` prints the queue into a buffer of the http server, one row
for each queued user. Its callback sees the buffer as a bare pointer; here the buffer
has its size, and a run that leaves it has no result.
-/

import BliveQueue.Config
import BliveQueue.Math.CharBuffer
import BliveQueue.Utils.CJson

namespace BliveQueue.Callbacks

open BliveQueue.Config BliveQueue.Utils BliveQueue.Utils.QList BliveQueue.Math.CharBuffer

/-- `blive_info_type`; all values but the two that are handled fall through. -/
inductive BliveInfoType
  | danmuMsg
  | sendGift
  | other (code : ℕ)
  deriving DecidableEq

/-- `user_info`. -/
structure UserInfo where
  infoType : BliveInfoType
  data : QlistUnitData
  deriving DecidableEq

/-- The weight of a record: `weight` for everybody, unless the fleet goes first and
the user belongs to it. -/
def queueUpWeight (conf : QueueUpConfig) (info : UserInfo) (weight bonus : UInt32) : UInt32 :=
  if conf.captFirst ∧ info.data.fleetLv ≠ BliveFleetLevel.none then
    (BliveFleetLevel.max - info.data.fleetLv) + bonus
  else weight

/-- `qlist_append_update` with the weight filled in. -/
def queueUp (q : BliveQlist) (info : UserInfo) (weight : UInt32) (mem : Option Addr) :
    Option BliveQlist :=
  (qlistAppendUpdate q info.data.danmuSenderUid { info.data with weight := weight } mem).map
    Prod.snd

/-- `liveroom_info_recv` on what `fd_read` delivered. -/
def liveroomInfoRecv (conf : QueueUpConfig) (q : BliveQlist) (read : Option UserInfo)
    (mem : Option Addr) : Option BliveQlist :=
  match read with
  | none => some q
  | some info =>
    if info.data.cancelQueueUp then
      (qlistSubtract q info.data.danmuSenderUid).map Prod.snd
    else
      match info.infoType with
      | .danmuMsg =>
        if conf.allowDanmuQueueup then queueUp q info (queueUpWeight conf info 1 2) mem
        else some q
      | .sendGift =>
        if conf.allowGiftQueueup then queueUp q info (queueUpWeight conf info 2 (2 + 3)) mem
        else some q
      | .other _ => some q

/-- The queue under arbitrary reads, from `callbacks_init` on. A label is what was
read and what `zero_alloc` answers if it is asked. -/
def recvSystem (conf : QueueUpConfig) : Math.System BliveQlist (Option UserInfo × Option Addr) where
  init q := qlistCreate true = (.ok, some q)
  step q label q' :=
    (∀ a ∈ label.2, a ∉ q.live) ∧ liveroomInfoRecv conf q label.1 label.2 = some q'

/-! ## From messages to records -/

section Danmu

variable {Json : Type} (cjson : CJson Json)

/-- The loop of `search_user_in_list` over the items of a list from some index on. The
nickname in the first entry of the user is brought up to date; the result is whether
there is one, and the list. -/
def searchLoop (info : UserInfo) (list : Json) :
    ℕ → List Json → Option (Bool × Json)
  | _, [] => some (false, list)
  | index, jsonObj :: items =>
    match cjson.getObjectItem (some jsonObj) "uid" with
    | none => searchLoop info list (index + 1) items
    | some jsonUid =>
      if (cjson.valueint jsonUid).toUInt32 = info.data.danmuSenderUid then do
        let jsonName ← cjson.text (cjson.getObjectItem (some jsonObj) "昵称")
        let name ← toCString info.data.danmuSenderName.toList
        if jsonName.val = name.val then some (true, list)
        else some (true, cjson.setItemString list index (literal "昵称") name)
      else searchLoop info list (index + 1) items

/-- `search_user_in_list`; a `NULL` list has no items. -/
def searchUserInList (info : UserInfo) (list : Option Json) : Option (Bool × Option Json) :=
  match list with
  | none => some (false, none)
  | some list =>
    (searchLoop cjson info list 0 (cjson.children list)).map fun r => (r.1, some r.2)

/-- The record that `danmu_callback` fills in from the array `info` of a message. -/
def danmuInfo (conf : BliveExtCfg Json) (jsonInfo : Option Json) : Option UserInfo := do
  let sender := cjson.getArrayItem jsonInfo 2
  let uid ← cjson.int (cjson.getArrayItem sender 0)
  let name ← cjson.text (cjson.getArrayItem sender 1)
  let manager ← cjson.int (cjson.getArrayItem sender 2)
  let fleetLv ← cjson.int (cjson.getArrayItem jsonInfo 7)
  let data : QlistUnitData :=
    { QlistUnitData.zero with
      danmuSenderUid := uid.toUInt32
      danmuSenderName := strncpy QlistUnitData.zero.danmuSenderName name (defaultNameLen - 1)
      isHostoomManager := manager ≠ 0
      fleetLv := fleetLv.toUInt32 }
  let medal := cjson.getArrayItem jsonInfo 3
  match cjson.getArrayItem medal 0 with
  | none => some ⟨.danmuMsg, data⟩
  | some level => do
    let priceName ← cjson.text (cjson.getArrayItem medal 1)
    let host ← cjson.text (cjson.getArrayItem medal 2)
    -- the flag is set when the two names differ
    let sameHost ← equalsString conf.queueUpConfig.hostName.toList host.val
    some ⟨.danmuMsg,
      { data with
        fansPriceLevel := (cjson.valueint level).toUInt32
        fansPriceName := strncpy QlistUnitData.zero.fansPriceName priceName (defaultNameLen - 1)
        fansPriceIsCurLiveroom := !sameHost }⟩

/-- The end of `danmu_callback`: the record that is sent, if the lists admit the user,
and the configuration with its lists. -/
def admitUser (conf : BliveExtCfg Json) (info : UserInfo) :
    Option (Option UserInfo × BliveExtCfg Json) := do
  let (trusted, whitelist) ← searchUserInList cjson info conf.filterConfig.whitelist
  let conf := { conf with filterConfig := { conf.filterConfig with whitelist := whitelist } }
  if trusted then some (some info, conf)
  else do
    let (banned, blacklist) ← searchUserInList cjson info conf.filterConfig.blacklist
    let conf := { conf with filterConfig := { conf.filterConfig with blacklist := blacklist } }
    some (if banned then none else some info, conf)

/-- `danmu_callback`: the record that is handed to `liveroom_info_send`, if any. -/
def danmuCallback (conf : BliveExtCfg Json) (msg : Json) :
    Option (Option UserInfo × BliveExtCfg Json) := do
  let jsonInfo := cjson.getObjectItem (some msg) "info"
  let danmuBody ← cjson.text (cjson.getArrayItem jsonInfo 1)
  let info ← danmuInfo cjson conf jsonInfo
  if danmuBody.val = literal "排队" then
    admitUser cjson conf { info with data := { info.data with cancelQueueUp := false } }
  else if danmuBody.val = literal "取消排队" then
    admitUser cjson conf { info with data := { info.data with cancelQueueUp := true } }
  else some (none, conf)

end Danmu

/-- The state of the two threads that turn messages into the queue. -/
structure LiveroomState (Json : Type) where
  conf : BliveExtCfg Json
  qlist : BliveQlist

/-- A message, what arrives of the record that is sent for it, and what `zero_alloc`
answers if it is asked. -/
structure LiveroomLabel (Json : Type) where
  msg : Json
  arrived : Option UserInfo
  mem : Option Addr

/-- `danmu_callback` and `liveroom_info_recv` on arbitrary messages, from some loaded
configuration on. A record arrives whole or not at all. -/
def liveroomSystem {Json : Type} (cjson : CJson Json) (conf : BliveExtCfg Json) :
    Math.System (LiveroomState Json) (LiveroomLabel Json) where
  init state := state.conf = conf ∧ qlistCreate true = (.ok, some state.qlist)
  step state label state' :=
    (∀ a ∈ label.mem, a ∉ state.qlist.live) ∧
      (∃ sent, danmuCallback cjson state.conf label.msg = some (sent, state'.conf) ∧
        (label.arrived = none ∨ label.arrived = sent)) ∧
      liveroomInfoRecv state.conf.queueUpConfig.toQueueUpConfig state.qlist label.arrived
        label.mem = some state'.qlist

/-! ## The text of the queue -/

/-- The colour of the row of a user. -/
def colorStr (conf : ColorConfig) (data : QlistUnitData) : Vector UInt8 8 :=
  if data.fleetLv ≠ BliveFleetLevel.none then conf.captColor
  else if data.fansPriceIsCurLiveroom then conf.fansColor
  else conf.othersColor

/-- What `sprintf` prints for a user. Both `%s` need a terminated string. -/
def rowText (conf : ColorConfig) (data : QlistUnitData) : Option (List UInt8) := do
  let color ← string (colorStr conf data).toList
  let name ← string data.danmuSenderName.toList
  some (literal "<p><font color=\"" ++ color ++ literal "\">" ++ name ++
    literal "</font></p>\r\n")

/-- `qlist_foreach_make_text`. The context is the buffer, or `none` once an access has
left a block. -/
def qlistForeachMakeText (conf : ColorConfig) (_anchorage : UInt32) (data : QlistUnitData)
    (dst : Option Buffer) : Bool × Option Buffer :=
  (true, do
    let dst ← dst
    let written ← string dst
    let row ← rowText conf data
    store dst written.length (row ++ [0]))

/-- `liveroom_qlist_make_text`. -/
def liveroomQlistMakeText (conf : ColorConfig) (q : BliveQlist) (dst : Buffer) : Option Buffer :=
  (qlistForeach q false (qlistForeachMakeText conf) (some dst)).bind Prod.snd

end BliveQueue.Callbacks
