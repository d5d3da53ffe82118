/-
# The colours of the rows

An entry of the queue is the record of the latest message with which its user queued up,
and the renderer chooses the colour by the fleet level and the flag of this record. The
flag is set for a medal from another room, where it should be set for one from this room,
so the colours for fans and for others change places. The row of a user still has the
right colour if he belongs to the fleet, wears no medal, or these two colours are one.
-/

import BliveQueue.Callbacks.FirstCome
import BliveQueue.Callbacks.Message
import BliveQueue.Callbacks.QueueText

namespace BliveQueue.Callbacks

open BliveQueue.Config BliveQueue.Math BliveQueue.Math.CharBuffer
open BliveQueue.Utils BliveQueue.Utils.QList BliveQueue.QList

variable {Json : Type} {cjson : CJson Json} {conf : BliveExtCfg Json} {msg : Json}
  {history : List (LiveroomLabel Json)} {state state' : LiveroomState Json}
  {label : LiveroomLabel Json} {info : UserInfo} {data : QlistUnitData} {q q' : BliveQlist}
  {s : Sequence} {p : Pair} {a : UInt32} {mem : Option Addr} {dst : Buffer}

/-! ## The status of a sender -/

/-- The fleet level of the sender, `info[7]`. -/
def fleetLevel (cjson : CJson Json) (msg : Json) : UInt32 :=
  ((cjson.int (cjson.getArrayItem (messageInfo cjson msg) 7)).map Int32.toUInt32).getD 0

/-- The sender wears a medal of the host of this room. -/
def WearsHostMedal (cjson : CJson Json) (conf : BliveExtCfg Json) (msg : Json) : Prop :=
  ∃ host ∈ medalHost cjson msg, host.val = text conf.queueUpConfig.hostName.toList

instance (cjson : CJson Json) (conf : BliveExtCfg Json) (msg : Json) :
    Decidable (WearsHostMedal cjson conf msg) :=
  inferInstanceAs (Decidable
    (∃ host ∈ medalHost cjson msg, host.val = text conf.queueUpConfig.hostName.toList))

/-- The colour of a sender by his status. -/
def statusColor (cjson : CJson Json) (conf : BliveExtCfg Json) (msg : Json) : Vector UInt8 8 :=
  if fleetLevel cjson msg ≠ BliveFleetLevel.none then conf.colorConfig.captColor
  else if WearsHostMedal cjson conf msg then conf.colorConfig.fansColor
  else conf.colorConfig.othersColor

/-- The flag of the sender's record does not matter for his colour. -/
def FlagIdle (cjson : CJson Json) (conf : BliveExtCfg Json) (msg : Json) : Prop :=
  fleetLevel cjson msg ≠ BliveFleetLevel.none ∨ medalHost cjson msg = none ∨
    text conf.colorConfig.fansColor.toList = text conf.colorConfig.othersColor.toList

instance (cjson : CJson Json) (conf : BliveExtCfg Json) (msg : Json) :
    Decidable (FlagIdle cjson conf msg) :=
  inferInstanceAs (Decidable
    (fleetLevel cjson msg ≠ BliveFleetLevel.none ∨ medalHost cjson msg = none ∨
      text conf.colorConfig.fansColor.toList = text conf.colorConfig.othersColor.toList))

/-- The flag of a record says that there is a medal, and that it is from another room. -/
theorem RecordOf.flag_iff (h : RecordOf cjson conf msg info)
    (hhost : 0 ∈ conf.queueUpConfig.hostName.toList) :
    info.data.fansPriceIsCurLiveroom = true ↔
      (medalHost cjson msg).isSome ∧ ¬ WearsHostMedal cjson conf msg := by
  rw [h.medal]
  have hholds := holds_of_mem hhost
  cases hmedal : medalHost cjson msg with
  | none => simp
  | some host =>
      have hequals := hholds.equalsString_eq host.property
      simp [WearsHostMedal, hmedal, hequals, eq_comm]

/-- The colour of a record is the one of its sender exactly if the flag does not matter. -/
theorem RecordOf.colorStr_iff (h : RecordOf cjson conf msg info)
    (hhost : 0 ∈ conf.queueUpConfig.hostName.toList) :
    text (colorStr conf.colorConfig info.data).toList = text (statusColor cjson conf msg).toList ↔
      FlagIdle cjson conf msg := by
  have hlevel : fleetLevel cjson msg = info.data.fleetLv := by rw [fleetLevel, h.fleetLv]; rfl
  have hflag := h.flag_iff hhost
  by_cases hfleet : info.data.fleetLv = BliveFleetLevel.none
  · cases hmedal : medalHost cjson msg with
    | none =>
        have hnone : ¬ WearsHostMedal cjson conf msg := by simp [WearsHostMedal, hmedal]
        have hoff : ¬ info.data.fansPriceIsCurLiveroom = true := by simp [hflag, hmedal]
        simp [colorStr, statusColor, FlagIdle, hlevel, hfleet, hmedal, hnone, hoff]
    | some host =>
        by_cases hwears : WearsHostMedal cjson conf msg
        · have hoff : ¬ info.data.fansPriceIsCurLiveroom = true := by simp [hflag, hwears]
          simp [colorStr, statusColor, FlagIdle, hlevel, hfleet, hmedal, hwears, hoff, eq_comm]
        · have hon : info.data.fansPriceIsCurLiveroom = true := by simp [hflag, hwears, hmedal]
          simp [colorStr, statusColor, FlagIdle, hlevel, hfleet, hmedal, hwears, hon]
  · simp [colorStr, statusColor, FlagIdle, hlevel, hfleet]

/-! ## The latest message of a user -/

/-- The message, if its record has arrived and queues up under some uid. -/
def queueUpBy (a : UInt32) (label : LiveroomLabel Json) : Option Json :=
  if ∃ info ∈ label.arrived, info.data.cancelQueueUp = false ∧ info.data.danmuSenderUid = a then
    some label.msg
  else none

/-- The latest message whose record queues up under some uid. While the user is queued, it
is the latest one that the queue has accepted, since an entry is updated without fail. -/
def lastQueueUp (history : List (LiveroomLabel Json)) (a : UInt32) : Option Json :=
  history.reverse.findSome? (queueUpBy a)

theorem lastQueueUp_concat (history : List (LiveroomLabel Json)) (label : LiveroomLabel Json)
    (a : UInt32) :
    lastQueueUp (history ++ [label]) a = (queueUpBy a label).or (lastQueueUp history a) := by
  rw [lastQueueUp, List.reverse_concat, List.findSome?_cons]
  cases queueUpBy a label with
  | none => rfl
  | some msg => rfl

theorem lastQueueUp_of_cancel (h : label.arrived = some info)
    (hcancel : info.data.cancelQueueUp = true) (a : UInt32) :
    lastQueueUp (history ++ [label]) a = lastQueueUp history a := by
  simp [lastQueueUp_concat, queueUpBy, h, hcancel]

theorem lastQueueUp_of_other (h : label.arrived = some info)
    (hother : info.data.danmuSenderUid ≠ a) :
    lastQueueUp (history ++ [label]) a = lastQueueUp history a := by
  simp [lastQueueUp_concat, queueUpBy, h, hother]

theorem lastQueueUp_of_sender (h : label.arrived = some info)
    (hcancel : info.data.cancelQueueUp = false) :
    lastQueueUp (history ++ [label]) info.data.danmuSenderUid = some label.msg := by
  simp [lastQueueUp_concat, queueUpBy, h, hcancel]

/-- An entry holds the record of the latest message of its user. -/
def UpToDate (cjson : CJson Json) (conf : BliveExtCfg Json) (history : List (LiveroomLabel Json))
    (p : Pair) : Prop :=
  ∃ msg info weight, lastQueueUp history p.1 = some msg ∧ RecordOf cjson conf msg info ∧
    p.2 = { info.data with weight := weight }

/-- The step for a message leaves room for the unit it may add. -/
def HasRoomForMessage (state : LiveroomState Json) (label : LiveroomLabel Json) : Prop :=
  HasRoomFor state.qlist (label.arrived, label.mem)

/-! ## Runs -/

/-- After a request an entry is the one that was asked for, or an old one of another user. -/
theorem mem_of_appendUpdate {line line' : List Pair} {d : QlistUnitData} {ret : QlistRet}
    (step : LineStep line (.appendUpdate a d mem) ret line') (hp : p ∈ line') :
    p = (a, d) ∨ p ∈ line ∧ a ≠ p.1 := by
  have hkept : ∀ {rest : List Pair}, a ∉ rest.map Prod.fst → p ∈ rest → p ∈ rest ∧ a ≠ p.1 := by
    intro rest habsent hmem
    exact ⟨hmem, fun heq => habsent (heq ▸ List.mem_map_of_mem hmem)⟩
  cases step with
  | refresh _ =>
      have hiff := mem_replaceData_iff.mp (show (p.1, p.2) ∈ replaceData a d line from hp)
      by_cases hsame : a = p.1
      · rw [if_pos hsame] at hiff
        exact Or.inl (Prod.ext hsame.symm hiff.1)
      · rw [if_neg hsame] at hiff
        exact Or.inr ⟨hiff, hsame⟩
  | join habsent =>
      rcases List.mem_append.mp hp with hfront | hback
      · exact Or.inr (hkept habsent (List.mem_append_left _ hfront))
      · rcases List.mem_cons.mp hback with rfl | hback
        · exact Or.inl rfl
        · exact Or.inr (hkept habsent (List.mem_append_right _ hback))
  | outOfMem habsent => exact Or.inr (hkept habsent hp)
  | refuse habsent => exact Or.inr (hkept habsent hp)

/-- The queue is sound and its entries are up to date; without queueing by messages it is
empty. -/
structure Current (cjson : CJson Json) (conf : BliveExtCfg Json)
    (history : List (LiveroomLabel Json)) (s : Sequence) : Prop where
  sound : s.Sound
  closed : conf.queueUpConfig.allowDanmuQueueup = false → s.line = []
  entries : ∀ p ∈ s.line, UpToDate cjson conf history p

/-- The user who gives his place up leaves, and no other record becomes old. -/
theorem Current.cancel (h : Current cjson conf history s) (hrep : Represents q s)
    (harrived : label.arrived = some info) (hcancel : info.data.cancelQueueUp = true)
    {ret : QlistRet}
    (hcall : QList.call q (.subtract info.data.danmuSenderUid) = some (ret, q')) :
    ∃ s', Represents q' s' ∧ Current cjson conf (history ++ [label]) s' := by
  have hroom : HasRoom q (.subtract info.data.danmuSenderUid, ret) := trivial
  obtain ⟨hs', hrep', step⟩ := hrep.sound_step h.sound hroom ⟨trivial, hcall⟩
  have hsub : ∀ p ∈ (s.call (.subtract info.data.danmuSenderUid)).2.line, p ∈ s.line := by
    intro p hp
    rw [step.eq_dropAnchorage] at hp
    exact (List.mem_filter.mp hp).1
  refine ⟨_, hrep', hs', ?_, ?_⟩
  · intro hclosed
    apply List.eq_nil_iff_forall_not_mem.mpr
    intro p hp
    rw [h.closed hclosed] at hsub
    cases hsub p hp
  · intro p hp
    obtain ⟨msg, info', weight, hlast, hrest⟩ := h.entries p (hsub p hp)
    exact ⟨msg, info', weight, (lastQueueUp_of_cancel harrived hcancel p.1).trans hlast, hrest⟩

/-- The user who queues up gets the record of his message. -/
theorem Current.queueUp (h : Current cjson conf history s) (hrep : Represents q s)
    (hrecord : RecordOf cjson conf label.msg info) (harrived : label.arrived = some info)
    (hcancel : info.data.cancelQueueUp = false)
    (hallow : conf.queueUpConfig.allowDanmuQueueup = true) {weight : UInt32} {ret : QlistRet}
    {request : QlistCall}
    (hrequest : request =
      .appendUpdate info.data.danmuSenderUid { info.data with weight := weight } label.mem)
    (hroom : HasRoom q (request, ret)) (hmalloc : request.MallocContract q)
    (hcall : QList.call q request = some (ret, q')) :
    ∃ s', Represents q' s' ∧ Current cjson conf (history ++ [label]) s' := by
  obtain ⟨hs', hrep', step⟩ := hrep.sound_step h.sound hroom ⟨hmalloc, hcall⟩
  subst hrequest
  refine ⟨_, hrep', hs', ?_, ?_⟩
  · intro hclosed
    rw [hallow] at hclosed
    cases hclosed
  · intro p hp
    rcases mem_of_appendUpdate step hp with rfl | ⟨hold, hother⟩
    · exact ⟨label.msg, info, weight, lastQueueUp_of_sender harrived hcancel, hrecord, rfl⟩
    · obtain ⟨msg, info', weight', hlast, hrest⟩ := h.entries p hold
      exact ⟨msg, info', weight', (lastQueueUp_of_other harrived hother).trans hlast, hrest⟩

/-- A record that arrives keeps the entries up to date. -/
theorem Current.recv (h : Current cjson conf history s) (hrep : Represents q s)
    (hrecord : RecordOf cjson conf label.msg info) (harrived : label.arrived = some info)
    (hroom : HasRoomFor q (label.arrived, label.mem)) (hfresh : ∀ a ∈ label.mem, a ∉ q.live)
    (hrecv : liveroomInfoRecv conf.queueUpConfig.toQueueUpConfig q (some info) label.mem =
      some q') :
    ∃ s', Represents q' s' ∧ Current cjson conf (history ++ [label]) s' := by
  have hroom : info.data.cancelQueueUp = true ∨ IsQueued q info.data.danmuSenderUid ∨
      q.elemNum ≠ 2 ^ 32 - 1 := hroom info harrived
  cases hcancel : info.data.cancelQueueUp with
  | true =>
      obtain ⟨ret, hcall⟩ := exists_call_of_recv (recvCall_of_cancel hcancel) hrecv
      exact h.cancel hrep harrived hcancel hcall
  | false =>
      cases hallow : conf.queueUpConfig.allowDanmuQueueup with
      | false =>
          have hweight : recvWeight conf.queueUpConfig.toQueueUpConfig info = none := by
            simp [recvWeight, hrecord.infoType, hallow]
          obtain rfl := eq_of_recv (recvCall_of_refused hcancel hweight) hrecv
          refine ⟨s, hrep, h.sound, h.closed, ?_⟩
          rw [h.closed hallow]
          intro p hp
          cases hp
      | true =>
          have hweight : recvWeight conf.queueUpConfig.toQueueUpConfig info =
              some (queueUpWeight conf.queueUpConfig.toQueueUpConfig info 1 2) := by
            simp [recvWeight, hrecord.infoType, hallow]
          have hasked : recvCall conf.queueUpConfig.toQueueUpConfig info label.mem = some _ :=
            recvCall_of_weight hcancel hweight
          obtain ⟨ret, hcall⟩ := exists_call_of_recv hasked hrecv
          apply h.queueUp hrep hrecord harrived hcancel hallow rfl _ _ hcall
          · exact hroom.resolve_left (by simp [hcancel])
          · exact recvCall_mallocContract hfresh hasked

/-- The rules are those of the start, and the entries are up to date. -/
structure Remembers (cjson : CJson Json) (conf : BliveExtCfg Json)
    (history : List (LiveroomLabel Json)) (state : LiveroomState Json) : Prop where
  rules : state.conf.queueUpConfig = conf.queueUpConfig
  queue : ∃ s, Represents state.qlist s ∧ Current cjson conf history s

theorem Remembers.of_init (h : (liveroomSystem cjson conf).init state) :
    Remembers cjson conf [] state := by
  obtain ⟨hconf, hcreate⟩ := h
  have hempty : state.qlist = emptyQlist := eq_emptyQlist_of_init hcreate
  refine ⟨by rw [hconf], ⟨[], none⟩, hempty ▸ emptyQlist_represents, ?_⟩
  exact ⟨⟨by simp [Sequence.line], by simp⟩, fun _ => rfl, by simp [Sequence.line]⟩

theorem Remembers.step (h : Remembers cjson conf history state)
    (hroom : HasRoomForMessage state label)
    (taken : (liveroomSystem cjson conf).step state label state') :
    Remembers cjson conf (history ++ [label]) state' := by
  obtain ⟨hrules, s, hrep, hcurrent⟩ := h
  have hcallback : ∀ info ∈ label.arrived,
      danmuCallback cjson state.conf label.msg = some (some info, state'.conf) := by
    intro info hinfo
    exact callback_of_step taken hinfo
  obtain ⟨hfresh, ⟨sent, hsent, -⟩, hrecv⟩ := taken
  refine ⟨(danmuCallback_rules hsent).trans hrules, ?_⟩
  cases hlabel : label.arrived with
  | none =>
      rw [hlabel] at hrecv
      have hsame : state.qlist = state'.qlist := Option.some.inj hrecv
      refine ⟨s, hsame ▸ hrep, hcurrent.sound, hcurrent.closed, ?_⟩
      intro p hp
      obtain ⟨msg, info, weight, hlast, hrest⟩ := hcurrent.entries p hp
      refine ⟨msg, info, weight, ?_, hrest⟩
      rw [lastQueueUp_concat, queueUpBy, hlabel]
      simpa using hlast
  | some info =>
      have hrecord : RecordOf cjson conf label.msg info :=
        (RecordOf.of_danmuCallback (hcallback info hlabel)).of_rules hrules
      rw [hlabel, hrules] at hrecv
      exact hcurrent.recv hrep hrecord hlabel hroom hfresh hrecv

theorem remembers_of_run
    (run : (liveroomSystem cjson conf).Run HasRoomForMessage history state) :
    Remembers cjson conf history state := by
  apply System.Run.invariant (I := Remembers cjson conf) ?_ ?_ run
  · intro state hinit
    exact .of_init hinit
  · intro history state label state' _ hremembers hroom taken
    exact hremembers.step hroom taken

/-! ## The text -/

/-- The text has one row for each entry in order, and a row has the colour for the status
that the latest message of its user shows. -/
def RendersStatus (cjson : CJson Json) (history : List (LiveroomLabel Json))
    (state : LiveroomState Json) (dst : Buffer) : Prop :=
  ∃ line dst', QList.ring state.qlist = some line ∧
    liveroomQlistMakeText state.conf.colorConfig state.qlist dst = some dst' ∧
    Holds dst' (rows state.conf.colorConfig line) ∧
    ∀ p ∈ line, ∃ msg ∈ lastQueueUp history p.1,
      text (colorStr state.conf.colorConfig p.2).toList =
        text (statusColor cjson state.conf msg).toList

/-- The nickname of an entry is terminated. -/
theorem UpToDate.nameTerminated (h : UpToDate cjson conf history p) : NameTerminated p.2 := by
  obtain ⟨msg, info, weight, -, hrecord, hdata⟩ := h
  rw [hdata]
  exact hrecord.zero_mem_name

/-- The colour of an entry is printed, and is the right one. -/
def RightColour (cjson : CJson Json) (conf : BliveExtCfg Json)
    (history : List (LiveroomLabel Json)) (p : Pair) : Prop :=
  0 ∈ (colorStr conf.colorConfig p.2).toList ∧ ∃ msg ∈ lastQueueUp history p.1,
    text (colorStr conf.colorConfig p.2).toList = text (statusColor cjson conf msg).toList

/-- The row of an entry has the right colour exactly if this colour is terminated and the
flag does not matter. -/
theorem UpToDate.rightColour_iff (h : UpToDate cjson conf history p)
    (hhost : 0 ∈ conf.queueUpConfig.hostName.toList) :
    RightColour cjson conf history p ↔ ∀ msg ∈ lastQueueUp history p.1,
      0 ∈ (statusColor cjson conf msg).toList ∧ FlagIdle cjson conf msg := by
  obtain ⟨msg, info, weight, hlast, hrecord, hdata⟩ := h
  have hcolour : colorStr conf.colorConfig p.2 = colorStr conf.colorConfig info.data := by
    rw [hdata]
    rfl
  simp only [RightColour, hlast, Option.mem_some_iff, exists_eq_left', forall_eq', hcolour,
    ← hrecord.colorStr_iff hhost]
  apply and_congr_left
  intro hsame
  rw [zero_mem_iff, zero_mem_iff, hsame, Vector.length_toList, Vector.length_toList]

theorem UpToDate.of_rules {conf' : BliveExtCfg Json} (h : UpToDate cjson conf history p)
    (hrules : conf.queueUpConfig = conf'.queueUpConfig) : UpToDate cjson conf' history p := by
  obtain ⟨msg, info, weight, hlast, hrecord, hdata⟩ := h
  exact ⟨msg, info, weight, hlast, hrecord.of_rules hrules, hdata⟩

/-- Rows that fit are rendered by status exactly if each of them has the right colour: at a
colour that is not terminated the renderer stops. -/
theorem rendersStatus_iff_rightColour (hrep : Represents state.qlist s) (hsound : s.Sound)
    (hentries : ∀ p ∈ s.line, UpToDate cjson state.conf history p) (hcleared : Holds dst [])
    (hfits : (rows state.conf.colorConfig s.line).length < dst.length) :
    RendersStatus cjson history state dst ↔
      ∀ p ∈ s.line, RightColour cjson state.conf history p := by
  have htext : liveroomQlistMakeText state.conf.colorConfig state.qlist dst =
      (feed (qlistForeachMakeText state.conf.colorConfig) s.line (some dst)).2 :=
    liveroomQlistMakeText_eq hrep (hrep.traversal_eq_line hsound)
  constructor
  · intro hrenders p hp
    obtain ⟨line, dst', hline, hprinted, -, hshown⟩ := hrenders
    obtain rfl := Option.some.inj (hline.symm.trans hrep.ring_eq_line)
    refine ⟨?_, hshown p hp⟩
    apply Classical.byContradiction
    intro hcolour
    rw [htext, feed_makeText_unterminated hp hcolour] at hprinted
    cases hprinted
  · intro hright
    have hnames : ∀ p ∈ s.line, NameTerminated p.2 := by
      intro p hp
      exact (hentries p hp).nameTerminated
    have hroom : ([] : List UInt8).length + (rows state.conf.colorConfig s.line).length <
        dst.length := by
      simpa using hfits
    obtain ⟨dst', hfeed, -, hholds⟩ :=
      feed_makeText_fits (fun p hp => (hright p hp).1) hnames hcleared hroom
    exact ⟨s.line, dst', hrep.ring_eq_line, by rw [htext, hfeed], hholds,
      fun p hp => (hright p hp).2⟩

/-- If the rows fit into the buffer, their colours follow the status of the senders exactly
if for the latest message of each queued user this colour is terminated and the flag does
not matter. -/
theorem renders_status_iff (hhost : 0 ∈ conf.queueUpConfig.hostName.toList)
    (run : (liveroomSystem cjson conf).Run HasRoomForMessage history state)
    (hcleared : Holds dst []) :
    ∃ line, QList.ring state.qlist = some line ∧
      ((rows state.conf.colorConfig line).length < dst.length →
        (RendersStatus cjson history state dst ↔
          ∀ p ∈ line, ∀ msg ∈ lastQueueUp history p.1,
            0 ∈ (statusColor cjson state.conf msg).toList ∧ FlagIdle cjson state.conf msg)) := by
  obtain ⟨hrules, s, hrep, hcurrent⟩ := remembers_of_run run
  rw [← hrules] at hhost
  have hentries : ∀ p ∈ s.line, UpToDate cjson state.conf history p := by
    intro p hp
    exact (hcurrent.entries p hp).of_rules hrules.symm
  refine ⟨s.line, hrep.ring_eq_line, ?_⟩
  intro hfits
  rw [rendersStatus_iff_rightColour hrep hcurrent.sound hentries hcleared hfits]
  apply forall₂_congr
  intro p hp
  exact (hentries p hp).rightColour_iff hhost

/-! ## Two medals -/

/-- The places of a message of some sender, with his fleet level and the host on his medal,
if he wears one. -/
inductive StatusNode
  | msg (sender fleet : ℤ) (host : Option String)
  | info (sender fleet : ℤ) (host : Option String)
  | sender (uid : ℤ)
  | medal (host : String)
  | text (value : String)
  | number (value : ℤ)
  | empty
  deriving DecidableEq

/-- The trees at these places. -/
def StatusNode.shape : StatusNode → CJson.Shape StatusNode
  | .msg uid fleet host => .object [("cmd", .text "DANMU_MSG"), ("info", .info uid fleet host)]
  | .info uid fleet host =>
    .array [.empty, .text "排队", .sender uid, host.elim .empty .medal, .number 0, .number 0,
      .number 0, .number fleet]
  | .sender uid => .array [.number uid, .text "属官一号", .number 0]
  | .medal host => .array [.number 5, .text "小纸鱼", .text host]
  | .text value => .string value
  | .number value => .number value
  | .empty => .array []

/-- cJSON on these trees. -/
def statusJson : CJson StatusNode := CJson.ofShape StatusNode.shape [] 0

/-- The configuration of a room with the shipped colours. -/
def hostConf : BliveExtCfg StatusNode where
  roomId := 1
  queueUpConfig :=
    ⟨⟨false, true, true⟩, Vector.ofFn fun i => (literal "薄海纸鱼").getD i.val 0, 0⟩
  colorConfig := shippedColours
  rearrangeConfig := ⟨false, false, 0, 0, false, 0⟩
  filterConfig := ⟨none, none⟩

/-- Execution of one message whose record arrives. -/
def messageNext (state : LiveroomState StatusNode) (input : StatusNode × Option Addr) :
    Option (LiveroomLabel StatusNode × LiveroomState StatusNode) := do
  let (sent, conf) ← danmuCallback statusJson state.conf input.1
  let q ← liveroomInfoRecv state.conf.queueUpConfig.toQueueUpConfig state.qlist sent input.2
  if HasRoomFor state.qlist (sent, input.2) ∧ ∀ a ∈ input.2, a ∉ state.qlist.live then
    some (⟨input.1, sent, input.2⟩, ⟨conf, q⟩)
  else none

theorem messageNext_sound (state : LiveroomState StatusNode) (input : StatusNode × Option Addr)
    (label : LiveroomLabel StatusNode) (state' : LiveroomState StatusNode)
    (h : messageNext state input = some (label, state')) :
    HasRoomForMessage state label ∧
      (liveroomSystem statusJson hostConf).step state label state' := by
  simp only [messageNext, Option.bind_eq_bind, Option.bind_eq_some_iff] at h
  obtain ⟨⟨sent, conf⟩, hsent, q, hrecv, h⟩ := h
  split at h
  next hallowed =>
    obtain ⟨rfl, rfl⟩ := Prod.mk.inj (Option.some.inj h)
    exact ⟨hallowed.1, hallowed.2, ⟨sent, hsent, Or.inr rfl⟩, hrecv⟩
  next => cases h

/-- A test passed by the execution of some messages is passed at the end of a run. -/
theorem exists_message_run (inputs : List (StatusNode × Option Addr))
    (test : List (LiveroomLabel StatusNode) × LiveroomState StatusNode → Bool)
    (h : (System.execute messageNext ⟨hostConf, emptyQlist⟩ inputs).any test = true) :
    ∃ history state, (liveroomSystem statusJson hostConf).Run HasRoomForMessage history state ∧
      test (history, state) = true :=
  System.Run.exists_of_execute messageNext_sound ⟨rfl, rfl⟩ inputs test h

/-- Somebody of the fleet with a medal of this room, and somebody without a medal. -/
theorem renders_status_of_two :
    ∃ history state, (liveroomSystem statusJson hostConf).Run HasRoomForMessage history state ∧
      (QList.ring state.qlist).map List.length = some 2 ∧
      RendersStatus statusJson history state freshData := by
  obtain ⟨history, state, run, htest⟩ := exists_message_run
    [(.msg 50500335 3 (some "薄海纸鱼"), some 1), (.msg 50500336 0 none, some 2)]
    (fun r => (QList.ring r.2.qlist).any fun line => line.length = 2 ∧
      (rows r.2.conf.colorConfig line).length < Httpd.dataSize ∧
      ∀ p ∈ line, ∀ msg ∈ lastQueueUp r.1 p.1,
        0 ∈ (statusColor statusJson r.2.conf msg).toList ∧ FlagIdle statusJson r.2.conf msg)
    (by decide +kernel)
  obtain ⟨line, hring, hline⟩ := (Option.any_eq_true _ _).mp htest
  obtain ⟨hlength, hfits, hidle⟩ := of_decide_eq_true hline
  obtain ⟨line', hring', hiff⟩ := renders_status_iff (by decide +kernel) run holds_freshData
  obtain rfl := Option.some.inj (hring.symm.trans hring')
  refine ⟨history, state, run, ?_, ?_⟩
  · rw [hring, Option.map_some, hlength]
  · rw [length_freshData] at hiff
    exact (hiff hfits).mpr hidle

/-- A medal of this room gives the colour for others, and a medal of another room the colour
for fans. -/
theorem exists_wrong_colour :
    ∃ history state, (liveroomSystem statusJson hostConf).Run HasRoomForMessage history state ∧
      history.map LiveroomLabel.msg =
        [.msg 50500335 0 (some "薄海纸鱼"), .msg 50500336 0 (some "主播")] ∧
      (∃ line, QList.ring state.qlist = some line ∧
        line.map (fun p => colorStr state.conf.colorConfig p.2) =
          [shippedColours.othersColor, shippedColours.fansColor] ∧
        (rows state.conf.colorConfig line).length < freshData.length) ∧
      ¬ RendersStatus statusJson history state freshData := by
  obtain ⟨history, state, run, htest⟩ := exists_message_run
    [(.msg 50500335 0 (some "薄海纸鱼"), some 1), (.msg 50500336 0 (some "主播"), some 2)]
    (fun r => (QList.ring r.2.qlist).any fun line =>
      r.1.map LiveroomLabel.msg =
        [.msg 50500335 0 (some "薄海纸鱼"), .msg 50500336 0 (some "主播")] ∧
      line.map (fun p => colorStr r.2.conf.colorConfig p.2) =
        [shippedColours.othersColor, shippedColours.fansColor] ∧
      (rows r.2.conf.colorConfig line).length < Httpd.dataSize ∧
      ∃ p ∈ line, ∀ msg ∈ lastQueueUp r.1 p.1, text (colorStr r.2.conf.colorConfig p.2).toList ≠
        text (statusColor statusJson r.2.conf msg).toList)
    (by decide +kernel)
  obtain ⟨line, hring, hline⟩ := (Option.any_eq_true _ _).mp htest
  obtain ⟨hmsgs, hcolours, hfits, p, hp, hwrong⟩ := of_decide_eq_true hline
  refine ⟨history, state, run, hmsgs, ⟨line, hring, hcolours, length_freshData ▸ hfits⟩, ?_⟩
  intro hrenders
  obtain ⟨line', _, hring', -, -, hshown⟩ := hrenders
  obtain rfl := Option.some.inj (hring.symm.trans hring')
  obtain ⟨msg, hmsg, hright⟩ := hshown p hp
  exact hwrong msg hmsg hright

end BliveQueue.Callbacks
