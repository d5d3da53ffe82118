/-
# The identity of a viewer

The uid of a viewer is a number in a message, then a C `int`, then the anchorage of an
entry. Only the first of these conversions loses something: `valueint` saturates, so all
uids from `2 ^ 31 - 1` on become one anchorage. Two viewers share an entry exactly if
both of their uids are that large.
-/

import BliveQueue.Callbacks.Message
import BliveQueue.Callbacks.Receiver
import BliveQueue.QList.MapView

namespace BliveQueue.Callbacks

open BliveQueue.Config BliveQueue.Math BliveQueue.Math.CharBuffer
open BliveQueue.Utils BliveQueue.Utils.QList BliveQueue.QList

variable {Json : Type} {cjson : CJson Json} {number : Json → Option ℤ}

/-- Positive numbers stay apart unless both are saturated. -/
theorem saturated_eq_iff {u v : ℤ} (hu : 0 < u) (hv : 0 < v) :
    max (-2 ^ 31) (min u intMax) = max (-2 ^ 31) (min v intMax) ↔
      u = v ∨ intMax ≤ u ∧ intMax ≤ v := by
  unfold intMax
  omega

/-! ## Runs -/

variable {conf : BliveExtCfg Json} {history : List (LiveroomLabel Json)}
  {state state' : LiveroomState Json} {label label' : LiveroomLabel Json}
  {q q' : BliveQlist} {s : Sequence} {read : Option UserInfo} {mem : Option Addr}

/-- A viewer has queued up under an anchorage. -/
def QueuedBy (cjson : CJson Json) (number : Json → Option ℤ)
    (history : List (LiveroomLabel Json)) (a : UInt32) (u : ℤ) : Prop :=
  ∃ label ∈ history, senderUid cjson number label.msg = some u ∧
    ∃ info ∈ label.arrived, info.data.cancelQueueUp = false ∧ info.data.danmuSenderUid = a

/-- The senders of all messages have positive uids. -/
def PositiveSenders (cjson : CJson Json) (number : Json → Option ℤ)
    (history : List (LiveroomLabel Json)) : Prop :=
  ∀ label ∈ history, ∃ u, senderUid cjson number label.msg = some u ∧ 0 < u

/-- No two senders have different uids that both reach `INT_MAX`. -/
def DistinctSenders (cjson : CJson Json) (number : Json → Option ℤ)
    (history : List (LiveroomLabel Json)) : Prop :=
  ∀ label ∈ history, ∀ label' ∈ history, ∀ u ∈ senderUid cjson number label.msg,
    ∀ v ∈ senderUid cjson number label'.msg, u ≠ v → u < intMax ∨ v < intMax

/-- Every entry of the queue belongs to one viewer, and the step for a message keeps the
entries of all viewers but its sender. -/
def EntriesKeptApart (cjson : CJson Json) (number : Json → Option ℤ)
    (history : List (LiveroomLabel Json)) (state : LiveroomState Json)
    (label : LiveroomLabel Json) (state' : LiveroomState Json) : Prop :=
  ∃ line line', QList.ring state.qlist = some line ∧ QList.ring state'.qlist = some line' ∧
    ∀ p ∈ line, ∃ u, QueuedBy cjson number history p.1 u ∧
      (∀ w, QueuedBy cjson number history p.1 w → w = u) ∧
      (senderUid cjson number label.msg ≠ some u → p ∈ line')

/-- What a record that is read does to the units of the queue: those of other viewers stay,
and a new one was queued up by the record. -/
structure RecvUnits (read : Option UserInfo) (s s' : Sequence) : Prop where
  kept : ∀ c ∈ s.cells, (∀ info ∈ read, c.unit.anchorage ≠ info.data.danmuSenderUid) →
    c ∈ s'.cells
  queued : ∀ c ∈ s'.cells, c ∈ s.cells ∨ ∃ info ∈ read, info.data.cancelQueueUp = false ∧
    info.data.danmuSenderUid = c.unit.anchorage

theorem RecvUnits.refl (read : Option UserInfo) (s : Sequence) : RecvUnits read s s :=
  ⟨fun _ hc _ => hc, fun _ hc => Or.inl hc⟩

/-- Only a record that queues up appends. -/
theorem cancel_eq_false_of_recvCall {conf : QueueUpConfig} {info : UserInfo} {a : UInt32}
    {d : QlistUnitData} {mem' : Option Addr}
    (h : recvCall conf info mem = some (.appendUpdate a d mem')) :
    info.data.cancelQueueUp = false := by
  rw [← Bool.not_eq_true]
  intro hcancel
  rw [recvCall_of_cancel hcancel] at h
  cases h

/-- The call for a record touches no unit of another user, and only a record that queues up
adds one. -/
theorem RecvUnits.of_call {conf : QueueUpConfig} {info : UserInfo} {call : QlistCall}
    {ret : QlistRet} (h : Represents q s) (hrecv : recvCall conf info mem = some call)
    (hmalloc : call.MallocContract q) (hcall : QList.call q call = some (ret, q')) :
    ∃ s', Represents q' s' ∧ RecvUnits (some info) s s' := by
  have huid : anchorageOf call = info.data.danmuSenderUid := anchorageOf_recvCall hrecv
  obtain ⟨q'', hcall', hrep⟩ := h.call hmalloc
  obtain ⟨-, rfl⟩ := Prod.mk.inj (Option.some.inj (hcall'.symm.trans hcall))
  refine ⟨_, hrep, ?_, ?_⟩
  · intro c hc hne
    apply Sequence.mem_call_of_ne h.addr_injOn hc
    rw [huid]
    exact hne info rfl
  · intro c hc
    rcases Sequence.mem_call h.addr_injOn hc with hold | ⟨mem', rfl⟩
    · exact Or.inl hold
    · exact Or.inr ⟨info, rfl, cancel_eq_false_of_recvCall hrecv, huid.symm⟩

/-- What `liveroom_info_recv` does to the units of the queue. -/
theorem recv_units {conf : QueueUpConfig} (h : Represents q s) (hfresh : ∀ a ∈ mem, a ∉ q.live)
    (hrecv : liveroomInfoRecv conf q read mem = some q') :
    ∃ s', Represents q' s' ∧ RecvUnits read s s' := by
  cases read with
  | none =>
      obtain rfl := Option.some.inj hrecv
      exact ⟨s, h, .refl none s⟩
  | some info =>
      cases hasked : recvCall conf info mem with
      | none =>
          obtain rfl := eq_of_recv hasked hrecv
          exact ⟨s, h, .refl (some info) s⟩
      | some call =>
          obtain ⟨ret, hcall⟩ := exists_call_of_recv hasked hrecv
          exact RecvUnits.of_call h hasked (recvCall_mallocContract hfresh hasked) hcall

/-- What arrives for a message carries the uid of its sender. -/
def CarriesSender (cjson : CJson Json) (label : LiveroomLabel Json) : Prop :=
  ∀ info ∈ label.arrived, ∃ uid, cjson.getArrayItem
      (cjson.getArrayItem (cjson.getObjectItem (some label.msg) "info") 2) 0 = some uid ∧
    info.data.danmuSenderUid = (cjson.valueint uid).toUInt32

theorem carriesSender_of_step (taken : (liveroomSystem cjson conf).step state label state') :
    CarriesSender cjson label := by
  intro info hinfo
  exact (RecordOf.of_danmuCallback (callback_of_step taken hinfo)).uid

/-- Records with one uid come from one viewer, unless two viewers are saturated. -/
theorem sender_eq (hsat : cjson.Saturates number) (hcarries : CarriesSender cjson label)
    (hcarries' : CarriesSender cjson label') {info info' : UserInfo} {u v : ℤ}
    (hinfo : info ∈ label.arrived) (hinfo' : info' ∈ label'.arrived)
    (hu : senderUid cjson number label.msg = some u)
    (hv : senderUid cjson number label'.msg = some v) (hpos : 0 < u) (hpos' : 0 < v)
    (hdistinct : u ≠ v → u < intMax ∨ v < intMax)
    (huid : info.data.danmuSenderUid = info'.data.danmuSenderUid) : u = v := by
  obtain ⟨item, hitem, hvalue⟩ := hcarries info hinfo
  obtain ⟨item', hitem', hvalue'⟩ := hcarries' info' hinfo'
  have hnumber : number item = some u := number_of_senderUid hitem hu
  have hnumber' : number item' = some v := number_of_senderUid hitem' hv
  rw [hvalue, hvalue', valueint_eq_iff hsat hnumber hnumber', saturated_eq_iff hpos hpos'] at huid
  rcases huid with heq | ⟨hlarge, hlarge'⟩
  · exact heq
  · apply Classical.byContradiction
    intro hne
    rcases hdistinct hne with hlt | hlt
    · exact absurd hlarge (not_le.mpr hlt)
    · exact absurd hlarge' (not_le.mpr hlt)

/-- What holds along every run: all records carry their senders, and every unit of the
queue was queued up by a record. -/
structure Sourced (cjson : CJson Json) (history : List (LiveroomLabel Json))
    (state : LiveroomState Json) : Prop where
  carries : ∀ label ∈ history, CarriesSender cjson label
  queued : ∃ s, Represents state.qlist s ∧ ∀ c ∈ s.cells, ∃ label ∈ history,
    ∃ info ∈ label.arrived, info.data.cancelQueueUp = false ∧
      info.data.danmuSenderUid = c.unit.anchorage

theorem Sourced.step (h : Sourced cjson history state)
    (taken : (liveroomSystem cjson conf).step state label state') :
    Sourced cjson (history ++ [label]) state' := by
  obtain ⟨s, hrep, hqueued⟩ := h.queued
  obtain ⟨s', hrep', hunits⟩ := recv_units hrep taken.1 taken.2.2
  constructor
  · rw [List.forall_mem_append, List.forall_mem_singleton]
    exact ⟨h.carries, carriesSender_of_step taken⟩
  · refine ⟨s', hrep', ?_⟩
    intro c hc
    rcases hunits.queued c hc with hold | ⟨info, hinfo, hqueue⟩
    · obtain ⟨earlier, hmem, hrest⟩ := hqueued c hold
      exact ⟨earlier, List.mem_append_left _ hmem, hrest⟩
    · exact ⟨label, List.mem_append_right _ List.mem_cons_self, info, hinfo, hqueue⟩

theorem sourced_of_run (run : (liveroomSystem cjson conf).Trace history state) :
    Sourced cjson history state := by
  apply System.Run.invariant (I := Sourced cjson) ?_ ?_ run
  · intro state hinit
    have hempty : state.qlist = emptyQlist := eq_emptyQlist_of_init hinit.2
    exact ⟨by simp, ⟨[], none⟩, hempty ▸ emptyQlist_represents, by simp⟩
  · intro history state label state' _ hsourced _ taken
    exact hsourced.step taken

/-- Among senders with positive uids, no two of them saturated, entries are kept apart. -/
theorem entries_kept_apart (hsat : cjson.Saturates number)
    (run : (liveroomSystem cjson conf).Trace history state)
    (taken : (liveroomSystem cjson conf).step state label state')
    (hpositive : PositiveSenders cjson number (history ++ [label]))
    (hdistinct : DistinctSenders cjson number (history ++ [label])) :
    EntriesKeptApart cjson number history state label state' := by
  obtain ⟨hcarry, s, hrep, hqueued⟩ := sourced_of_run run
  obtain ⟨s', hrep', hunits⟩ := recv_units hrep taken.1 taken.2.2
  have hearlier : ∀ {l}, l ∈ history → l ∈ history ++ [label] := List.mem_append_left _
  have hlast : label ∈ history ++ [label] := List.mem_append_right _ List.mem_cons_self
  -- two records with one uid come from one viewer, also when the second is the new one
  have hsame : ∀ {l l' info info' u v}, l ∈ history ++ [label] → l' ∈ history ++ [label] →
      CarriesSender cjson l → CarriesSender cjson l' → info ∈ l.arrived → info' ∈ l'.arrived →
      senderUid cjson number l.msg = some u → senderUid cjson number l'.msg = some v →
      info.data.danmuSenderUid = info'.data.danmuSenderUid → u = v := by
    intro l l' info info' u v hl hl' hc hc' hinfo hinfo' hu hv huid
    obtain ⟨u', hu', hpos⟩ := hpositive l hl
    obtain ⟨v', hv', hpos'⟩ := hpositive l' hl'
    obtain rfl := Option.some.inj (hu.symm.trans hu')
    obtain rfl := Option.some.inj (hv.symm.trans hv')
    exact sender_eq hsat hc hc' hinfo hinfo' hu hv hpos hpos' (hdistinct l hl l' hl' u hu v hv) huid
  refine ⟨s.line, s'.line, hrep.ring_eq_line, hrep'.ring_eq_line, ?_⟩
  intro p hp
  obtain ⟨c, hc, rfl⟩ := List.mem_map.mp hp
  obtain ⟨owner, howner, info, hinfo, hqueue, huid⟩ := hqueued c hc
  obtain ⟨u, hu, -⟩ := hpositive owner (hearlier howner)
  refine ⟨u, ⟨owner, howner, hu, info, hinfo, hqueue, huid⟩, ?_, ?_⟩
  · intro w hw
    obtain ⟨other, hother, hw, info', hinfo', -, huid'⟩ := hw
    exact hsame (hearlier hother) (hearlier howner) (hcarry other hother) (hcarry owner howner)
      hinfo' hinfo hw hu (huid'.trans huid.symm)
  · intro hne
    apply List.mem_map_of_mem
    apply hunits.kept c hc
    intro info' hinfo' huid'
    obtain ⟨v, hv, -⟩ := hpositive label hlast
    have heq : u = v := hsame (hearlier howner) hlast (hcarry owner howner)
      (carriesSender_of_step taken) hinfo hinfo' hu hv (huid.trans huid')
    exact hne (heq ▸ hv)

/-- The records of two viewers differ exactly if their uids do not both reach `INT_MAX`;
and in every run without two such viewers, no message overwrites or removes the entry of
another viewer. -/
theorem viewers_kept_apart_iff (hsat : cjson.Saturates number) :
    (∀ (conf conf' next next' : BliveExtCfg Json) (msg msg' : Json) (info info' : UserInfo)
      (u v : ℤ),
      danmuCallback cjson conf msg = some (some info, next) →
      danmuCallback cjson conf' msg' = some (some info', next') →
      senderUid cjson number msg = some u → senderUid cjson number msg' = some v →
      0 < u → 0 < v → u ≠ v →
        (info.data.danmuSenderUid ≠ info'.data.danmuSenderUid ↔ u < intMax ∨ v < intMax)) ∧
    ∀ (conf : BliveExtCfg Json) (history : List (LiveroomLabel Json))
      (state state' : LiveroomState Json) (label : LiveroomLabel Json),
      (liveroomSystem cjson conf).Trace history state →
      (liveroomSystem cjson conf).step state label state' →
      PositiveSenders cjson number (history ++ [label]) →
      DistinctSenders cjson number (history ++ [label]) →
        EntriesKeptApart cjson number history state label state' := by
  constructor
  · intro conf conf' next next' msg msg' info info' u v hinfo hinfo' hu hv hpos hpos' hne
    obtain ⟨item, hitem, hvalue⟩ := (RecordOf.of_danmuCallback hinfo).uid
    obtain ⟨item', hitem', hvalue'⟩ := (RecordOf.of_danmuCallback hinfo').uid
    have hnumber : number item = some u := number_of_senderUid hitem hu
    have hnumber' : number item' = some v := number_of_senderUid hitem' hv
    rw [hvalue, hvalue', ne_eq, valueint_eq_iff hsat hnumber hnumber',
      saturated_eq_iff hpos hpos']
    unfold intMax
    omega
  · intro conf history state state' label run taken hpositive hdistinct
    exact entries_kept_apart hsat run taken hpositive hdistinct

/-! ## Four viewers -/

/-- Two viewers with common uids, and two whose uids are beyond `INT_MAX`. -/
inductive Viewer
  | first
  | second
  | large
  | larger
  deriving DecidableEq

/-- The uid of a viewer. -/
def Viewer.uid : Viewer → ℤ
  | .first => 50500335
  | .second => 50500336
  | .large => 2147483648
  | .larger => 2147483649

/-- The places of the messages with which these viewers queue up or cancel. -/
inductive DanmuNode
  | msg (sender : Viewer) (cancel : Bool)
  | command
  | info (sender : Viewer) (cancel : Bool)
  | body (cancel : Bool)
  | sender (sender : Viewer)
  | uid (sender : Viewer)
  | name
  | empty
  | zero
  deriving DecidableEq

open DanmuNode CJson.Shape in
/-- The trees of the messages. -/
def DanmuNode.shape : DanmuNode → CJson.Shape DanmuNode
  | msg viewer cancel => object [("cmd", command), ("info", info viewer cancel)]
  | command => string "DANMU_MSG"
  | info viewer cancel => array [empty, body cancel, sender viewer, empty, zero, zero, zero, zero]
  | body cancel => string (if cancel then "取消排队" else "排队")
  | sender viewer => array [uid viewer, name, zero]
  | uid viewer => .number viewer.uid
  | name => string "属官一号"
  | empty => array []
  | zero => .number 0

/-- cJSON on these messages. -/
def danmuJson : CJson DanmuNode := CJson.ofShape DanmuNode.shape [] 0

/-- The numbers in these messages. -/
def danmuNumber (node : DanmuNode) : Option ℤ := node.shape.numberOf

theorem Viewer.uid_pos (viewer : Viewer) : 0 < viewer.uid := by
  cases viewer <;> decide

theorem danmuJson_saturates : danmuJson.Saturates danmuNumber :=
  CJson.ofShape_saturates DanmuNode.shape [] 0

theorem senderUid_msg (viewer : Viewer) (cancel : Bool) :
    senderUid danmuJson danmuNumber (.msg viewer cancel) = some viewer.uid := by
  cases viewer <;> cases cancel <;> decide +kernel

/-- A configuration that admits everybody. -/
def openConf : BliveExtCfg DanmuNode where
  roomId := 1
  queueUpConfig := ⟨⟨false, true, true⟩, Vector.replicate _ 0, 0⟩
  colorConfig :=
    ⟨Vector.replicate _ 0, Vector.replicate _ 0, Vector.replicate _ 0, Vector.replicate _ 0⟩
  rearrangeConfig := ⟨false, false, 0, 0, false, 0⟩
  filterConfig := ⟨none, none⟩

/-- One message whose record arrives. -/
def liveroomNext (state : LiveroomState DanmuNode) (input : DanmuNode × Option Addr) :
    Option (LiveroomLabel DanmuNode × LiveroomState DanmuNode) :=
  if ∀ a ∈ input.2, a ∉ state.qlist.live then
    (danmuCallback danmuJson state.conf input.1).bind fun r =>
      (liveroomInfoRecv state.conf.queueUpConfig.toQueueUpConfig state.qlist r.1 input.2).map
        fun q => (⟨input.1, r.1, input.2⟩, ⟨r.2, q⟩)
  else none

theorem liveroomNext_sound {state state' : LiveroomState DanmuNode}
    {input : DanmuNode × Option Addr} {label : LiveroomLabel DanmuNode}
    (h : liveroomNext state input = some (label, state')) :
    (liveroomSystem danmuJson openConf).step state label state' := by
  unfold liveroomNext at h
  split at h
  next hfresh =>
    obtain ⟨⟨sent, conf⟩, hsent, hrecv⟩ := Option.bind_eq_some_iff.mp h
    obtain ⟨q, hq, hpair⟩ := Option.map_eq_some_iff.mp hrecv
    obtain ⟨rfl, rfl⟩ := Prod.mk.inj hpair
    exact ⟨hfresh, ⟨sent, hsent, Or.inr rfl⟩, hq⟩
  next => cases h

/-- The state before the first message. -/
def firstState : LiveroomState DanmuNode := ⟨openConf, emptyQlist⟩

/-- A test passed by the execution of two messages is passed by a run. -/
theorem exists_two_messages (first second : DanmuNode × Option Addr)
    (test : LiveroomLabel DanmuNode × LiveroomState DanmuNode →
      LiveroomLabel DanmuNode × LiveroomState DanmuNode → Bool)
    (h : (liveroomNext firstState first).any (fun r =>
      (liveroomNext r.2 second).any fun r' => test r r') = true) :
    ∃ label state label' state',
      (liveroomSystem danmuJson openConf).step firstState label state ∧
      (liveroomSystem danmuJson openConf).step state label' state' ∧
      test (label, state) (label', state') = true := by
  obtain ⟨⟨label, state⟩, hfirst, hrest⟩ := (Option.any_eq_true _ _).mp h
  obtain ⟨⟨label', state'⟩, hsecond, htest⟩ := (Option.any_eq_true _ _).mp hrest
  exact ⟨label, state, label', state', liveroomNext_sound hfirst, liveroomNext_sound hsecond, htest⟩

/-- The first message makes a run. -/
theorem trace_first {label : LiveroomLabel DanmuNode} {state : LiveroomState DanmuNode}
    (taken : (liveroomSystem danmuJson openConf).step firstState label state) :
    (liveroomSystem danmuJson openConf).Trace [label] state := by
  have hstart : (liveroomSystem danmuJson openConf).Trace [] firstState := .start ⟨rfl, rfl⟩
  exact hstart.extend trivial taken

/-- A viewer queues up, then a viewer cancels, and both records arrive. -/
def queuesThenCancels (viewer other : Viewer)
    (r r' : LiveroomLabel DanmuNode × LiveroomState DanmuNode) : Bool :=
  r.1.msg = .msg viewer false ∧ r'.1.msg = .msg other true ∧
    r.1.arrived.isSome ∧ r'.1.arrived.isSome

theorem positiveSenders_pair {label label' : LiveroomLabel DanmuNode} {viewer other : Viewer}
    (hmsg : label.msg = .msg viewer false) (hmsg' : label'.msg = .msg other true) :
    PositiveSenders danmuJson danmuNumber ([label] ++ [label']) := by
  intro l hl
  rcases List.mem_pair.mp hl with rfl | rfl
  · exact ⟨viewer.uid, hmsg ▸ senderUid_msg viewer false, viewer.uid_pos⟩
  · exact ⟨other.uid, hmsg' ▸ senderUid_msg other true, other.uid_pos⟩

theorem distinctSenders_pair {label label' : LiveroomLabel DanmuNode} {viewer other : Viewer}
    (hmsg : label.msg = .msg viewer false) (hmsg' : label'.msg = .msg other true)
    (hsmall : viewer.uid < intMax) (hsmall' : other.uid < intMax) :
    DistinctSenders danmuJson danmuNumber ([label] ++ [label']) := by
  intro l hl l' _ u hu v _ _
  rcases List.mem_pair.mp hl with rfl | rfl
  · rw [hmsg, senderUid_msg] at hu
    exact Or.inl (Option.some.inj hu ▸ hsmall)
  · rw [hmsg', senderUid_msg] at hu
    exact Or.inl (Option.some.inj hu ▸ hsmall')

/-- A viewer queues up and another one cancels: the entry stays. -/
theorem viewers_kept_apart_of_two :
    ∃ label state label' state',
      (liveroomSystem danmuJson openConf).Trace [label] state ∧
      (liveroomSystem danmuJson openConf).step state label' state' ∧
      (∃ info ∈ label.arrived, ∃ info' ∈ label'.arrived,
        info.data.danmuSenderUid ≠ info'.data.danmuSenderUid) ∧
      EntriesKeptApart danmuJson danmuNumber [label] state label' state' := by
  obtain ⟨label, state, label', state', taken, taken', htest⟩ :=
    exists_two_messages (.msg .first false, some 1) (.msg .second true, none)
      (queuesThenCancels .first .second) (by decide +kernel)
  simp only [queuesThenCancels, decide_eq_true_eq] at htest
  obtain ⟨hmsg, hmsg', harrived, harrived'⟩ := htest
  obtain ⟨info, hinfo⟩ := Option.isSome_iff_exists.mp harrived
  obtain ⟨info', hinfo'⟩ := Option.isSome_iff_exists.mp harrived'
  obtain ⟨hrecords, hruns⟩ := viewers_kept_apart_iff danmuJson_saturates
  refine ⟨label, state, label', state', trace_first taken, taken', ?_, ?_⟩
  · refine ⟨info, hinfo, info', hinfo', ?_⟩
    apply (hrecords _ _ _ _ _ _ _ _ _ _ (callback_of_step taken hinfo)
      (callback_of_step taken' hinfo') (hmsg ▸ senderUid_msg .first false)
      (hmsg' ▸ senderUid_msg .second true) (Viewer.uid_pos _) (Viewer.uid_pos _)
      (by decide)).mpr
    exact Or.inl (by decide)
  · exact hruns openConf [label] state state' label' (trace_first taken) taken'
      (positiveSenders_pair hmsg hmsg')
      (distinctSenders_pair hmsg hmsg' (by decide) (by decide))

/-- Two viewers beyond `INT_MAX` have one uid, and one of them removes the entry of the
other. -/
theorem exists_entry_removed_by_other :
    ∃ label state label' state',
      (liveroomSystem danmuJson openConf).Trace [label] state ∧
      (liveroomSystem danmuJson openConf).step state label' state' ∧
      senderUid danmuJson danmuNumber label.msg = some 2147483648 ∧
      senderUid danmuJson danmuNumber label'.msg = some 2147483649 ∧
      (∃ info ∈ label.arrived, ∃ info' ∈ label'.arrived,
        info.data.danmuSenderUid = info'.data.danmuSenderUid) ∧
      PositiveSenders danmuJson danmuNumber ([label] ++ [label']) ∧
      ¬ EntriesKeptApart danmuJson danmuNumber [label] state label' state' := by
  obtain ⟨label, state, label', state', taken, taken', htest⟩ :=
    exists_two_messages (.msg .large false, some 1) (.msg .larger true, none)
      (fun r r' => queuesThenCancels .large .larger r r' &&
        decide (r.1.arrived.map (·.data.danmuSenderUid) =
          r'.1.arrived.map (·.data.danmuSenderUid)) &&
        decide ((QList.ring r.2.qlist).map List.length = some 1) &&
        decide (QList.ring r'.2.qlist = some []))
      (by decide +kernel)
  simp only [queuesThenCancels, Bool.and_eq_true, decide_eq_true_eq] at htest
  obtain ⟨⟨⟨⟨hmsg, hmsg', harrived, harrived'⟩, hsame⟩, hring⟩, hring'⟩ := htest
  obtain ⟨info, hinfo⟩ := Option.isSome_iff_exists.mp harrived
  obtain ⟨info', hinfo'⟩ := Option.isSome_iff_exists.mp harrived'
  have hsender : senderUid danmuJson danmuNumber label.msg = some 2147483648 :=
    hmsg ▸ senderUid_msg .large false
  have hsender' : senderUid danmuJson danmuNumber label'.msg = some 2147483649 :=
    hmsg' ▸ senderUid_msg .larger true
  refine ⟨label, state, label', state', trace_first taken, taken', hsender, hsender', ?_,
    positiveSenders_pair hmsg hmsg', ?_⟩
  · rw [hinfo, hinfo'] at hsame
    exact ⟨info, hinfo, info', hinfo', Option.some.inj hsame⟩
  · intro hkept
    obtain ⟨line, line', hline, hline', hentries⟩ := hkept
    rw [hline'] at hring'
    rw [hline] at hring
    obtain ⟨p, rfl⟩ := List.length_eq_one_iff.mp (Option.some.inj hring)
    obtain rfl := Option.some.inj hring'
    obtain ⟨u, ⟨owner, howner, hu, -⟩, -, hstays⟩ := hentries p List.mem_cons_self
    rw [List.mem_singleton.mp howner, hsender] at hu
    have hother : senderUid danmuJson danmuNumber label'.msg ≠ some u := by
      rw [hsender', ← hu]
      decide
    cases hstays hother

end BliveQueue.Callbacks
