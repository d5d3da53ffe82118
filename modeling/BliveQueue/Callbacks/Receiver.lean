/-
# The calls of the receiver

A record that `liveroom_info_recv` reads is one call on the queue, or none: it cancels, it
is refused by the rules, or it queues up under a weight. The type of the record, the rules
and the fleet level decide which of these it is; the queue does not.
-/

import BliveQueue.QList.Line
import BliveQueue.Callbacks

namespace BliveQueue.Callbacks

open BliveQueue.Config BliveQueue.Utils BliveQueue.Utils.QList BliveQueue.QList

variable {conf : QueueUpConfig} {q q' : BliveQlist} {info : UserInfo} {mem : Option Addr}
  {call : QlistCall}

/-- The weight under which a record queues up, unless the rules refuse it. -/
def recvWeight (conf : QueueUpConfig) (info : UserInfo) : Option UInt32 :=
  match info.infoType with
  | .danmuMsg => if conf.allowDanmuQueueup then some (queueUpWeight conf info 1 2) else none
  | .sendGift => if conf.allowGiftQueueup then some (queueUpWeight conf info 2 (2 + 3)) else none
  | .other _ => none

/-- The call that `liveroom_info_recv` makes for a record. -/
def recvCall (conf : QueueUpConfig) (info : UserInfo) (mem : Option Addr) : Option QlistCall :=
  if info.data.cancelQueueUp then some (.subtract info.data.danmuSenderUid)
  else (recvWeight conf info).map fun weight =>
    .appendUpdate info.data.danmuSenderUid { info.data with weight := weight } mem

theorem recvCall_of_cancel (hcancel : info.data.cancelQueueUp = true) :
    recvCall conf info mem = some (.subtract info.data.danmuSenderUid) := if_pos hcancel

theorem recvCall_of_refused (hcancel : info.data.cancelQueueUp = false)
    (hweight : recvWeight conf info = none) : recvCall conf info mem = none := by
  rw [recvCall, hcancel, hweight]
  rfl

theorem recvCall_of_weight {weight : UInt32} (hcancel : info.data.cancelQueueUp = false)
    (hweight : recvWeight conf info = some weight) :
    recvCall conf info mem =
      some (.appendUpdate info.data.danmuSenderUid { info.data with weight := weight } mem) := by
  rw [recvCall, hcancel, hweight]
  rfl

theorem queueUp_eq_call (q : BliveQlist) (info : UserInfo) (weight : UInt32)
    (mem : Option Addr) :
    queueUp q info weight mem =
      (QList.call q (.appendUpdate info.data.danmuSenderUid
        { info.data with weight := weight } mem)).map Prod.snd := by
  rw [queueUp, QList.call, Option.map_map]
  rfl

/-- Reading a record is the call for it. -/
theorem liveroomInfoRecv_eq_call (conf : QueueUpConfig) (q : BliveQlist) (info : UserInfo)
    (mem : Option Addr) :
    liveroomInfoRecv conf q (some info) mem =
      match recvCall conf info mem with
      | none => some q
      | some call => (QList.call q call).map Prod.snd := by
  rw [liveroomInfoRecv, recvCall]
  by_cases hcancel : info.data.cancelQueueUp = true
  · rw [if_pos hcancel, if_pos hcancel]
    simp only [QList.call, Option.map_map]
    rfl
  · rw [if_neg hcancel, if_neg hcancel, recvWeight]
    cases info.infoType with
    | danmuMsg =>
        cases conf.allowDanmuQueueup with
        | true => exact queueUp_eq_call q info _ mem
        | false => rfl
    | sendGift =>
        cases conf.allowGiftQueueup with
        | true => exact queueUp_eq_call q info _ mem
        | false => rfl
    | other code => rfl

theorem exists_call_of_recv (hasked : recvCall conf info mem = some call)
    (h : liveroomInfoRecv conf q (some info) mem = some q') :
    ∃ ret, QList.call q call = some (ret, q') := by
  simp only [liveroomInfoRecv_eq_call, hasked] at h
  obtain ⟨⟨ret, _⟩, hcall, rfl⟩ := Option.map_eq_some_iff.mp h
  exact ⟨ret, hcall⟩

theorem eq_of_recv (hasked : recvCall conf info mem = none)
    (h : liveroomInfoRecv conf q (some info) mem = some q') : q' = q := by
  simp only [liveroomInfoRecv_eq_call, hasked] at h
  exact (Option.some.inj h).symm

/-- The call of a record is about its uid. -/
theorem anchorageOf_recvCall (h : recvCall conf info mem = some call) :
    anchorageOf call = info.data.danmuSenderUid := by
  unfold recvCall at h
  split at h
  · obtain rfl := Option.some.inj h
    rfl
  · obtain ⟨weight, -, rfl⟩ := Option.map_eq_some_iff.mp h
    rfl

/-- Memory that is fresh for the record is fresh for its call. -/
theorem recvCall_mallocContract (hfresh : ∀ a ∈ mem, a ∉ q.live)
    (h : recvCall conf info mem = some call) : call.MallocContract q := by
  unfold recvCall at h
  split at h
  · obtain rfl := Option.some.inj h
    trivial
  · obtain ⟨weight, -, rfl⟩ := Option.map_eq_some_iff.mp h
    cases mem with
    | none => trivial
    | some a => exact hfresh a rfl

end BliveQueue.Callbacks
