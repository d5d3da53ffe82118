/-
# Weights by level

A danmu record gets the weight 1 or, if the fleet goes first and the sender belongs to
it, six less the fleet level. The level is whatever integer the message holds, and the
subtraction is one of unsigned 32-bit numbers. The levels from 0 to 5 give the documented
weights, and any other level gives 0 or a weight above all danmu requests.
-/

import BliveQueue.Callbacks.FirstCome
import BliveQueue.Callbacks.Message

namespace BliveQueue.Callbacks

open BliveQueue.Config BliveQueue.Math BliveQueue.Math.CharBuffer
open BliveQueue.Utils BliveQueue.Utils.QList BliveQueue.QList

variable {Json : Type} {cjson : CJson Json} {number : Json → Option ℤ}
  {conf conf' : BliveExtCfg Json} {msg : Json} {rules : QueueUpConfig} {info : UserInfo}
  {q q' : BliveQlist} {s : Sequence} {mem : Option Addr} {weight : UInt32} {n : ℤ}
  {history : List (Option UserInfo × Option Addr)}

/-! ## Requests -/

/-- The fleet level of the sender, `info[7]`, as the message has it. -/
def fleetNumber (cjson : CJson Json) (number : Json → Option ℤ) (msg : Json) : Option ℤ :=
  (cjson.getArrayItem (messageInfo cjson msg) 7).bind number

/-- The text of a message gives a place up. -/
def GivesUp (cjson : CJson Json) (msg : Json) : Prop :=
  ∃ body ∈ cjson.text (cjson.getArrayItem (messageInfo cjson msg) 1),
    body.val = literal "取消排队"

instance (cjson : CJson Json) (msg : Json) : Decidable (GivesUp cjson msg) :=
  inferInstanceAs (Decidable
    (∃ body ∈ cjson.text (cjson.getArrayItem (messageInfo cjson msg) 1),
      body.val = literal "取消排队"))

/-- The entry for a record under some weight. -/
def entry (info : UserInfo) (weight : UInt32) : Pair :=
  (uid info, { info.data with weight := weight })

/-- The request to queue a record under some weight. -/
def recvRequest (info : UserInfo) (weight : UInt32) (mem : Option Addr) : QlistCall :=
  .appendUpdate (entry info weight).1 (entry info weight).2 mem

/-- `liveroom_info_recv` queues a record under some weight. -/
structure QueuesUnder (rules : QueueUpConfig) (q : BliveQlist) (info : UserInfo)
    (mem : Option Addr) (weight : UInt32) (q' : BliveQlist) : Prop where
  fresh : ∀ a ∈ mem, a ∉ q.live
  asked : recvCall rules info mem = some (recvRequest info weight mem)
  accepted : QList.call q (recvRequest info weight mem) = some (.errno .ok, q')

/-- The call that a record makes, if any, passes a guard of the queue. -/
def Asks (rules : QueueUpConfig) (guard : BliveQlist → QlistCall × QlistRet → Prop)
    (q : BliveQlist) (label : Option UserInfo × Option Addr) : Prop :=
  ∀ info ∈ label.1, ∀ call ∈ recvCall rules info label.2, ∀ ret, guard q (call, ret)

/-- One of the weights from 1 to 5 is stored whenever a record is queued. -/
def WeightInRange (rules : QueueUpConfig) (info : UserInfo) : Prop :=
  ∀ history q, (recvSystem rules).Run (Asks rules HasRoom) history q →
    ∀ mem weight q', QueuesUnder rules q info mem weight q' → 1 ≤ weight ∧ weight ≤ 5 ∧
      ∃ line', QList.ring q' = some line' ∧ entry info weight ∈ line'

/-- A queued record is what the receiver leaves. -/
theorem QueuesUnder.liveroomInfoRecv_eq (h : QueuesUnder rules q info mem weight q') :
    liveroomInfoRecv rules q (some info) mem = some q' := by
  simp only [liveroomInfoRecv_eq_call, h.asked, h.accepted, Option.map_some]

/-! ## Weights -/

/-- A run of the receiver is one of the queue. -/
theorem exists_calls {guard : BliveQlist → QlistCall × QlistRet → Prop}
    (run : (recvSystem rules).Run (Asks rules guard) history q) :
    ∃ calls, qlistSystem.Run guard calls q := by
  refine System.Run.invariant (I := fun _ q => ∃ calls, qlistSystem.Run guard calls q) ?_ ?_ run
  · intro q hinit
    exact ⟨[], .start hinit⟩
  · rintro _ q ⟨read, mem⟩ q' - ⟨calls, hcalls⟩ hallowed ⟨hfresh, hrecv⟩
    cases read with
    | none =>
        obtain rfl := Option.some.inj hrecv
        exact ⟨calls, hcalls⟩
    | some info =>
        cases hasked : recvCall rules info mem with
        | none =>
            obtain rfl := eq_of_recv hasked hrecv
            exact ⟨calls, hcalls⟩
        | some call =>
            obtain ⟨ret, hcall⟩ := exists_call_of_recv hasked hrecv
            have hstep : qlistSystem.step q (call, ret) q' :=
              ⟨recvCall_mallocContract hfresh hasked, hcall⟩
            exact ⟨_, hcalls.extend (hallowed info rfl call hasked ret) hstep⟩

/-- A request that is accepted is one of the entries. -/
theorem QueuesUnder.mem_line (h : QueuesUnder rules q info mem weight q')
    (hrep : Represents q s) (hs : s.Sound) :
    ∃ line', QList.ring q' = some line' ∧ entry info weight ∈ line' := by
  have hmalloc := recvCall_mallocContract h.fresh h.asked
  have hstep : qlistSystem.step q (recvRequest info weight mem, .errno .ok) q' :=
    ⟨hmalloc, h.accepted⟩
  obtain ⟨hret, hrep'⟩ := hrep.step hstep
  have step := hs.call_step hrep.addr_injOn (recvRequest info weight mem)
  rw [← hret] at step
  refine ⟨_, hrep'.ring_eq_line, ?_⟩
  generalize (s.call (recvRequest info weight mem)).2.line = line' at step ⊢
  generalize s.line = line at step
  cases step with
  | refresh hqueued =>
      have hsame : (entry info weight).1 = uid info := rfl
      apply mem_replaceData_iff.mpr
      rw [if_pos hsame]
      exact ⟨rfl, hqueued⟩
  | join _ => exact List.mem_append_right _ List.mem_cons_self

theorem QueuesUnder.weight_eq (h : QueuesUnder rules q info mem weight q') :
    info.data.cancelQueueUp = false ∧ recvWeight rules info = some weight := by
  have hasked := h.asked
  unfold recvCall at hasked
  split at hasked
  next => cases hasked
  next hcancel =>
    obtain ⟨weight', hweight, heq⟩ := Option.map_eq_some_iff.mp hasked
    have hdata : { info.data with weight := weight' } = { info.data with weight := weight } := by
      injection heq
    obtain rfl : weight' = weight := congrArg QlistUnitData.weight hdata
    exact ⟨Bool.eq_false_iff.mpr hcancel, hweight⟩

/-- A record with some weight can be queued. -/
theorem exists_queuesUnder (hcancel : info.data.cancelQueueUp = false)
    (hweight : recvWeight rules info = some weight) :
    ∃ q', QueuesUnder rules emptyQlist info (some 0) weight q' := by
  have hmalloc : (recvRequest info weight (some 0)).MallocContract emptyQlist :=
    Finset.notMem_empty 0
  obtain ⟨q', hcall, -⟩ := emptyQlist_represents.call hmalloc
  exact ⟨q', by simp [emptyQlist], recvCall_of_weight hcancel hweight, hcall⟩

/-- The receiver of a run that has not wrapped the counter holds a line. -/
theorem exists_sound_of_recv (run : (recvSystem rules).Run (Asks rules HasRoom) history q) :
    ∃ s, Represents q s ∧ s.Sound := by
  obtain ⟨calls, hcalls⟩ := exists_calls run
  exact exists_sound (fun _ _ hroom => hroom) hcalls

/-- The weights are in range exactly if nothing is queued or the record has only weights for
danmu. -/
theorem weightInRange_iff_weight :
    WeightInRange rules info ↔ info.data.cancelQueueUp = true ∨
      ∀ weight ∈ recvWeight rules info, 1 ≤ weight ∧ weight ≤ 5 := by
  constructor
  · intro h
    by_contra hnot
    obtain ⟨hcancel, hbad⟩ := not_or.mp hnot
    apply hbad
    intro weight hweight
    obtain ⟨q', hqueues⟩ := exists_queuesUnder (Bool.eq_false_iff.mpr hcancel) hweight
    obtain ⟨hone, hfive, -⟩ := h [] emptyQlist (.start rfl) _ _ _ hqueues
    exact ⟨hone, hfive⟩
  · intro h history q run mem weight q' hqueues
    obtain ⟨s, hrep, hs⟩ := exists_sound_of_recv run
    obtain ⟨hcancel, hweight⟩ := hqueues.weight_eq
    obtain ⟨hone, hfive⟩ := h.resolve_left (by simp [hcancel]) weight hweight
    exact ⟨hone, hfive, hqueues.mem_line hrep hs⟩

/-! ## Levels -/

variable (info) in
/-- The weights for danmu are those of the levels from 0 to 5. -/
theorem queueUpWeight_range_iff (hcapt : rules.captFirst = true) :
    1 ≤ queueUpWeight rules info 1 2 ∧ queueUpWeight rules info 1 2 ≤ 5 ↔
      info.data.fleetLv.toNat ≤ 5 := by
  unfold queueUpWeight
  by_cases hnone : info.data.fleetLv = BliveFleetLevel.none
  · simp [hnone, BliveFleetLevel.none]
  · have hzero : info.data.fleetLv.toNat ≠ 0 := fun h => hnone (UInt32.toNat_inj.mp h)
    have hlt := info.data.fleetLv.toNat_lt
    have hmax : BliveFleetLevel.max.toNat = 4 := rfl
    have hone : (1 : UInt32).toNat = 1 := rfl
    have htwo : (2 : UInt32).toNat = 2 := rfl
    have hfive : (5 : UInt32).toNat = 5 := rfl
    rw [if_pos ⟨hcapt, hnone⟩, UInt32.le_iff_toNat_le, UInt32.le_iff_toNat_le, UInt32.toNat_add,
      UInt32.toNat_sub, hmax, hone, htwo, hfive]
    omega

/-- An `int` is at most 5 as an unsigned number if it is from 0 to 5. -/
theorem toUInt32_le_iff (x : Int32) : x.toUInt32.toNat ≤ 5 ↔ 0 ≤ x.toInt ∧ x.toInt ≤ 5 := by
  have hx : x.toInt = if 2 * x.toUInt32.toNat < 2 ^ 32 then (x.toUInt32.toNat : ℤ)
      else (x.toUInt32.toNat : ℤ) - 2 ^ 32 := BitVec.toInt_eq_toNat_cond x.toBitVec
  have hlt := x.toUInt32.toNat_lt
  rw [hx]
  split <;> omega

/-- A record gives a place up if its message does. -/
theorem cancelQueueUp_iff (hsent : danmuCallback cjson conf msg = some (some info, conf')) :
    info.data.cancelQueueUp = true ↔ GivesUp cjson msg := by
  simp only [danmuCallback, Option.bind_eq_bind, Option.bind_eq_some_iff] at hsent
  obtain ⟨body, hbody, filled, -, hsent⟩ := hsent
  have hbody : cjson.text (cjson.getArrayItem (messageInfo cjson msg) 1) = some body := hbody
  have hgives : GivesUp cjson msg ↔ body.val = literal "取消排队" := by simp [GivesUp, hbody]
  have hadmitted : ∀ record, admitUser cjson conf record = some (some info, conf') →
      info = record := by
    intro record hadmit
    exact Option.some.inj ((admitUser_cases hadmit).1.resolve_left (Option.some_ne_none info))
  rw [hgives]
  split at hsent
  next hjoin =>
    obtain rfl := hadmitted _ hsent
    have hne : literal "排队" ≠ literal "取消排队" := by decide +kernel
    simp [hjoin, hne]
  next =>
    split at hsent
    next hleave =>
      obtain rfl := hadmitted _ hsent
      simp [hleave]
    next => cases hsent

/-- The record of a message is queued with a weight for danmu exactly if the message gives a
place up, the rules refuse danmu or do not put the fleet first, or the level is from 0 to 5. -/
theorem weightInRange_iff (hsat : cjson.Saturates number)
    (hsent : danmuCallback cjson conf msg = some (some info, conf'))
    (hlevel : fleetNumber cjson number msg = some n) :
    WeightInRange rules info ↔ GivesUp cjson msg ∨ rules.allowDanmuQueueup = false ∨
      rules.captFirst = false ∨ 0 ≤ n ∧ n ≤ 5 := by
  have hrecord := RecordOf.of_danmuCallback hsent
  obtain ⟨item, hitem, hnumber⟩ := Option.bind_eq_some_iff.mp hlevel
  have hfleet : info.data.fleetLv = (cjson.valueint item).toUInt32 := by
    have hsame := hrecord.fleetLv
    rw [hitem] at hsame
    exact (Option.some.inj hsame).symm
  have hrange : info.data.fleetLv.toNat ≤ 5 ↔ 0 ≤ n ∧ n ≤ 5 := by
    rw [hfleet, toUInt32_le_iff, hsat item n hnumber]
    omega
  rw [weightInRange_iff_weight, cancelQueueUp_iff hsent, recvWeight, hrecord.infoType, ← hrange]
  apply or_congr_right
  cases hallow : rules.allowDanmuQueueup with
  | false => simp
  | true =>
      cases hcapt : rules.captFirst with
      | false => simp [queueUpWeight, hcapt]
      | true => simp [← queueUpWeight_range_iff info hcapt]

end BliveQueue.Callbacks
