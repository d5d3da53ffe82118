/-
# Weights by rank

With a weight for danmu a new request joins the queue behind the gift requests of the fleet,
unless one of them already stands behind a lighter request. Only a refresh can get it there:
it brings an entry another weight and leaves it where it is. So danmu requests stay behind
the gift requests of the fleet in every run whose messages have levels from 0 to 5 and whose
refreshes take nobody across the weight at which the gift requests of the fleet begin.
-/

import BliveQueue.Callbacks.Colours
import BliveQueue.Callbacks.Weights
import BliveQueue.QList.Order

namespace BliveQueue.Callbacks

open BliveQueue.Config BliveQueue.Math BliveQueue.Math.CharBuffer
open BliveQueue.Utils BliveQueue.Utils.QList BliveQueue.QList

variable {Json : Type} {cjson : CJson Json} {number : Json → Option ℤ}
  {conf conf' : BliveExtCfg Json} {msg : Json} {rules : QueueUpConfig} {info : UserInfo}
  {q q' : BliveQlist} {s : Sequence} {mem : Option Addr} {weight : UInt32} {n : ℤ} {a : UInt32}
  {p g : Pair} {label : Option UserInfo × Option Addr}
  {history : List (Option UserInfo × Option Addr)}

/-! ## The latest request of a user -/

/-- The record, if it queues up under some uid. -/
def requestBy (rules : QueueUpConfig) (a : UInt32) (label : Option UserInfo × Option Addr) :
    Option UserInfo :=
  label.1.filter fun info =>
    info.data.cancelQueueUp = false ∧ uid info = a ∧ (recvWeight rules info).isSome

/-- The latest record that queues up under some uid. While the user is queued his entry was
made for it, since an entry is refreshed without fail. -/
def latestRequest (rules : QueueUpConfig) (history : List (Option UserInfo × Option Addr))
    (a : UInt32) : Option UserInfo :=
  history.reverse.findSome? (requestBy rules a)

theorem latestRequest_concat (history : List (Option UserInfo × Option Addr))
    (label : Option UserInfo × Option Addr) (a : UInt32) :
    latestRequest rules (history ++ [label]) a =
      (requestBy rules a label).or (latestRequest rules history a) := by
  rw [latestRequest, List.reverse_concat, List.findSome?_cons]
  cases requestBy rules a label with
  | none => rfl
  | some info => rfl

theorem latestRequest_of_sender (hcancel : info.data.cancelQueueUp = false)
    (hweight : recvWeight rules info = some weight) :
    latestRequest rules (history ++ [(some info, mem)]) (uid info) = some info := by
  simp [latestRequest_concat, requestBy, hcancel, hweight]

theorem latestRequest_of_other (h : requestBy rules a label = none) :
    latestRequest rules (history ++ [label]) a = latestRequest rules history a := by
  rw [latestRequest_concat, h, Option.none_or]

/-- The entry of a request. One for danmu has a weight for danmu. -/
structure MadeFor (rules : QueueUpConfig) (info : UserInfo) (p : Pair) : Prop where
  entry : ∃ weight ∈ recvWeight rules info, p = entry info weight
  danmu : info.infoType = .danmuMsg → 1 ≤ p.weight ∧ p.weight ≤ 5

/-! ## The gift requests of the fleet -/

/-- The weights from which on the gift requests of the fleet are documented. -/
def fleetGift : ℕ := 6

/-- Whether a weight is one for the gift requests of the fleet. -/
def forFleetGift (weight : ℕ) : Bool := fleetGift ≤ weight

theorem forFleetGift_mono : Monotone forFleetGift := by
  intro weight weight' hle hgift
  exact decide_eq_true ((of_decide_eq_true hgift).trans hle)

/-- The latest request of a user is a gift from the fleet, which goes first. -/
def FleetGift (rules : QueueUpConfig) (history : List (Option UserInfo × Option Addr))
    (a : UInt32) : Prop :=
  rules.captFirst = true ∧ ∃ info ∈ latestRequest rules history a, info.infoType = .sendGift ∧
    info.data.fleetLv ∈ [BliveFleetLevel.governor, BliveFleetLevel.supervisor,
      BliveFleetLevel.captain]

/-- The gifts of the fleet have the documented weights. -/
theorem fleetGift_le (hcapt : rules.captFirst = true) (hgift : info.infoType = .sendGift)
    (hlevel : info.data.fleetLv ∈ [BliveFleetLevel.governor, BliveFleetLevel.supervisor,
      BliveFleetLevel.captain]) (hweight : recvWeight rules info = some weight) :
    fleetGift ≤ weight.toNat := by
  rw [recvWeight, hgift] at hweight
  obtain ⟨-, rfl⟩ : _ ∧ queueUpWeight rules info 2 (2 + 3) = weight := by simpa using hweight
  simp only [List.mem_cons, List.not_mem_nil, or_false] at hlevel
  rcases hlevel with h | h | h <;> simp only [queueUpWeight, hcapt, h] <;> decide

/-! ## What is to hold -/

/-- Every entry was made for the latest request of its user. Those of danmu requests have
weights from 1 to 5, and no gift request of the fleet stands behind them. -/
def RanksRight (rules : QueueUpConfig) (history : List (Option UserInfo × Option Addr))
    (q : BliveQlist) : Prop :=
  ∃ line : List Pair, QList.ring q = some line ∧
    ∀ p ∈ line, ∃ info ∈ latestRequest rules history p.1,
      (∃ weight ∈ recvWeight rules info, p = entry info weight) ∧
      (info.infoType = .danmuMsg → 1 ≤ p.weight ∧ p.weight ≤ 5 ∧
        ∀ g, List.Sublist [p, g] line → g.weight < fleetGift ∧ ¬ FleetGift rules history g.1)

/-- The message queues nobody up, or its sender has a weight for danmu. -/
def HasDanmuWeight (cjson : CJson Json) (number : Json → Option ℤ) (rules : QueueUpConfig)
    (msg : Json) : Prop :=
  GivesUp cjson msg ∨ rules.allowDanmuQueueup = false ∨ rules.captFirst = false ∨
    ∃ n ∈ fleetNumber cjson number msg, 0 ≤ n ∧ n ≤ 5

instance (cjson : CJson Json) (number : Json → Option ℤ) (rules : QueueUpConfig) (msg : Json) :
    Decidable (HasDanmuWeight cjson number rules msg) :=
  inferInstanceAs (Decidable (GivesUp cjson msg ∨ rules.allowDanmuQueueup = false ∨
    rules.captFirst = false ∨ ∃ n ∈ fleetNumber cjson number msg, 0 ≤ n ∧ n ≤ 5))

/-- A danmu record was sent for a message whose sender has a weight for danmu, and the call that
the record makes passes a guard of the queue. -/
structure WithinRanks (cjson : CJson Json) (number : Json → Option ℤ) (rules : QueueUpConfig)
    (guard : BliveQlist → QlistCall × QlistRet → Prop) (q : BliveQlist)
    (label : Option UserInfo × Option Addr) : Prop where
  messages : ∀ info ∈ label.1, info.infoType = .danmuMsg →
    ∃ conf conf' msg, danmuCallback cjson conf msg = some (some info, conf') ∧
      HasDanmuWeight cjson number rules msg
  calls : Asks rules guard q label

/-! ## Runs -/

/-- The entries are in order of rank, and each was made for the latest request of its user. -/
structure Kept (rules : QueueUpConfig) (history : List (Option UserInfo × Option Addr))
    (s : Sequence) : Prop extends s.Ranked forFleetGift where
  entries : ∀ p ∈ s.line, ∃ info ∈ latestRequest rules history p.1, MadeFor rules info p

/-- Nobody behind a danmu request has a weight for the gift requests of the fleet. -/
theorem Kept.lt_of_sublist (h : Kept rules history s) (hmade : MadeFor rules info p)
    (hdanmu : info.infoType = .danmuMsg) (hsub : List.Sublist [p, g] s.line) :
    g.weight < fleetGift := by
  have hpair := (Sequence.nonIncreasing_rank_line_iff.mpr h.order).sublist hsub
  have hle : forFleetGift g.weight ≤ forFleetGift p.weight :=
    (List.pairwise_cons.mp hpair).1 g (List.mem_singleton_self g)
  have hlight : forFleetGift p.weight = false :=
    decide_eq_false (not_le.mpr (Nat.lt_succ_of_le (hmade.danmu hdanmu).2))
  exact not_le.mp (of_decide_eq_false (Bool.eq_false_of_le_false (hlight ▸ hle)))

theorem Kept.ranksRight (h : Kept rules history s) (hrep : Represents q s) :
    RanksRight rules history q := by
  refine ⟨s.line, hrep.ring_eq_line, fun p hp => ?_⟩
  obtain ⟨info, hlatest, hmade⟩ := h.entries p hp
  refine ⟨info, hlatest, hmade.entry, fun hdanmu => ?_⟩
  obtain ⟨hone, hfive⟩ := hmade.danmu hdanmu
  refine ⟨hone, hfive, fun g hsub => ?_⟩
  have hlight := h.lt_of_sublist hmade hdanmu hsub
  refine ⟨hlight, ?_⟩
  rintro ⟨hcapt, info', hlatest', hgift, hlevel⟩
  obtain ⟨info'', hlatest'', hmade'⟩ := h.entries g (hsub.subset (by simp))
  obtain rfl := Option.mem_unique hlatest' hlatest''
  obtain ⟨weight, hweight, rfl⟩ := hmade'.entry
  exact absurd (fleetGift_le hcapt hgift hlevel hweight) (not_le.mpr hlight)

/-- A record that queues nobody up makes no entry old. -/
theorem Kept.entry_of_silent (h : Kept rules history s) (hsilent : requestBy rules p.1 label = none)
    (hp : p ∈ s.line) :
    ∃ info ∈ latestRequest rules (history ++ [label]) p.1, MadeFor rules info p := by
  rw [latestRequest_of_other hsilent]
  exact h.entries p hp

/-- A record that the receiver reads keeps the ranks, if a danmu request has a weight for danmu
and a refresh fits. -/
theorem Kept.recv (h : Kept rules history s) (hrep : Represents q s)
    (hrefreshes : Asks rules (KeepsRank forFleetGift) q (some info, mem))
    (hdanmu : info.infoType = .danmuMsg → info.data.cancelQueueUp = true ∨
      ∀ weight ∈ recvWeight rules info, 1 ≤ weight ∧ weight ≤ 5)
    (taken : (recvSystem rules).step q (some info, mem) q') :
    ∃ s', Represents q' s' ∧ Kept rules (history ++ [(some info, mem)]) s' := by
  obtain ⟨hfresh, hrecv⟩ := taken
  have called : ∀ {call}, recvCall rules info mem = some call →
      ∃ ret, (s.call call).2.Ranked forFleetGift ∧ Represents q' (s.call call).2 ∧
        LineStep s.line call ret (s.call call).2.line := by
    intro call hasked
    obtain ⟨ret, hcall⟩ := exists_call_of_recv hasked hrecv
    have hkeeps := hrefreshes info rfl call hasked ret
    have hstep : qlistSystem.step q (call, ret) q' :=
      ⟨recvCall_mallocContract hfresh hasked, hcall⟩
    obtain ⟨hranked, hrep'⟩ := hrep.ranked_step forFleetGift_mono h.toRanked hkeeps hstep
    exact ⟨ret, hranked, hrep', (hrep.sound_step h.toSound hkeeps.1 hstep).2.2⟩
  cases hcancel : info.data.cancelQueueUp with
  | true =>
      have hsilent : ∀ a, requestBy rules a (some info, mem) = none := by
        simp [requestBy, hcancel]
      obtain ⟨ret, hranked, hrep', step⟩ := called (recvCall_of_cancel hcancel)
      refine ⟨_, hrep', hranked, fun p hp => h.entry_of_silent (hsilent p.1) ?_⟩
      rw [step.eq_dropAnchorage] at hp
      exact (List.mem_filter.mp hp).1
  | false =>
      cases hweight : recvWeight rules info with
      | none =>
          have hsilent : ∀ a, requestBy rules a (some info, mem) = none := by
            simp [requestBy, hweight]
          obtain rfl := eq_of_recv (recvCall_of_refused hcancel hweight) hrecv
          exact ⟨s, hrep, h.toRanked, fun p hp => h.entry_of_silent (hsilent p.1) hp⟩
      | some weight =>
          obtain ⟨ret, hranked, hrep', step⟩ := called (recvCall_of_weight hcancel hweight)
          refine ⟨_, hrep', hranked, fun p hp => ?_⟩
          rcases mem_of_appendUpdate step hp with rfl | ⟨hold, hother⟩
          · refine ⟨info, latestRequest_of_sender hcancel hweight, ⟨weight, hweight, rfl⟩, ?_⟩
            intro hkind
            have hrange := (hdanmu hkind).resolve_left (by simp [hcancel]) weight hweight
            rwa [UInt32.le_iff_toNat_le, UInt32.le_iff_toNat_le] at hrange
          · have hsilent : requestBy rules p.1 (some info, mem) = none := by
              have hne : uid info ≠ p.1 := hother
              simp [requestBy, hne]
            exact h.entry_of_silent hsilent hold

/-- The record of a message whose sender has a weight for danmu. -/
theorem weight_of_hasDanmuWeight (hsat : cjson.Saturates number)
    (hsent : danmuCallback cjson conf msg = some (some info, conf'))
    (hmsg : HasDanmuWeight cjson number rules msg) :
    info.data.cancelQueueUp = true ∨
      ∀ weight ∈ recvWeight rules info, 1 ≤ weight ∧ weight ≤ 5 := by
  have hkind := (RecordOf.of_danmuCallback hsent).infoType
  rcases hmsg with hgives | hrefused | hequal | ⟨n, hlevel, hrange⟩
  · exact Or.inl ((cancelQueueUp_iff hsent).mpr hgives)
  · right
    simp [recvWeight, hkind, hrefused]
  · right
    simp [recvWeight, hkind, queueUpWeight, hequal]
  · exact weightInRange_iff_weight.mp
      ((weightInRange_iff hsat hsent hlevel).mpr (Or.inr (Or.inr (Or.inr hrange))))

/-- Runs whose refreshes take nobody across the weight at which the gift requests of the fleet
begin. -/
theorem exists_kept (hsat : cjson.Saturates number)
    (run : (recvSystem rules).Run
      (WithinRanks cjson number rules (KeepsRank forFleetGift)) history q) :
    ∃ s, Represents q s ∧ Kept rules history s := by
  apply System.Run.invariant (I := fun history q => ∃ s, Represents q s ∧ Kept rules history s)
    ?_ ?_ run
  · intro q hinit
    have hempty : qlistSystem.init q := hinit
    refine ⟨⟨[], none⟩, eq_emptyQlist_of_init hempty ▸ emptyQlist_represents, ?_⟩
    exact ⟨⟨⟨by simp [Sequence.line], by simp⟩, List.Pairwise.nil⟩, by simp [Sequence.line]⟩
  · rintro history q ⟨read, mem⟩ q' - ⟨s, hrep, hkept⟩ hallowed taken
    cases read with
    | none =>
        obtain rfl : q = q' := Option.some.inj taken.2
        exact ⟨s, hrep, hkept.toRanked, fun p hp => hkept.entry_of_silent rfl hp⟩
    | some info =>
        apply hkept.recv hrep hallowed.calls _ taken
        intro hkind
        obtain ⟨conf, conf', msg, hsent, hmsg⟩ := hallowed.messages info rfl hkind
        exact weight_of_hasDanmuWeight hsat hsent hmsg

/-- A danmu request that is accepted next ranks right exactly if its weight is one for danmu
and, where it refreshes an entry, nobody behind the entry has a weight for the gift requests
of the fleet. -/
theorem Kept.ranksRight_iff (h : Kept rules history s) (hrep : Represents q s)
    (hroom : Asks rules HasRoom q (some info, mem)) (hkind : info.infoType = .danmuMsg)
    (hqueues : QueuesUnder rules q info mem weight q') :
    RanksRight rules (history ++ [(some info, mem)]) q' ↔ (1 ≤ weight ∧ weight ≤ 5) ∧
      (uid info ∈ s.line.map Prod.fst →
        ∀ g ∈ behind (uid info) s.line, g.weight < fleetGift) := by
  obtain ⟨hcancel, hweight⟩ := hqueues.weight_eq
  have hasked := hqueues.asked
  constructor
  · intro hranks
    obtain ⟨line', hring, hentries⟩ := hranks
    have hstep : qlistSystem.step q (recvRequest info weight mem, .errno .ok) q' :=
      ⟨recvCall_mallocContract hqueues.fresh hasked, hqueues.accepted⟩
    obtain ⟨-, hrep', step⟩ :=
      hrep.sound_step h.toSound (hroom info rfl _ hasked (.errno .ok)) hstep
    obtain rfl := Option.some.inj (hring.symm.trans hrep'.ring_eq_line)
    obtain ⟨_, hring', hmem⟩ := hqueues.mem_line hrep h.toSound
    obtain rfl := Option.some.inj (hring.symm.trans hring')
    obtain ⟨info', hlatest, -, hdanmu⟩ := hentries _ hmem
    obtain rfl : info = info' :=
      Option.some.inj ((latestRequest_of_sender hcancel hweight).symm.trans hlatest)
    obtain ⟨hone, hfive, hbehind⟩ := hdanmu hkind
    refine ⟨⟨UInt32.le_iff_toNat_le.mpr hone, UInt32.le_iff_toNat_le.mpr hfive⟩, ?_⟩
    intro hqueued g hg
    refine (hbehind g ?_).1
    have hsame : (entry info weight).1 ∈ s.line.map Prod.fst := hqueued
    rw [step.eq_replaceData hsame, replaceData_eq h.distinct hsame]
    exact ((List.singleton_sublist.mpr hg).cons_cons _).trans (List.sublist_append_right _ _)
  · intro hfits
    obtain ⟨hrange, hbehind⟩ := hfits
    have hweights : ∀ weight' ∈ recvWeight rules info, 1 ≤ weight' ∧ weight' ≤ 5 := by
      intro weight' hweight'
      obtain rfl := Option.mem_unique hweight hweight'
      exact hrange
    have hlight : forFleetGift weight.toNat = false :=
      decide_eq_false (not_le.mpr (Nat.lt_succ_of_le (UInt32.le_iff_toNat_le.mp hrange.2)))
    have hrefreshes : Asks rules (KeepsRank forFleetGift) q (some info, mem) := by
      intro info' hinfo' call hcall ret
      obtain rfl := Option.some.inj hinfo'
      obtain rfl := Option.mem_unique hasked hcall
      refine ⟨hroom info rfl _ hasked ret, fun line hline hqueued => ?_⟩
      obtain rfl := Option.some.inj (hrep.ring_eq_line.symm.trans hline)
      refine ⟨fun p _ => hlight.le.trans (Bool.false_le _), fun g hg => ?_⟩
      have hless := hbehind hqueued g hg
      exact (decide_eq_false (not_le.mpr hless)).le.trans (Bool.false_le _)
    obtain ⟨s', hrep', hkept⟩ := h.recv hrep hrefreshes (fun _ => Or.inr hweights)
      ⟨hqueues.fresh, hqueues.liveroomInfoRecv_eq⟩
    exact hkept.ranksRight hrep'

/-- (1) The record of a message has a weight for danmu whenever it is queued, exactly if the
message gives a place up, the rules refuse danmu or do not put the fleet first, or the level is
from 0 to 5. (2) In every run whose messages are such and whose refreshes keep the ranks, every
danmu request has such a weight, and no gift request of the fleet stands behind it. (3) After
such a run the next danmu request ranks right exactly if it has such a weight and, as a refresh,
leaves no such gift request behind. -/
theorem danmu_ranks_right (hsat : cjson.Saturates number) :
    (∀ conf conf' msg info n, danmuCallback cjson conf msg = some (some info, conf') →
      fleetNumber cjson number msg = some n →
        (WeightInRange rules info ↔ GivesUp cjson msg ∨ rules.allowDanmuQueueup = false ∨
          rules.captFirst = false ∨ 0 ≤ n ∧ n ≤ 5)) ∧
      ∀ history q, (recvSystem rules).Run
          (WithinRanks cjson number rules (KeepsRank forFleetGift)) history q →
        RanksRight rules history q ∧
        ∀ info mem weight q', info.infoType = .danmuMsg →
          Asks rules HasRoom q (some info, mem) → QueuesUnder rules q info mem weight q' →
            (RanksRight rules (history ++ [(some info, mem)]) q' ↔ (1 ≤ weight ∧ weight ≤ 5) ∧
              ∀ line ∈ QList.ring q, uid info ∈ line.map Prod.fst →
                ∀ g ∈ behind (uid info) line, g.weight < fleetGift) := by
  constructor
  · intro conf conf' msg info n hsent hlevel
    exact weightInRange_iff hsat hsent hlevel
  · intro history q run
    obtain ⟨s, hrep, hkept⟩ := exists_kept hsat run
    refine ⟨hkept.ranksRight hrep, fun info mem weight q' hkind hroom hqueues => ?_⟩
    rw [hkept.ranksRight_iff hrep hroom hkind hqueues, hrep.ring_eq_line]
    simp only [Option.mem_some_iff, forall_eq']

/-! ## Gifts and messages -/

/-- The configuration in which the fleet goes first. -/
def fleetFirst : QueueUpConfig := ⟨true, true, true⟩

/-- The numbers in the messages. -/
def statusNumber (node : StatusNode) : Option ℤ := node.shape.numberOf

theorem statusJson_saturates : statusJson.Saturates statusNumber :=
  CJson.ofShape_saturates StatusNode.shape [] 0

/-- The record of a gift. -/
def giftOf (uid : UInt32) (level : BliveFleetLevel) : UserInfo where
  infoType := .sendGift
  data := { QlistUnitData.zero with danmuSenderUid := uid, fleetLv := level }

/-- The record of a gift, or of a message whose sender has a weight for danmu. -/
def recordOf : UserInfo ⊕ StatusNode → Option UserInfo
  | .inl info => if info.infoType = .sendGift then some info else none
  | .inr msg =>
    if HasDanmuWeight statusJson statusNumber fleetFirst msg then
      (danmuCallback statusJson hostConf msg).bind Prod.fst
    else none

/-- Execution of one gift or message whose record arrives. -/
def rankNext (guard : BliveQlist → QlistCall × QlistRet → Prop)
    [∀ q label, Decidable (guard q label)] (q : BliveQlist)
    (input : (UserInfo ⊕ StatusNode) × Option Addr) :
    Option ((Option UserInfo × Option Addr) × BliveQlist) := do
  let info ← recordOf input.1
  let q' ← liveroomInfoRecv fleetFirst q (some info) input.2
  if (∀ a ∈ input.2, a ∉ q.live) ∧
      ∀ call ∈ recvCall fleetFirst info input.2, guard q (call, .errno .ok) then
    some ((some info, input.2), q')
  else none

theorem messages_of_recordOf {input : UserInfo ⊕ StatusNode} (h : recordOf input = some info)
    (hkind : info.infoType = .danmuMsg) :
    ∃ conf conf' msg, danmuCallback statusJson conf msg = some (some info, conf') ∧
      HasDanmuWeight statusJson statusNumber fleetFirst msg := by
  cases input with
  | inl gift =>
      obtain ⟨hgift, rfl⟩ : gift.infoType = .sendGift ∧ gift = info := by
        simpa [recordOf] using h
      rw [hkind] at hgift
      cases hgift
  | inr msg =>
      rw [recordOf] at h
      split at h
      next hweight =>
        obtain ⟨⟨_, conf'⟩, hsent, rfl⟩ := Option.bind_eq_some_iff.mp h
        exact ⟨hostConf, conf', msg, hsent, hweight⟩
      next => cases h

/-- A test passed by the execution of some gifts and messages is passed at the end of a run. -/
theorem exists_rank_run (guard : BliveQlist → QlistCall × QlistRet → Prop)
    [∀ q label, Decidable (guard q label)]
    (hguard : ∀ q call ret, guard q (call, .errno .ok) → guard q (call, ret))
    (inputs : List ((UserInfo ⊕ StatusNode) × Option Addr))
    (test : List (Option UserInfo × Option Addr) × BliveQlist → Bool)
    (h : (System.execute (rankNext guard) emptyQlist inputs).any test = true) :
    ∃ history q, (recvSystem fleetFirst).Run
        (WithinRanks statusJson statusNumber fleetFirst guard) history q ∧
      test (history, q) = true := by
  refine System.Run.exists_of_execute ?_ rfl inputs test h
  intro q input label q' hnext
  obtain ⟨info, hrecord, hnext⟩ := Option.bind_eq_some_iff.mp hnext
  obtain ⟨_, hrecv, hnext⟩ := Option.bind_eq_some_iff.mp hnext
  split at hnext
  next hallowed =>
    obtain ⟨rfl, rfl⟩ := Prod.mk.inj (Option.some.inj hnext)
    refine ⟨⟨?_, ?_⟩, hallowed.1, hrecv⟩
    · rintro _ ⟨⟩ hkind
      exact messages_of_recordOf hrecord hkind
    · rintro _ ⟨⟩ call hcall ret
      exact hguard q call ret (hallowed.2 call hcall)
  next => cases hnext

/-- A governor's gift, a message of a captain, and one more from him as a supervisor. -/
theorem danmu_ranks_right_of_captain :
    (∃ info conf', danmuCallback statusJson hostConf (.msg 2 3 none) = some (some info, conf') ∧
      WeightInRange fleetFirst info) ∧
    ∃ history q, (recvSystem fleetFirst).Run
        (WithinRanks statusJson statusNumber fleetFirst (KeepsRank forFleetGift)) history q ∧
      (QList.ring q).map (List.map fun p : Pair => (p.1, p.weight)) = some [(1, 8), (2, 4)] ∧
      RanksRight fleetFirst history q := by
  constructor
  · have hsome : ((danmuCallback statusJson hostConf (.msg 2 3 none)).bind Prod.fst).isSome := by
      decide +kernel
    obtain ⟨info, hinfo⟩ := Option.isSome_iff_exists.mp hsome
    obtain ⟨⟨_, conf'⟩, hsent, rfl⟩ := Option.bind_eq_some_iff.mp hinfo
    refine ⟨info, conf', hsent, ?_⟩
    exact ((danmu_ranks_right statusJson_saturates).1 _ _ _ _ 3 hsent rfl).mpr
      (Or.inr (Or.inr (Or.inr (by decide))))
  · obtain ⟨history, q, run, htest⟩ := exists_rank_run (KeepsRank forFleetGift)
      (fun q call ret h => by cases call <;> exact h)
      [(.inl (giftOf 1 BliveFleetLevel.governor), some 0), (.inr (.msg 2 3 none), some 1),
        (.inr (.msg 2 2 none), none)]
      (fun r => (QList.ring r.2).map (List.map fun p : Pair => (p.1, p.weight)) =
        some [(1, 8), (2, 4)]) (by decide +kernel)
    exact ⟨history, q, run, of_decide_eq_true htest,
      ((danmu_ranks_right statusJson_saturates).2 history q run).1⟩

/-- With level 7 a danmu gets the weight `2 ^ 32 - 1` and joins in front of a gift of the
fleet. With levels from 0 to 5 a governor whose gift has the weight 8 refreshes it with a
message as a captain: he stays in front of the gift of another captain, and so does the next
danmu request. -/
theorem exists_danmu_in_front :
    (∃ info conf' q q' mem, danmuCallback statusJson hostConf (.msg 50500336 7 none) =
        some (some info, conf') ∧
      (recvSystem fleetFirst).Run (Asks fleetFirst HasRoom)
        [(some (giftOf 1 BliveFleetLevel.governor), some 0)] q ∧
      QueuesUnder fleetFirst q info mem 4294967295 q' ∧
      QList.ring q = some [entry (giftOf 1 BliveFleetLevel.governor) 8] ∧
      QList.ring q' =
        some [entry info 4294967295, entry (giftOf 1 BliveFleetLevel.governor) 8] ∧
      ¬ WeightInRange fleetFirst info) ∧
    ∃ history q, (recvSystem fleetFirst).Run
        (WithinRanks statusJson statusNumber fleetFirst HasRoom) history q ∧
      (QList.ring q).map (List.map fun p : Pair => (p.1, p.weight)) =
        some [(5, 5), (1, 3), (2, 6)] ∧
      ¬ RanksRight fleetFirst history q := by
  constructor
  · have htest : ((danmuCallback statusJson hostConf (.msg 50500336 7 none)).any fun sent =>
        sent.1.any fun info =>
          (liveroomInfoRecv fleetFirst emptyQlist (some (giftOf 1 BliveFleetLevel.governor))
            (some 0)).any fun q =>
            (QList.call q (recvRequest info 4294967295 (some 1))).any fun r =>
              r.1 = .errno .ok ∧ 1 ∉ q.live ∧
                recvCall fleetFirst info (some 1) =
                  some (recvRequest info 4294967295 (some 1)) ∧
                QList.ring q = some [entry (giftOf 1 BliveFleetLevel.governor) 8] ∧
                QList.ring r.2 =
                  some [entry info 4294967295, entry (giftOf 1 BliveFleetLevel.governor) 8]) =
        true := by
      decide +kernel
    obtain ⟨⟨sent, conf'⟩, hsent, htest⟩ := (Option.any_eq_true _ _).mp htest
    obtain ⟨info, hinfo, htest⟩ := (Option.any_eq_true _ _).mp htest
    obtain ⟨q, hgift, htest⟩ := (Option.any_eq_true _ _).mp htest
    obtain ⟨⟨ret, q'⟩, hcall, htest⟩ := (Option.any_eq_true _ _).mp htest
    obtain ⟨rfl, hfresh, hasked, hring, hring'⟩ := of_decide_eq_true htest
    obtain rfl : sent = some info := hinfo
    have hallowed : Asks fleetFirst HasRoom emptyQlist
        (some (giftOf 1 BliveFleetLevel.governor), some 0) := by
      rintro _ ⟨⟩ _ ⟨⟩ ret
      exact Or.inr (by decide)
    have hgiftFresh : ∀ a ∈ some (0 : Addr), a ∉ emptyQlist.live := by decide
    have run : (recvSystem fleetFirst).Run (Asks fleetFirst HasRoom)
        [(some (giftOf 1 BliveFleetLevel.governor), some 0)] q :=
      (System.Run.start rfl).extend hallowed ⟨hgiftFresh, hgift⟩
    have hqueues : QueuesUnder fleetFirst q info (some 1) 4294967295 q' := by
      refine ⟨?_, hasked, hcall⟩
      rintro _ ⟨⟩
      exact hfresh
    refine ⟨info, conf', q, q', some 1, hsent, run, hqueues, hring, hring', fun hrange => ?_⟩
    obtain ⟨-, hfive, -⟩ := hrange _ _ run _ _ _ hqueues
    exact absurd hfive (by decide)
  · obtain ⟨history, q, run, htest⟩ := exists_rank_run HasRoom
      (fun q call ret h => by cases call <;> exact h)
      [(.inl (giftOf 1 BliveFleetLevel.governor), some 0),
        (.inl (giftOf 2 BliveFleetLevel.captain), some 1), (.inr (.msg 1 3 none), none),
        (.inr (.msg 5 1 none), some 2)]
      (fun r => (QList.ring r.2).map (List.map fun p : Pair => (p.1, p.weight)) =
          some [(5, 5), (1, 3), (2, 6)] ∧
        (latestRequest fleetFirst r.1 5).map UserInfo.infoType = some .danmuMsg)
      (by decide +kernel)
    obtain ⟨hring, hlatest⟩ := of_decide_eq_true htest
    refine ⟨history, q, run, hring, ?_⟩
    rintro ⟨line, hline, hentries⟩
    dsimp only at hring hlatest
    rw [hline] at hring
    obtain ⟨p, rest, rfl, hp, hring⟩ := List.map_eq_cons_iff.mp (Option.some.inj hring)
    obtain ⟨x, rest, rfl, -, hring⟩ := List.map_eq_cons_iff.mp hring
    obtain ⟨g, rest, rfl, hg, -⟩ := List.map_eq_cons_iff.mp hring
    obtain ⟨info, hinfo, -, hdanmu⟩ := hentries p List.mem_cons_self
    have hkind : info.infoType = .danmuMsg := by
      have huid : p.1 = 5 := congrArg Prod.fst hp
      have hinfo : latestRequest fleetFirst history 5 = some info := huid ▸ hinfo
      rw [hinfo] at hlatest
      exact Option.some.inj hlatest
    have hsub : List.Sublist [p, g] (p :: x :: g :: rest) :=
      ((List.singleton_sublist.mpr List.mem_cons_self).cons x).cons_cons p
    have hlight := ((hdanmu hkind).2.2 g hsub).1
    have hheavy : g.weight = 6 := congrArg Prod.snd hg
    exact absurd hheavy hlight.ne

end BliveQueue.Callbacks
