/-
# First come, first served

With fleet priority off every danmu record carries weight 1, so all weights in
the queue are equal, newcomers join at the tail and refreshes move nobody. The
queue then lists the users whose last record was a queue-up in the order in
which they entered.
-/

import BliveQueue.Callbacks.Receiver
import BliveQueue.Math.Arrivals
import BliveQueue.QList.MapView

namespace BliveQueue.Callbacks

open BliveQueue.Config BliveQueue.Math BliveQueue.Utils BliveQueue.Utils.QList BliveQueue.QList

variable {conf : QueueUpConfig} {q q' : BliveQlist} {s : Sequence} {info : UserInfo}
  {mem : Option Addr}

/-- The user of a record. -/
def uid (info : UserInfo) : UInt32 := info.data.danmuSenderUid

/-- What a record announces. -/
def announce (info : UserInfo) : Announcement UInt32 :=
  if info.data.cancelQueueUp then .departure (uid info) else .arrival (uid info)

/-- The call a danmu record makes while fleet priority is off. -/
def danmuCall (info : UserInfo) (mem : Option Addr) : QlistCall :=
  if info.data.cancelQueueUp then .subtract (uid info)
  else .appendUpdate (uid info) { info.data with weight := 1 } mem

/-- The configuration of the law: everybody has the same weight. -/
structure NoPriority (conf : QueueUpConfig) : Prop where
  capt : conf.captFirst = false
  danmu : conf.allowDanmuQueueup = true

/-- A whole danmu record and an allocation that succeeds if it is needed. -/
def WholeDanmu (label : Option UserInfo × Option Addr) : Prop :=
  (∃ info ∈ label.1, info.infoType = .danmuMsg) ∧ label.2.isSome

/-- The record does not ask for one more unit than the counter can count. -/
def HasRoomFor (q : BliveQlist) (label : Option UserInfo × Option Addr) : Prop :=
  ∀ info ∈ label.1, info.data.cancelQueueUp = true ∨ IsQueued q (uid info) ∨
    q.elemNum ≠ 2 ^ 32 - 1

/-- A danmu record is one call on the queue. -/
theorem recvCall_eq_danmuCall (hconf : NoPriority conf) (hdanmu : info.infoType = .danmuMsg) :
    recvCall conf info mem = some (danmuCall info mem) := by
  have hweight : recvWeight conf info = some 1 := by
    simp [recvWeight, hdanmu, hconf.danmu, queueUpWeight, hconf.capt]
  unfold danmuCall
  cases hcancel : info.data.cancelQueueUp with
  | true => exact recvCall_of_cancel hcancel
  | false => exact recvCall_of_weight hcancel hweight

theorem liveroomInfoRecv_eq (hconf : NoPriority conf) (hdanmu : info.infoType = .danmuMsg) :
    liveroomInfoRecv conf q (some info) mem =
      (QList.call q (danmuCall info mem)).map Prod.snd := by
  rw [liveroomInfoRecv_eq_call, recvCall_eq_danmuCall hconf hdanmu]

/-- Everybody in the line has weight 1. -/
def Uniform (line : List Pair) : Prop := ∀ p ∈ line, p.2.weight = 1

/-- The line a danmu record leaves. -/
def recvLine (line : List Pair) (info : UserInfo) : List Pair :=
  if info.data.cancelQueueUp then dropAnchorage (uid info) line
  else if uid info ∈ line.map Prod.fst then
    replaceData (uid info) { info.data with weight := 1 } line
  else line ++ [(uid info, { info.data with weight := 1 })]

/-- The users of that line are those the record lets in. -/
theorem map_fst_recvLine (line : List Pair) (info : UserInfo) :
    (recvLine line info).map Prod.fst =
      Announcement.receive (line.map Prod.fst) (announce info) := by
  unfold recvLine announce
  by_cases hcancel : info.data.cancelQueueUp = true
  · rw [if_pos hcancel, if_pos hcancel, dropAnchorage, Announcement.receive, List.filter_map]
    rfl
  · rw [if_neg hcancel, if_neg hcancel, Announcement.receive]
    by_cases hqueued : uid info ∈ line.map Prod.fst
    · rw [if_pos hqueued, if_pos hqueued, map_fst_replaceData]
    · rw [if_neg hqueued, if_neg hqueued, List.map_append]
      rfl

theorem Uniform.recvLine {line : List Pair} (h : Uniform line) (info : UserInfo) :
    Uniform (recvLine line info) := by
  intro p hp
  unfold Callbacks.recvLine at hp
  split at hp
  · exact h p (List.mem_filter.mp hp).1
  · split at hp
    · obtain ⟨p', hp', rfl⟩ := List.mem_map.mp hp
      by_cases hfst : p'.1 = uid info
      · rw [if_pos hfst]
      · rw [if_neg hfst]
        exact h p' hp'
    · rcases List.mem_append.mp hp with hp | hp
      · exact h p hp
      · obtain rfl := List.mem_singleton.mp hp
        rfl

/-- On a uniform sequence a danmu record leaves the line it should. -/
theorem line_danmuCall (hs : s.Sound) (haddr : (s.cells.map Cell.addr).Nodup)
    (huniform : Uniform s.line) (hmem : mem.isSome) :
    (s.call (danmuCall info mem)).2.line = recvLine s.line info := by
  have step := hs.call_step haddr (danmuCall info mem)
  unfold danmuCall recvLine at *
  by_cases hcancel : info.data.cancelQueueUp = true
  · simp only [if_pos hcancel] at step ⊢
    exact step.eq_dropAnchorage
  · simp only [if_neg hcancel] at step ⊢
    by_cases hqueued : uid info ∈ s.line.map Prod.fst
    · rw [if_pos hqueued]
      exact step.eq_replaceData hqueued
    · rw [if_neg hqueued]
      obtain ⟨a, rfl⟩ := Option.isSome_iff_exists.mp hmem
      have hplace : s.place ⟨a, ⟨uid info, { info.data with weight := 1 }⟩⟩ =
          some (s.cells ++ [⟨a, ⟨uid info, { info.data with weight := 1 }⟩⟩]) := by
        apply Sequence.place_eq_concat hs.count_eq_zero_iff.mp
        intro c hc
        exact congrArg UInt32.toNat (huniform c.pair (List.mem_map_of_mem hc))
      simp [Sequence.call, hs.lookup_eq_none_iff.mpr hqueued, hplace, Sequence.line, Cell.pair]

/-! ## Runs -/

/-- A step of the receiver, on the sequence. -/
theorem recv_step (hconf : NoPriority conf) (h : Represents q s) (hs : s.Sound)
    (huniform : Uniform s.line) (hdanmu : info.infoType = .danmuMsg) (hmem : mem.isSome)
    (taken : (recvSystem conf).step q (some info, mem) q') :
    ∃ s', Represents q' s' ∧ s'.line = recvLine s.line info ∧
      (HasRoomFor q (some info, mem) → s'.Sound) := by
  obtain ⟨hfresh, hrun⟩ := taken
  have hcalled : (QList.call q (danmuCall info mem)).map Prod.snd = some q' :=
    (liveroomInfoRecv_eq hconf hdanmu).symm.trans hrun
  obtain ⟨⟨ret, q''⟩, hcall, rfl⟩ := Option.map_eq_some_iff.mp hcalled
  have hstep : qlistSystem.step q (danmuCall info mem, ret) q'' :=
    ⟨recvCall_mallocContract hfresh (recvCall_eq_danmuCall hconf hdanmu), hcall⟩
  refine ⟨_, (h.step hstep).2, line_danmuCall hs h.addr_injOn huniform hmem, fun hroom => ?_⟩
  refine (h.sound_step hs ?_ hstep).1
  have hroom' := hroom info rfl
  unfold HasRoom danmuCall
  by_cases hcancel : info.data.cancelQueueUp = true
  · rw [if_pos hcancel]
    trivial
  · rw [if_neg hcancel]
    exact hroom'.resolve_left hcancel

/-- Every danmu record can be processed. -/
theorem exists_recv (hconf : NoPriority conf) (h : Represents q s)
    (hdanmu : info.infoType = .danmuMsg) :
    ∃ a q', (recvSystem conf).step q (some info, some a) q' := by
  obtain ⟨a, ha⟩ := Infinite.exists_notMem_finset q.live
  have hfresh : ∀ b ∈ some a, b ∉ q.live := by
    intro b hb
    obtain rfl : a = b := by simpa using hb
    exact ha
  have hmalloc : (danmuCall info (some a)).MallocContract q :=
    recvCall_mallocContract hfresh (recvCall_eq_danmuCall hconf hdanmu)
  obtain ⟨q', hcall, -⟩ := h.call hmalloc
  refine ⟨a, q', hfresh, ?_⟩
  show liveroomInfoRecv conf q (some info) (some a) = some q'
  rw [liveroomInfoRecv_eq hconf hdanmu, hcall]
  rfl

/-- The announcements of a history. -/
def announcements (history : List (Option UserInfo × Option Addr)) :
    List (Announcement UInt32) :=
  (history.filterMap Prod.fst).map announce

theorem announcements_concat (history : List (Option UserInfo × Option Addr)) (info : UserInfo)
    (mem : Option Addr) :
    announcements (history ++ [(some info, mem)]) = announcements history ++ [announce info] := by
  simp [announcements]

/-- The queue serves its users in the order they came. -/
structure ServesInOrder (conf : QueueUpConfig) (history : List (Option UserInfo × Option Addr))
    (q : BliveQlist) : Prop where
  /-- The traversal lists the users whose last record was a queue-up, each once,
  ordered by the record that took them from absent to present. -/
  order : ∃ line, traversal q false = some line ∧
    Announcement.FirstCome (announcements history) (line.map Prod.fst)
  /-- A repeated queue-up moves nobody. -/
  repeated : ∀ info mem q', (recvSystem conf).step q (some info, mem) q' →
    WholeDanmu (some info, mem) → announce info = .arrival (uid info) →
      Announcement.Present (announcements history) (uid info) →
        (traversal q' false).map (List.map Prod.fst) =
          (traversal q false).map (List.map Prod.fst)
  /-- A cancel of an absent user changes nothing. -/
  void : ∀ info mem q', (recvSystem conf).step q (some info, mem) q' →
    WholeDanmu (some info, mem) → announce info = .departure (uid info) →
      ¬ Announcement.Present (announcements history) (uid info) →
        traversal q' false = traversal q false

theorem cancelQueueUp_of_announce :
    (announce info = .arrival (uid info) ↔ ¬ info.data.cancelQueueUp = true) ∧
      (announce info = .departure (uid info) ↔ info.data.cancelQueueUp = true) := by
  unfold announce
  by_cases hcancel : info.data.cancelQueueUp = true <;> simp [hcancel]

/-- Every run with room reaches a uniform sequence that lists first come, first served. -/
theorem exists_uniform (hconf : NoPriority conf)
    {history : List (Option UserInfo × Option Addr)}
    (run : (recvSystem conf).Run (fun q label => WholeDanmu label ∧ HasRoomFor q label)
      history q) :
    ∃ s, Represents q s ∧ s.Sound ∧ Uniform s.line ∧
      Announcement.FirstCome (announcements history) (s.line.map Prod.fst) := by
  refine System.Run.invariant (I := fun history q => ∃ s, Represents q s ∧ s.Sound ∧
    Uniform s.line ∧ Announcement.FirstCome (announcements history) (s.line.map Prod.fst))
    ?_ ?_ run
  · intro q hinit
    have hempty : qlistSystem.init q := hinit
    exact ⟨⟨[], none⟩, eq_emptyQlist_of_init hempty ▸ emptyQlist_represents,
      ⟨by simp [Sequence.line], by simp⟩, nofun, Announcement.FirstCome.nil⟩
  · rintro history q ⟨read, mem⟩ q' - ⟨s, h, hs, huniform, hfirst⟩
      ⟨⟨⟨info, hread, hdanmu⟩, hmem⟩, hroom⟩ taken
    obtain rfl : read = some info := hread
    obtain ⟨s', h', hline, hsound⟩ := recv_step hconf h hs huniform hdanmu hmem taken
    refine ⟨s', h', hsound hroom, hline ▸ huniform.recvLine info, ?_⟩
    rw [announcements_concat, hline, map_fst_recvLine]
    exact hfirst.concat _

/-- First come, first served, as long as the counter does not wrap. -/
theorem first_come_first_served (hconf : NoPriority conf)
    {history : List (Option UserInfo × Option Addr)}
    (run : (recvSystem conf).Run (fun q label => WholeDanmu label ∧ HasRoomFor q label)
      history q) : ServesInOrder conf history q := by
  obtain ⟨s, h, hs, huniform, hfirst⟩ := exists_uniform hconf run
  have hshow := h.traversal_eq_line hs
  have hnext : ∀ {info mem q'}, (recvSystem conf).step q (some info, mem) q' →
      WholeDanmu (some info, mem) → HasRoomFor q (some info, mem) →
      traversal q' false = some (recvLine s.line info) := by
    rintro info mem q' taken ⟨⟨_, ⟨⟩, hdanmu⟩, hmem⟩ hroom
    obtain ⟨s', h', hline, hsound⟩ := recv_step hconf h hs huniform hdanmu hmem taken
    rw [h'.traversal_eq_line (hsound hroom), hline]
  refine ⟨⟨s.line, hshow, hfirst⟩, ?_, ?_⟩
  · intro info mem q' taken hwhole harrival hpresent
    have hqueued := (hfirst.mem_iff _).mpr hpresent
    have hroom : HasRoomFor q (some info, mem) := by
      rintro _ ⟨⟩
      exact Or.inr (Or.inl (h.isQueued_iff.mpr hqueued))
    rw [hnext taken hwhole hroom, hshow, Option.map_some, Option.map_some, map_fst_recvLine,
      harrival, Announcement.receive, if_pos hqueued]
  · intro info mem q' taken hwhole hdeparture habsent
    have hcancel := cancelQueueUp_of_announce.2.mp hdeparture
    have hroom : HasRoomFor q (some info, mem) := by
      rintro _ ⟨⟩
      exact Or.inl hcancel
    have hout : uid info ∉ s.line.map Prod.fst := fun hin => habsent ((hfirst.mem_iff _).mp hin)
    rw [hnext taken hwhole hroom, hshow, recvLine, if_pos hcancel, dropAnchorage_of_absent hout]

/-- The record with which a user queues up, or cancels. -/
def danmuOf (u : UInt32) (cancel : Bool) : UserInfo where
  infoType := .danmuMsg
  data := { QlistUnitData.zero with danmuSenderUid := u, cancelQueueUp := cancel }

/-- The configuration without fleet priority. -/
def plainConfig : QueueUpConfig := ⟨false, true, true⟩

theorem plainConfig_noPriority : NoPriority plainConfig := ⟨rfl, rfl⟩

instance (label : Option UserInfo × Option Addr) : Decidable (WholeDanmu label) := by
  unfold WholeDanmu
  infer_instance

instance (q : BliveQlist) (label : Option UserInfo × Option Addr) :
    Decidable (HasRoomFor q label) := by
  unfold HasRoomFor
  infer_instance

/-- One whole danmu record, processed by the model while the counter has room. -/
def recvNext (conf : QueueUpConfig) (q : BliveQlist) (label : Option UserInfo × Option Addr) :
    Option ((Option UserInfo × Option Addr) × BliveQlist) :=
  if (WholeDanmu label ∧ HasRoomFor q label) ∧ ∀ a ∈ label.2, a ∉ q.live then
    (liveroomInfoRecv conf q label.1 label.2).map fun q' => (label, q')
  else none

/-- Two users queue up, the first one cancels and comes back behind the second. -/
theorem first_come_first_served_after_return :
    ∃ history q, (recvSystem plainConfig).Run
        (fun q label => WholeDanmu label ∧ HasRoomFor q label) history q ∧
      announcements history = [.arrival 1, .arrival 2, .departure 1, .arrival 1] ∧
      (traversal q false).map (List.map Prod.fst) = some [2, 1] ∧
      ServesInOrder plainConfig history q := by
  have sound : ∀ q input label q', recvNext plainConfig q input = some (label, q') →
      (WholeDanmu label ∧ HasRoomFor q label) ∧ (recvSystem plainConfig).step q label q' := by
    intro q input label q' hnext
    unfold recvNext at hnext
    split at hnext
    next hguard =>
      obtain ⟨_, hrun, hpair⟩ := Option.map_eq_some_iff.mp hnext
      obtain ⟨rfl, rfl⟩ := Prod.mk.inj hpair
      exact ⟨hguard.1, hguard.2, hrun⟩
    next => exact absurd hnext nofun
  have hinit : (recvSystem plainConfig).init emptyQlist := rfl
  obtain ⟨history, q, run, htest⟩ := System.Run.exists_of_execute sound hinit
    [(some (danmuOf 1 false), some 0), (some (danmuOf 2 false), some 1),
      (some (danmuOf 1 true), some 2), (some (danmuOf 1 false), some 3)]
    (fun r => announcements r.1 =
      [.arrival 1, .arrival 2, .departure 1, .arrival 1] ∧
        (traversal r.2 false).map (List.map Prod.fst) = some [2, 1])
    (by decide +kernel)
  obtain ⟨hsaid, hshow⟩ := of_decide_eq_true htest
  exact ⟨history, q, run, hsaid, hshow, first_come_first_served plainConfig_noPriority run⟩

/-- Every user may queue up, as long as the counter has room. -/
theorem exists_arrivals {n : ℕ} (hn : n < 2 ^ 32) :
    ∃ history q s, (recvSystem plainConfig).Run
        (fun q label => WholeDanmu label ∧ HasRoomFor q label) history q ∧
      Represents q s ∧ s.Sound ∧ Uniform s.line ∧
      s.line.map Prod.fst = (List.range n).map UInt32.ofNat := by
  induction n with
  | zero =>
      exact ⟨[], emptyQlist, ⟨[], none⟩, .start rfl, emptyQlist_represents,
        ⟨by simp [Sequence.line], by simp⟩, nofun, rfl⟩
  | succ n ih =>
      obtain ⟨history, q, s, run, h, hs, huniform, hline⟩ := ih (Nat.lt_of_succ_lt hn)
      have hdanmu : (danmuOf (UInt32.ofNat n) false).infoType = .danmuMsg := rfl
      obtain ⟨a, q', taken⟩ := exists_recv plainConfig_noPriority h hdanmu
      obtain ⟨s', h', hline', hsound⟩ :=
        recv_step plainConfig_noPriority h hs huniform hdanmu rfl taken
      have hroom : HasRoomFor q (some (danmuOf (UInt32.ofNat n) false), some a) := by
        rintro _ ⟨⟩
        refine Or.inr (Or.inr fun hfull => ?_)
        have hlength : s.line.length = n := by
          simpa using congrArg List.length hline
        rw [h.elemNum_eq_max_iff hs, hlength] at hfull
        omega
      have hout : UInt32.ofNat n ∉ s.line.map Prod.fst := by
        rw [hline]
        exact ofNat_notMem_range (Nat.lt_of_succ_lt hn)
      refine ⟨_, q', s', run.extend ⟨⟨⟨_, rfl, hdanmu⟩, rfl⟩, hroom⟩ taken, h', hsound hroom,
        hline' ▸ huniform.recvLine _, ?_⟩
      rw [hline', map_fst_recvLine]
      show Announcement.receive _ (.arrival (UInt32.ofNat n)) = _
      rw [Announcement.receive, if_neg hout, hline, List.range_succ, List.map_append]
      rfl

/-- Once all users have queued up the counter is zero and the traversal is empty. -/
theorem exists_arrivals_not_served :
    ¬ ∀ conf history q, NoPriority conf →
      (recvSystem conf).Run (fun _ label => WholeDanmu label) history q →
        ServesInOrder conf history q := by
  intro hevery
  obtain ⟨n, hn⟩ : ∃ n, n + 1 = 2 ^ 32 := ⟨2 ^ 32 - 1, rfl⟩
  have hlt : n < 2 ^ 32 := Nat.lt_of_succ_le hn.le
  obtain ⟨history, q, s, run, h, hs, huniform, hline⟩ :=
    exists_arrivals hlt
  have hdanmu : (danmuOf (UInt32.ofNat n) false).infoType = .danmuMsg := rfl
  obtain ⟨a, q', taken⟩ := exists_recv plainConfig_noPriority h hdanmu
  obtain ⟨s', h', hline', -⟩ :=
    recv_step plainConfig_noPriority h hs huniform hdanmu rfl taken
  have run' := (run.mono fun _ _ hallowed => hallowed.1).extend ⟨⟨_, rfl, hdanmu⟩, rfl⟩ taken
  obtain ⟨line, hshow, hfirst⟩ := (hevery _ _ _ plainConfig_noPriority run').order
  have hout : UInt32.ofNat n ∉ s.line.map Prod.fst := by
    rw [hline]
    exact ofNat_notMem_range hlt
  have hfst : s'.line.map Prod.fst =
      s.line.map Prod.fst ++ [UInt32.ofNat n] := by
    rw [hline', map_fst_recvLine]
    show Announcement.receive _ (.arrival (UInt32.ofNat n)) = _
    rw [Announcement.receive, if_neg hout]
  have hcount : s'.count = 0 := by
    have hlength := congrArg List.length hfst
    rw [hline, List.length_append, List.length_map, List.length_map, List.length_range,
      Sequence.line, List.length_map, List.length_singleton] at hlength
    rw [Sequence.count, hlength, hn, Nat.mod_self]
  rw [h'.traversal_eq, hcount] at hshow
  obtain rfl : line = [] := by simpa using hshow.symm
  -- the last user has just queued up, yet nobody is shown
  have hpresent := (hfirst.mem_iff (UInt32.ofNat n)).mpr (by
    rw [announcements_concat, Announcement.present_concat]
    exact if_pos rfl ▸ rfl)
  simp at hpresent

end BliveQueue.Callbacks
