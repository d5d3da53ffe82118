/-
# The pipe between the two threads

`liveroom_info_send` writes the bytes of a record to `qlist_fd`, and
`liveroom_info_recv` asks for as many bytes once for each event. The socket is a stream:
it keeps the bytes in order but not the ends of the records. A short read is dropped and
the rest of its record stays in the stream, so the next whole read begins in the middle
of a record. Up to the first short read the records arrive as they were sent.
-/

import BliveQueue.Callbacks
import BliveQueue.Math.BlockStream
import BliveQueue.QList.Line

namespace BliveQueue.Callbacks

open BliveQueue.Config BliveQueue.Math
open BliveQueue.Utils BliveQueue.Utils.QList BliveQueue.QList

/-- The layout of `user_info` in memory: its size, and the record its bytes stand for. -/
structure UserInfoLayout where
  size : ℕ
  size_pos : 0 < size
  record : List UInt8 → UserInfo

/-- What `liveroom_info_recv` has read, unless the read was short. -/
def UserInfoLayout.read (layout : UserInfoLayout) (chunk : List UInt8) : Option UserInfo :=
  if chunk.length = layout.size then some (layout.record chunk) else none

/-- The bytes in flight, how many were taken before, the records that were sent and those
that went past the check of the size, and the queue. -/
structure PipeState where
  stream : List UInt8
  taken : ℕ
  sent : List UserInfo
  applied : List UserInfo
  qlist : BliveQlist

/-- A `liveroom_info_send` of the bytes of a record, or a `liveroom_info_recv` whose
`fd_read` delivers some bytes, with what `zero_alloc` answers if it is asked. -/
inductive PipeLabel
  | send (block : List UInt8)
  | recv (chunk : List UInt8) (mem : Option Addr)
  deriving DecidableEq

/-- The state after `liveroom_info_send`. -/
def PipeState.send (layout : UserInfoLayout) (state : PipeState) (block : List UInt8) :
    PipeState :=
  { state with
    stream := state.stream ++ block
    sent := state.sent ++ [layout.record block] }

/-- The state after `liveroom_info_recv`. -/
def PipeState.recv (layout : UserInfoLayout) (state : PipeState) (chunk : List UInt8)
    (q : BliveQlist) : PipeState :=
  { state with
    stream := state.stream.drop chunk.length
    taken := state.taken + chunk.length
    applied := state.applied ++ (layout.read chunk).toList
    qlist := q }

/-- The two threads around a reliable stream. A read takes any piece of the front that is
not empty and not longer than a record. -/
def pipeSystem (layout : UserInfoLayout) (conf : QueueUpConfig) : System PipeState PipeLabel where
  init state := ∃ q, qlistCreate true = (.ok, some q) ∧ state = ⟨[], 0, [], [], q⟩
  step state label state' :=
    match label with
    | .send block => block.length = layout.size ∧ state' = state.send layout block
    | .recv chunk mem =>
      chunk ≠ [] ∧ chunk.length ≤ layout.size ∧ chunk <+: state.stream ∧
        (∀ a ∈ mem, a ∉ state.qlist.live) ∧
        ∃ q, liveroomInfoRecv conf state.qlist (layout.read chunk) mem = some q ∧
          state' = state.recv layout chunk q

variable {layout : UserInfoLayout} {conf : QueueUpConfig} {history : List PipeLabel}
  {state state' : PipeState} {label : PipeLabel}

/-- A read of the size of a record begins where a record begins: all bytes before it went
into the records that were applied. -/
def OnBoundary (layout : UserInfoLayout) (state : PipeState) (label : PipeLabel) : Prop :=
  match label with
  | .send _ => True
  | .recv chunk _ =>
    chunk.length = layout.size → state.taken = layout.size * state.applied.length

/-- The stream is made of the records that were sent, and the first of them were applied. -/
def InOrder (layout : UserInfoLayout) (state : PipeState) : Prop :=
  ∃ blocks, BlockStream layout.size blocks state.taken state.stream ∧
    state.sent = blocks.map layout.record ∧
    state.applied = (blocks.take state.applied.length).map layout.record

theorem InOrder.applied_prefix (h : InOrder layout state) : state.applied <+: state.sent := by
  obtain ⟨blocks, -, hsent, happlied⟩ := h
  rw [hsent, happlied]
  exact (List.take_prefix _ _).map layout.record

theorem inOrder_of_init (h : (pipeSystem layout conf).init state) : InOrder layout state := by
  obtain ⟨q, -, rfl⟩ := h
  exact ⟨[], .nil, rfl, rfl⟩

/-- A record that is sent comes after all others. -/
theorem InOrder.send {block : List UInt8} (h : InOrder layout state)
    (hblock : block.length = layout.size) : InOrder layout (state.send layout block) := by
  obtain ⟨blocks, hstream, hsent, happlied⟩ := h
  refine ⟨blocks ++ [block], hstream.send hblock, ?_, ?_⟩
  · rw [List.map_append, List.map_singleton, ← hsent]
    rfl
  · have hle : state.applied.length ≤ blocks.length := by
      have hlen := congrArg List.length happlied
      rw [List.length_map, List.length_take] at hlen
      omega
    show state.applied = ((blocks ++ [block]).take state.applied.length).map layout.record
    rw [List.take_append_of_le_length hle, ← happlied]

/-- A read takes a piece from the stream, and applies the next record if it has the size of
one. -/
theorem InOrder.recv {chunk : List UInt8} (h : InOrder layout state) (q : BliveQlist)
    (hchunk : chunk <+: state.stream)
    (hboundary : chunk.length = layout.size → state.taken = layout.size * state.applied.length) :
    InOrder layout (state.recv layout chunk q) := by
  obtain ⟨blocks, hstream, hsent, happlied⟩ := h
  refine ⟨blocks, hstream.take hchunk, hsent, ?_⟩
  show state.applied ++ (layout.read chunk).toList = (blocks.take
    (state.applied ++ (layout.read chunk).toList).length).map layout.record
  by_cases hwhole : chunk.length = layout.size
  · rw [hboundary hwhole] at hstream
    have hnext : blocks[state.applied.length]? = some chunk :=
      hstream.getElem?_of_prefix layout.size_pos hchunk hwhole
    rw [UserInfoLayout.read, if_pos hwhole, Option.toList_some, List.length_append,
      List.length_singleton, List.take_add_one, hnext, Option.toList_some, List.map_append,
      List.map_singleton, ← happlied]
  · rw [UserInfoLayout.read, if_neg hwhole, Option.toList_none, List.append_nil]
    exact happlied

theorem InOrder.step (h : InOrder layout state) (allowed : OnBoundary layout state label)
    (taken : (pipeSystem layout conf).step state label state') : InOrder layout state' := by
  cases label with
  | send block =>
      obtain ⟨hblock, rfl⟩ := taken
      exact h.send hblock
  | recv chunk mem =>
      obtain ⟨-, -, hchunk, -, q, -, rfl⟩ := taken
      exact h.recv q hchunk allowed

/-- Whatever the pieces, if whole reads begin at records, the records that are applied are
the first ones that were sent. -/
theorem applied_prefix_of_boundary
    (run : (pipeSystem layout conf).Run (OnBoundary layout) history state) :
    state.applied <+: state.sent := by
  have hinvariant : InOrder layout state := by
    apply System.Run.invariant (I := fun _ state => InOrder layout state) ?_ ?_ run
    · intro state hinit
      exact inOrder_of_init hinit
    · intro history state label state' _ hordered allowed taken
      exact hordered.step allowed taken
  exact hinvariant.applied_prefix

/-! ## Two records -/

/-- The four bytes at an offset, the lowest first. -/
def word (bytes : List UInt8) (offset : ℕ) : UInt32 :=
  (bytes.getD offset 0).toUInt32 + 256 * ((bytes.getD (offset + 1) 0).toUInt32 +
    256 * ((bytes.getD (offset + 2) 0).toUInt32 + 256 * (bytes.getD (offset + 3) 0).toUInt32))

/-- The array of characters at an offset. -/
def chars (bytes : List UInt8) (offset : ℕ) : Vector UInt8 defaultNameLen :=
  Vector.ofFn fun i => bytes.getD (offset + i) 0

/-- The members of `user_info` in order, with enumerations and `Bool`s of four bytes. -/
def packed : UserInfoLayout where
  size := 96
  size_pos := by decide
  record bytes :=
    { infoType := if word bytes 0 = 0 then .danmuMsg else
        if word bytes 0 = 1 then .sendGift else .other (word bytes 0).toNat
      data :=
        { weight := word bytes 4
          danmuSenderName := chars bytes 8
          danmuSenderUid := word bytes 40
          fleetLv := word bytes 44
          cancelQueueUp := word bytes 48 ≠ 0
          isHostoomManager := word bytes 52 ≠ 0
          fansPriceIsCurLiveroom := word bytes 56 ≠ 0
          fansPriceLevel := word bytes 60
          fansPriceName := chars bytes 64 } }

/-- The bytes of a record with which a user queues up who has no name. -/
def joinBytes (uid : UInt8) : List UInt8 := List.replicate 40 0 ++ uid :: List.replicate 55 0

/-- A configuration that lets everybody queue up. -/
def openRules : QueueUpConfig := ⟨false, true, true⟩

/-- Execution of one step, if the guard admits it. -/
def pipeNext (guard : PipeState → PipeLabel → Prop) [∀ state label, Decidable (guard state label)]
    (state : PipeState) (label : PipeLabel) : Option (PipeLabel × PipeState) :=
  if guard state label then
    match label with
    | .send block =>
      if block.length = packed.size then some (label, state.send packed block) else none
    | .recv chunk mem =>
      if chunk ≠ [] ∧ chunk.length ≤ packed.size ∧ chunk <+: state.stream ∧
          ∀ a ∈ mem, a ∉ state.qlist.live then
        (liveroomInfoRecv openRules state.qlist (packed.read chunk) mem).map fun q =>
          (label, state.recv packed chunk q)
      else none
  else none

theorem pipeNext_sound {guard : PipeState → PipeLabel → Prop}
    [∀ state label, Decidable (guard state label)] (state : PipeState) (input label : PipeLabel)
    (state' : PipeState) (h : pipeNext guard state input = some (label, state')) :
    guard state label ∧ (pipeSystem packed openRules).step state label state' := by
  unfold pipeNext at h
  split at h
  next hguard =>
    cases input with
    | send block =>
        simp only at h
        split at h
        next hblock =>
          obtain ⟨rfl, rfl⟩ := Prod.mk.inj (Option.some.inj h)
          exact ⟨hguard, hblock, rfl⟩
        next => cases h
    | recv chunk mem =>
        simp only at h
        split at h
        next hchunk =>
          obtain ⟨hne, hle, hfront, hfresh⟩ := hchunk
          obtain ⟨q, hq, hpair⟩ := Option.map_eq_some_iff.mp h
          obtain ⟨rfl, rfl⟩ := Prod.mk.inj hpair
          exact ⟨hguard, hne, hle, hfront, hfresh, q, hq, rfl⟩
        next => cases h
  next => cases h

instance (layout : UserInfoLayout) (state : PipeState) (label : PipeLabel) :
    Decidable (OnBoundary layout state label) :=
  match label with
  | .send _ => inferInstanceAs (Decidable True)
  | .recv chunk _ => inferInstanceAs (Decidable
      (chunk.length = layout.size → state.taken = layout.size * state.applied.length))

/-- Nothing has been sent. -/
def idlePipe : PipeState := ⟨[], 0, [], [], emptyQlist⟩

/-- A test passed by an execution is passed at the end of a run. -/
theorem exists_pipe_run (guard : PipeState → PipeLabel → Prop)
    [∀ state label, Decidable (guard state label)] (inputs : List PipeLabel)
    (test : List PipeLabel × PipeState → Bool)
    (h : (System.execute (pipeNext guard) idlePipe inputs).any test = true) :
    ∃ history state, (pipeSystem packed openRules).Run guard history state ∧
      test (history, state) = true :=
  System.Run.exists_of_execute pipeNext_sound ⟨emptyQlist, rfl, rfl⟩ inputs test h

/-- Two records are sent in a burst and read one by one, and the front of a third one is
read on its own. -/
theorem applied_prefix_of_two :
    ∃ history state, (pipeSystem packed openRules).Run (OnBoundary packed) history state ∧
      state.applied.length = 2 ∧ state.sent.length = 3 ∧ state.applied <+: state.sent := by
  obtain ⟨history, state, run, htest⟩ := exists_pipe_run (OnBoundary packed)
    [.send (joinBytes 1), .send (joinBytes 2), .recv (joinBytes 1) (some 1),
      .recv (joinBytes 2) (some 2), .send (joinBytes 3), .recv ((joinBytes 3).take 48) none]
    (fun r => r.2.applied.length = 2 ∧ r.2.sent.length = 3) (by decide +kernel)
  obtain ⟨happlied, hsent⟩ := of_decide_eq_true htest
  exact ⟨history, state, run, happlied, hsent, applied_prefix_of_boundary run⟩

/-- Two records are cut in the middle of the first one: the second read takes the end of
the first record and the front of the second, and a record is applied that nobody sent. -/
theorem exists_record_assembled :
    ∃ history state, (pipeSystem packed openRules).Trace history state ∧
      (∃ info ∈ state.applied, info ∉ state.sent) ∧ ¬ state.applied <+: state.sent := by
  obtain ⟨history, state, run, htest⟩ := exists_pipe_run System.anyStep
    [.send (joinBytes 1), .send (joinBytes 2), .recv ((joinBytes 1).take 48) none,
      .recv ((joinBytes 1).drop 48 ++ (joinBytes 2).take 48) (some 1)]
    (fun r => ∃ info ∈ r.2.applied, info ∉ r.2.sent) (by decide +kernel)
  have hassembled := of_decide_eq_true htest
  refine ⟨history, state, run, hassembled, ?_⟩
  intro hpre
  obtain ⟨info, hinfo, hforeign⟩ := hassembled
  exact hforeign (List.IsPrefix.subset hpre hinfo)

end BliveQueue.Callbacks
