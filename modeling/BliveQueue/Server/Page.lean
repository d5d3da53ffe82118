/-
# What a viewer sees

The thread of the room and the thread of the engine do not notice the main thread: without
its steps every run is a run of the pipe. So what is known of the pipe holds of the queue at
each line of a response. If every read is whole, the allocator has memory for each user who
queues up and the counter of the queue does not wrap, the queue is the line of the records
that have arrived, and these are the first ones that were sent; the page of the program shows
that line once, between lines of the template.
-/

import BliveQueue.Callbacks.FirstCome
import BliveQueue.Server.Runs

namespace BliveQueue.Server

open BliveQueue.Callbacks BliveQueue.Config BliveQueue.Httpd BliveQueue.Math
open BliveQueue.Math.CharBuffer BliveQueue.QList BliveQueue.Utils BliveQueue.Utils.FdPool
open BliveQueue.Utils.Httpd BliveQueue.Utils.QList BliveQueue.Utils.Select

variable {Json : Type} {cjson : CJson Json} {layout : UserInfoLayout}
  {files : HttpFile → Option (List UInt8)} {conf : BliveExtCfg Json} {rules : QueueUpConfig}
  {s s' : ServerState Json} {label : Action Json × Observation}
  {guard : ServerState Json → Action Json × Observation → Prop}
  {history before after : List (Action Json × Observation)} {state state' : PipeState}
  {q : BliveQlist} {closed : Closed}

/-! ## The pipe without the main thread -/

/-- The step of the pipe in a step of one of the threads. -/
def pipeLabel : Action Json × Observation → Option PipeLabel
  | (.danmu _ block, _) => block.map .send
  | (.recv chunk mem, _) => some (.recv chunk mem)
  | _ => none

/-- The main thread leaves the pipe and the queue as they are. -/
theorem Serving.pipe_eq (h : Serving files conf history s)
    (taken : (serverSystem cjson layout files conf).step s label s')
    (hsilent : pipeLabel label = none) : s'.pipe = s.pipe := by
  obtain ⟨action, seen⟩ := label
  obtain ⟨-, hnext⟩ := taken
  cases action with
  | danmu msg block =>
      obtain ⟨r, -, heq⟩ := Option.map_eq_some_iff.mp hnext
      obtain ⟨-, rfl⟩ := Prod.mk.inj heq
      cases block with
      | none => rfl
      | some block => cases hsilent
  | recv chunk mem => cases hsilent
  | request read succeeds =>
      obtain ⟨-, file, buffer, -, hfile⟩ := request_cases hnext
      cases file with
      | none =>
          obtain ⟨-, rfl⟩ := hfile
          rfl
      | some file =>
          obtain ⟨start, -, hresult⟩ := hfile
          cases start with
          | error closed =>
              obtain ⟨-, rfl⟩ := hresult
              rfl
          | ok r =>
              obtain ⟨-, rfl⟩ := hresult
              rfl
  | line =>
      obtain ⟨response, used, template, closed, -, -, -, hresult⟩ := h.line hnext
      cases closed with
      | none =>
          obtain ⟨r', rfl, -⟩ := hresult
          rfl
      | some closed =>
          obtain ⟨rfl, -⟩ := hresult
          rfl

/-- The other two threads take a step of the pipe. -/
theorem Serving.pipe_step (h : Serving files conf history s)
    (taken : (serverSystem cjson layout files conf).step s label s') {answer : PipeLabel}
    (hanswer : pipeLabel label = some answer) :
    (pipeSystem layout conf.queueUpConfig.toQueueUpConfig).step s.pipe answer s'.pipe := by
  obtain ⟨action, seen⟩ := label
  obtain ⟨hcontract, hnext⟩ := taken
  cases action with
  | danmu msg block =>
      obtain ⟨r, -, heq⟩ := Option.map_eq_some_iff.mp hnext
      obtain ⟨-, rfl⟩ := Prod.mk.inj heq
      obtain ⟨block, rfl, rfl⟩ := Option.map_eq_some_iff.mp hanswer
      exact ⟨hcontract.2 block rfl, rfl⟩
  | recv chunk mem =>
      obtain rfl := Option.some.inj hanswer
      obtain ⟨-, q, hrecv, rfl⟩ := recv_cases hnext
      obtain ⟨hne, hle, hfront, hfresh⟩ := hcontract
      exact ⟨hne, hle, hfront, hfresh, q, h.rules_eq ▸ hrecv, rfl⟩
  | request read succeeds => cases hanswer
  | line => cases hanswer

/-- Without the steps of the main thread every run is a run of the pipe. -/
theorem pipe_of_run {pipeGuard : PipeState → PipeLabel → Prop}
    (hguard : ∀ s label s' answer, guard s label →
      (serverSystem cjson layout files conf).step s label s' →
        pipeLabel label = some answer → pipeGuard s.pipe answer)
    (run : (serverSystem cjson layout files conf).Run guard history s) :
    (pipeSystem layout conf.queueUpConfig.toQueueUpConfig).Run pipeGuard
      (history.filterMap pipeLabel) s.pipe := by
  have himage : ∃ t, (pipeSystem layout conf.queueUpConfig.toQueueUpConfig).Run pipeGuard
      (history.filterMap pipeLabel) t ∧ s.pipe = t ∧ ∃ history, Serving files conf history s := by
    apply System.Run.stutter (fun s t => s.pipe = t ∧ ∃ history, Serving files conf history s)
      pipeLabel ?_ ?_ ?_ run
    · intro s hinit
      have hserving := Serving.of_init hinit
      obtain ⟨fdPoll, rdFd, mem, q, registered, hregister, hq, rfl⟩ := hinit
      obtain ⟨hqlist, -⟩ := httpd_of_callbacksInit hregister
      obtain rfl := Option.some.inj (hqlist.symm.trans hq)
      exact ⟨_, ⟨emptyQlist, rfl, rfl⟩, rfl, _, hserving⟩
    · rintro s label s' _ ⟨rfl, history, hserving⟩ - taken hsilent
      exact ⟨hserving.pipe_eq taken hsilent, _, hserving.step taken⟩
    · rintro s label s' _ answer ⟨rfl, history, hserving⟩ hallowed taken hanswer
      exact ⟨_, hguard _ _ _ _ hallowed taken hanswer, hserving.pipe_step taken hanswer, rfl, _,
        hserving.step taken⟩
  obtain ⟨_, hrun, rfl, -⟩ := himage
  exact hrun

/-- The call on the queue in a step of the pipe. -/
def recvLabel (layout : UserInfoLayout) : PipeLabel → Option (Option UserInfo × Option Addr)
  | .send _ => none
  | .recv chunk mem => some (layout.read chunk, mem)

/-- Without the steps of the sender every run of the pipe is a run of the receiver. -/
theorem recv_of_pipe {labels : List PipeLabel}
    (run : (pipeSystem layout rules).Trace labels state) :
    (recvSystem rules).Trace (labels.filterMap (recvLabel layout)) state.qlist := by
  have himage : ∃ q, (recvSystem rules).Trace (labels.filterMap (recvLabel layout)) q ∧
      state.qlist = q := by
    apply System.Run.stutter (fun state q => state.qlist = q) (recvLabel layout) ?_ ?_ ?_ run
    · rintro state ⟨q, hq, rfl⟩
      exact ⟨q, hq, rfl⟩
    · rintro state label state' _ rfl - taken hsilent
      cases label with
      | send block =>
          obtain ⟨-, rfl⟩ := taken
          rfl
      | recv chunk mem => cases hsilent
    · rintro state label state' _ answer rfl - taken hanswer
      cases label with
      | send block => cases hanswer
      | recv chunk mem =>
          obtain rfl := Option.some.inj hanswer
          obtain ⟨-, -, -, hfresh, q, hrecv, rfl⟩ := taken
          exact ⟨q, trivial, ⟨hfresh, hrecv⟩, rfl⟩
  obtain ⟨_, hrun, rfl⟩ := himage
  exact hrun

/-- The three levels of the program: without the steps of the main thread every run is one of
the pipe, and without those of the sender one of the receiver. Nothing that the main thread
does can be seen by the queue. -/
theorem pipe_of_trace (run : (serverSystem cjson layout files conf).Trace history s) :
    (pipeSystem layout conf.queueUpConfig.toQueueUpConfig).Trace
        (history.filterMap pipeLabel) s.pipe ∧
      (recvSystem conf.queueUpConfig.toQueueUpConfig).Trace
        ((history.filterMap pipeLabel).filterMap (recvLabel layout)) s.pipe.qlist := by
  have hpipe : (pipeSystem layout conf.queueUpConfig.toQueueUpConfig).Trace
      (history.filterMap pipeLabel) s.pipe :=
    pipe_of_run (fun _ _ _ _ _ _ _ => trivial) run
  exact ⟨hpipe, recv_of_pipe hpipe⟩

/-- A user queues up, and the record is read in two pieces. -/
theorem pipe_of_trace_of_pieces :
    ∃ (history : List (Action StatusNode × Observation)) (s : ServerState StatusNode),
      (serverSystem statusJson packed oneLabel hostConf).Trace history s ∧
        s.pipe.sent.length = 1 ∧ s.pipe.applied = [] ∧
        (pipeSystem packed hostConf.queueUpConfig.toQueueUpConfig).Trace
          (history.filterMap pipeLabel) s.pipe ∧
        (recvSystem hostConf.queueUpConfig.toQueueUpConfig).Trace
          ((history.filterMap pipeLabel).filterMap (recvLabel packed)) s.pipe.qlist := by
  obtain ⟨history, s, run, htest⟩ := exists_server_run oneLabel System.anyStep
    [.danmu joinMsg (some joinRecord), .recv (joinRecord.take 40) none,
      .recv (joinRecord.drop 40) none]
    (fun r => r.2.pipe.sent.length = 1 ∧ r.2.pipe.applied = []) (by decide +kernel)
  obtain ⟨hsent, happlied⟩ := of_decide_eq_true htest
  exact ⟨history, s, run, hsent, happlied, pipe_of_trace run⟩

/-! ## Whole reads -/

/-- Danmu records go in, and they are read one by one, with memory for those who queue up
and a counter that can count them. -/
def InTurn (layout : UserInfoLayout) (state : PipeState) : PipeLabel → Prop
  | .send block => (layout.record block).infoType = .danmuMsg
  | .recv chunk mem => chunk.length = layout.size ∧ mem.isSome ∧
    HasRoomFor state.qlist (layout.read chunk, mem)

/-- The queue is the line of the records that were applied, the first ones that were sent. -/
structure Arranged (layout : UserInfoLayout) (state : PipeState) : Prop where
  inOrder : InOrder layout state
  boundary : state.taken = layout.size * state.applied.length
  danmu : ∀ info ∈ state.sent, info.infoType = .danmuMsg
  line : ∃ seq, Represents state.qlist seq ∧ seq.Sound ∧ Uniform seq.line ∧
    seq.line = state.applied.foldl recvLine []

theorem Arranged.of_init (h : (pipeSystem layout rules).init state) : Arranged layout state := by
  have hordered := inOrder_of_init h
  obtain ⟨q, hq, rfl⟩ := h
  have hempty : qlistSystem.init q := hq
  obtain rfl := eq_emptyQlist_of_init hempty
  refine ⟨hordered, rfl, fun info hinfo => absurd hinfo List.not_mem_nil, ⟨[], none⟩,
    emptyQlist_represents, ⟨by simp [Sequence.line], by simp⟩,
    fun p hp => absurd hp List.not_mem_nil, rfl⟩

theorem Arranged.send {block : List UInt8} (h : Arranged layout state)
    (hblock : block.length = layout.size) (hdanmu : (layout.record block).infoType = .danmuMsg) :
    Arranged layout (state.send layout block) where
  inOrder := h.inOrder.send hblock
  boundary := h.boundary
  danmu info hinfo := by
    rcases List.mem_append.mp hinfo with hold | hnew
    · exact h.danmu info hold
    · obtain rfl := List.mem_singleton.mp hnew
      exact hdanmu
  line := h.line

/-- A whole read applies the next record that was sent. -/
theorem Arranged.recv {chunk : List UInt8} {mem : Option Addr} (hconf : NoPriority rules)
    (h : Arranged layout state) (allowed : InTurn layout state (.recv chunk mem))
    (taken : (pipeSystem layout rules).step state (.recv chunk mem) state') :
    Arranged layout state' := by
  obtain ⟨hwhole, hmem, hroom⟩ := allowed
  obtain ⟨-, -, hfront, hfresh, q, hrecv, rfl⟩ := taken
  have hread : layout.read chunk = some (layout.record chunk) := if_pos hwhole
  have hordered := h.inOrder.recv q hfront fun _ => h.boundary
  have happlied : (state.recv layout chunk q).applied =
      state.applied ++ [layout.record chunk] := by
    show state.applied ++ (layout.read chunk).toList = _
    rw [hread, Option.toList_some]
  have hdanmu : (layout.record chunk).infoType = .danmuMsg := by
    apply h.danmu
    apply hordered.applied_prefix.subset
    rw [happlied]
    exact List.mem_append_right _ List.mem_cons_self
  obtain ⟨seq, hrep, hsound, huniform, hline⟩ := h.line
  rw [hread] at hrecv hroom
  have hstep : (recvSystem rules).step state.qlist (some (layout.record chunk), mem) q :=
    ⟨hfresh, hrecv⟩
  obtain ⟨seq', hrep', hline', hsound'⟩ :=
    recv_step hconf hrep hsound huniform hdanmu hmem hstep
  refine ⟨hordered, ?_, h.danmu, seq', hrep', hsound' hroom, ?_, ?_⟩
  · rw [happlied, List.length_append, List.length_singleton, Nat.mul_succ, ← h.boundary, ← hwhole]
    rfl
  · rw [hline']
    exact huniform.recvLine _
  · rw [hline', hline, happlied, List.foldl_append]
    rfl

/-- A pipe whose records are read one by one keeps the queue in line with them. -/
theorem arranged_of_run (hconf : NoPriority rules) {labels : List PipeLabel}
    (run : (pipeSystem layout rules).Run (InTurn layout) labels state) :
    Arranged layout state := by
  apply System.Run.invariant (I := fun _ state => Arranged layout state) ?_ ?_ run
  · intro state hinit
    exact .of_init hinit
  · intro labels state label state' _ harranged allowed taken
    cases label with
    | send block =>
        obtain ⟨hblock, rfl⟩ := taken
        exact harranged.send hblock allowed
    | recv chunk mem => exact harranged.recv hconf allowed taken

/-- The line of some records lists first come, first served. -/
theorem firstCome_foldl (records : List UserInfo) :
    Announcement.FirstCome (records.map announce)
      ((records.foldl recvLine []).map Prod.fst) := by
  induction records using List.reverseRecOn with
  | nil => exact Announcement.FirstCome.nil
  | append_singleton records info ih =>
      rw [List.map_append, List.foldl_append, List.map_singleton, List.foldl_cons,
        List.foldl_nil, map_fst_recvLine]
      exact ih.concat _

/-! ## Messages, records and lines -/

/-- The record that a step of the pipe sends. -/
def sentBy (layout : UserInfoLayout) : PipeLabel → Option UserInfo
  | .send block => some (layout.record block)
  | .recv _ _ => none

/-- The record that a step of the pipe applies. -/
def appliedBy (layout : UserInfoLayout) : PipeLabel → Option UserInfo
  | .send _ => none
  | .recv chunk _ => layout.read chunk

theorem records_of_run {pipeGuard : PipeState → PipeLabel → Prop} {labels : List PipeLabel}
    (run : (pipeSystem layout rules).Run pipeGuard labels state) :
    state.sent = labels.filterMap (sentBy layout) ∧
      state.applied = labels.filterMap (appliedBy layout) := by
  apply System.Run.invariant (I := fun labels state =>
    state.sent = labels.filterMap (sentBy layout) ∧
      state.applied = labels.filterMap (appliedBy layout)) ?_ ?_ run
  · rintro state ⟨q, -, rfl⟩
    exact ⟨rfl, rfl⟩
  · rintro labels state label state' - ⟨hsent, happlied⟩ - taken
    rw [List.filterMap_append, List.filterMap_append, ← hsent, ← happlied]
    cases label with
    | send block =>
        obtain ⟨-, rfl⟩ := taken
        exact ⟨rfl, (List.append_nil _).symm⟩
    | recv chunk mem =>
        obtain ⟨-, -, -, -, q, -, rfl⟩ := taken
        refine ⟨(List.append_nil _).symm, ?_⟩
        show state.applied ++ (layout.read chunk).toList = _
        cases hread : layout.read chunk with
        | none => simp [appliedBy, hread]
        | some info => simp [appliedBy, hread]

/-- The records that are sent in some steps. -/
def sentRecords (layout : UserInfoLayout) (history : List (Action Json × Observation)) :
    List UserInfo :=
  (history.filterMap pipeLabel).filterMap (sentBy layout)

/-- The records that arrive in some steps. -/
def received (layout : UserInfoLayout) (history : List (Action Json × Observation)) :
    List UserInfo :=
  (history.filterMap pipeLabel).filterMap (appliedBy layout)

/-- What is read is read as it was sent, one record at a time. There is memory for those who
queue up, and the counter of the queue is not at its end when one more is to be counted. -/
def WholeReads (layout : UserInfoLayout) (s : ServerState Json)
    (label : Action Json × Observation) : Prop :=
  match label.1 with
  | .recv chunk mem => InTurn layout s.pipe (.recv chunk mem)
  | _ => True

instance (layout : UserInfoLayout) (state : PipeState) (label : PipeLabel) :
    Decidable (InTurn layout state label) :=
  match label with
  | .send block => inferInstanceAs (Decidable ((layout.record block).infoType = .danmuMsg))
  | .recv chunk mem => inferInstanceAs (Decidable (chunk.length = layout.size ∧ mem.isSome ∧
      HasRoomFor state.qlist (layout.read chunk, mem)))

instance (layout : UserInfoLayout) (s : ServerState Json) (label : Action Json × Observation) :
    Decidable (WholeReads layout s label) :=
  match label with
  | (.danmu _ _, _) => inferInstanceAs (Decidable True)
  | (.recv chunk mem, _) => inferInstanceAs (Decidable (InTurn layout s.pipe (.recv chunk mem)))
  | (.request _ _, _) => inferInstanceAs (Decidable True)
  | (.line, _) => inferInstanceAs (Decidable True)

/-- What is sent in a step is the record of its message. -/
theorem recordOf_of_step {msg : Json} {block : List UInt8} {seen : Observation}
    (taken : (serverSystem cjson layout files conf).step s (.danmu msg (some block), seen) s') :
    RecordOf cjson s.conf msg (layout.record block) := by
  obtain ⟨⟨hbytes, -⟩, hnext⟩ := taken
  obtain ⟨⟨sent, conf'⟩, hcallback, -⟩ := Option.map_eq_some_iff.mp hnext
  have hsent : some (layout.record block) = sent := hbytes _ hcallback
  exact .of_danmuCallback (hsent ▸ hcallback)

/-- The messages of which a record was sent. -/
def messages (history : List (Action Json × Observation)) : List Json :=
  history.filterMap fun label =>
    match label.1 with
    | .danmu msg (some _) => some msg
    | _ => none

/-- The records that were sent are those of the messages, in order. -/
theorem sentRecords_of_run (run : (serverSystem cjson layout files conf).Run guard history s) :
    List.Forall₂ (RecordOf cjson conf) (messages history) (sentRecords layout history) := by
  apply System.Run.invariant (I := fun history _ =>
    List.Forall₂ (RecordOf cjson conf) (messages history) (sentRecords layout history)) ?_ ?_ run
  · intro s _
    exact List.Forall₂.nil
  · intro history s label s' prior hrecords _ taken
    have hserving := serving_of_run prior
    unfold messages sentRecords at *
    rw [List.filterMap_append, List.filterMap_append, List.filterMap_append]
    apply List.rel_append hrecords
    obtain ⟨action, seen⟩ := label
    cases action with
    | danmu msg block =>
        cases block with
        | none => exact List.Forall₂.nil
        | some block =>
            have hrecord := (recordOf_of_step taken).of_rules hserving.rules
            exact List.Forall₂.cons hrecord List.Forall₂.nil
    | recv chunk mem => exact List.Forall₂.nil
    | request read succeeds => exact List.Forall₂.nil
    | line => exact List.Forall₂.nil

/-- If the reads are whole, the pipe is read in turn. -/
theorem inTurn_of_wholeReads (hwhole : WholeReads layout s label)
    (taken : (serverSystem cjson layout files conf).step s label s') {answer : PipeLabel}
    (hanswer : pipeLabel label = some answer) : InTurn layout s.pipe answer := by
  obtain ⟨action, seen⟩ := label
  cases action with
  | danmu msg block =>
      obtain ⟨block, rfl, rfl⟩ := Option.map_eq_some_iff.mp hanswer
      exact (recordOf_of_step taken).infoType
  | recv chunk mem =>
      obtain rfl := Option.some.inj hanswer
      exact hwhole
  | request read succeeds => cases hanswer
  | line => cases hanswer

/-- The queue behind a run is the line of the records that have arrived. -/
theorem line_of_run (hconf : NoPriority conf.queueUpConfig.toQueueUpConfig)
    (run : (serverSystem cjson layout files conf).Run (WholeReads layout) history s) :
    received layout history <+: sentRecords layout history ∧
      traversal s.pipe.qlist false = some ((received layout history).foldl recvLine []) := by
  have hpipe : (pipeSystem layout conf.queueUpConfig.toQueueUpConfig).Run (InTurn layout)
      (history.filterMap pipeLabel) s.pipe :=
    pipe_of_run (fun _ _ _ _ hwhole taken hanswer => inTurn_of_wholeReads hwhole taken hanswer) run
  obtain ⟨hsent, happlied⟩ := records_of_run hpipe
  have harranged := arranged_of_run hconf hpipe
  obtain ⟨seq, hrep, hsound, -, hline⟩ := harranged.line
  unfold received sentRecords
  rw [← hsent, ← happlied]
  exact ⟨harranged.inOrder.applied_prefix, by rw [hrep.traversal_eq_line hsound, hline]⟩

/-! ## The page of the program -/

/-- An open response was open before, has just been started, or has sent one more line. -/
theorem Ongoing.after_cases {started : Option Ongoing} {response : Ongoing}
    (h : Ongoing.after started label = some response) :
    started = some response ∨ response.queues = [] ∨
      ∃ action q earlier, label = (action, .sent q none) ∧ started = some earlier ∧
        response = { earlier with queues := earlier.queues ++ [q] } := by
  unfold Ongoing.after at h
  split at h
  · obtain rfl := Option.some.inj h
    exact Or.inr (Or.inl rfl)
  · obtain ⟨earlier, rfl, rfl⟩ := Option.map_eq_some_iff.mp h
    exact Or.inr (Or.inr ⟨_, _, earlier, rfl, rfl, rfl⟩)
  · cases h
  · exact Or.inl h

/-- A line that was sent of an open response: the steps in front of it. -/
theorem exists_of_ongoing {response : Ongoing} (h : ongoing history = some response) {i : ℕ}
    (hq : response.queues[i]? = some q) :
    ∃ before after action, history = before ++ (action, .sent q none) :: after ∧
      ongoing before = some { response with queues := response.queues.take i } := by
  induction history using List.reverseRecOn generalizing response with
  | nil => cases h
  | append_singleton history label ih =>
      rw [ongoing_concat] at h
      rcases Ongoing.after_cases h with hsame | hfresh | ⟨action, q', earlier, rfl, hopen, rfl⟩
      · obtain ⟨before, after, action, rfl, hbefore⟩ := ih hsame hq
        exact ⟨before, after ++ [label], action, by simp, hbefore⟩
      · rw [hfresh] at hq
        cases hq
      · rcases Nat.lt_or_ge i earlier.queues.length with hlt | hge
        · have hq' : earlier.queues[i]? = some q := by
            rw [← hq]
            exact (List.getElem?_append_left hlt).symm
          obtain ⟨before, after, action', rfl, hbefore⟩ := ih hopen hq'
          refine ⟨before, after ++ [(action, .sent q' none)], action', by simp, ?_⟩
          rw [hbefore]
          simp only [List.take_append_of_le_length hlt.le]
        · have hi : i = earlier.queues.length := by
            have hlt := (List.getElem?_eq_some_iff.mp hq).1
            simp only [List.length_append, List.length_singleton] at hlt
            omega
          obtain rfl : q' = q := by simpa [hi] using hq
          refine ⟨history, [], action, rfl, ?_⟩
          rw [hopen, hi]
          simp

/-- The queue of a line is the queue in front of it. -/
theorem qlist_of_sent {action : Action Json} {closed : Option Closed}
    (taken : (serverSystem cjson layout files conf).step s (action, .sent q closed) s') :
    q = s.pipe.qlist := by
  obtain ⟨-, hnext⟩ := taken
  cases action with
  | danmu msg block => cases (danmu_cases hnext).1
  | recv chunk mem => cases (recv_cases hnext).1
  | request read succeeds =>
      obtain ⟨-, file, buffer, -, hfile⟩ := request_cases hnext
      cases file with
      | none => cases hfile.1
      | some file =>
          obtain ⟨start, -, hresult⟩ := hfile
          cases start with
          | error closed' => cases hresult.1
          | ok r => cases hresult.1
  | line =>
      obtain ⟨r, result, entity, -, -, hresult⟩ := line_cases hnext
      cases result with
      | error closed' => exact (Observation.sent.inj hresult.1).1
      | ok r' => exact (Observation.sent.inj hresult.1).1

/-- The lines of `config/htdocs/index.html`. -/
def indexLines : List (List UInt8) :=
  [literal "<meta charset=\"UTF-8\">\n",
    literal "<HTML>\n",
    literal "    <TITLE>Bilibili-live-queue</TITLE>\n",
    literal "    <BODY>\n",
    literal "    <__queuelist_injection__>\n",
    literal "    </BODY>\n",
    literal "    <__refresh_injection__>\n",
    literal "</HTML>\n"]

/-- `config/htdocs/index.html`. -/
def indexHtml : List UInt8 := indexLines.flatten

/-- The file ends with a newline, so the last line is sent twice. -/
theorem starts_indexHtml : starts indexHtml = indexLines.map some ++ [none] := by
  decide +kernel

/-- What is sent for the file while the queue has some rows. -/
def indexBlocks (queueRows : List UInt8) : List (List UInt8) :=
  [literal "<meta charset=\"UTF-8\">\n",
    literal "<HTML>\n",
    literal "    <TITLE>Bilibili-live-queue</TITLE>\n",
    literal "    <BODY>\n",
    queueRows,
    literal "    </BODY>\n",
    refreshScript,
    literal "</HTML>\n",
    literal "</HTML>\n"]

theorem sentText_plain {colors : ColorConfig} {s : List UInt8} (q : BliveQlist)
    (hrefresh : ¬ refreshLabel <:+: s) (hqueue : ¬ queueLabel <:+: s) :
    sentText colors q s = s := by
  rw [sentText, if_neg hrefresh, if_neg hqueue]

theorem shown_indexHtml (colors : ColorConfig) {queues : List BliveQlist}
    (hall : queues.length = (starts indexHtml).length) :
    ∃ q, queues[4]? = some q ∧
      shown colors ((starts indexHtml).zip queues) = indexBlocks (rows colors (pairsOf q)) := by
  have hplain : ∀ i ∈ [0, 1, 2, 3, 5, 7], ∀ s ∈ indexLines[i]?,
      ¬ refreshLabel <:+: s ∧ ¬ queueLabel <:+: s := by decide +kernel
  have hsent : ∀ i ∈ [0, 1, 2, 3, 5, 7], ∀ s ∈ indexLines[i]?, ∀ q, sentText colors q s = s := by
    intro i hi s hs q
    obtain ⟨hrefresh, hqueue⟩ := hplain i hi s hs
    exact sentText_plain q hrefresh hqueue
  have hqueue : ∀ q, sentText colors q (literal "    <__queuelist_injection__>\n") =
      rows colors (pairsOf q) := by
    intro q
    rw [sentText, if_neg (by decide +kernel), if_pos (by decide +kernel)]
  have hrefresh : ∀ q, sentText colors q (literal "    <__refresh_injection__>\n") =
      refreshScript := by
    intro q
    rw [sentText, if_pos (by decide +kernel)]
  rw [starts_indexHtml] at hall ⊢
  match queues, hall with
  | [q₀, q₁, q₂, q₃, q₄, q₅, q₆, q₇, q₈], _ =>
      refine ⟨q₄, rfl, ?_⟩
      have h₀ := hsent 0 (by decide) _ rfl
      have h₁ := hsent 1 (by decide) _ rfl
      have h₂ := hsent 2 (by decide) _ rfl
      have h₃ := hsent 3 (by decide) _ rfl
      have h₅ := hsent 5 (by decide) _ rfl
      have h₇ := hsent 7 (by decide) _ rfl
      simp only [shown, indexLines, turnText, List.map_cons, List.map_nil, List.cons_append,
        List.nil_append, List.zip_cons_cons, List.zip_nil_right, List.foldl_cons, List.foldl_nil,
        Option.getD_some, Option.getD_none, h₀, h₁, h₂, h₃, hqueue, h₅, hrefresh, h₇,
        List.getLastD_cons, List.getLastD_nil, indexBlocks]

/-- What a viewer of the page sees: between the lines of the template the rows of those who
were in line behind some steps. They come from the records that had arrived, the first ones
of those that were sent for messages, and stand first come, first served. -/
structure ShowsLine (cjson : CJson Json) (layout : UserInfoLayout) (conf : BliveExtCfg Json)
    (before : List (Action Json × Observation)) (closed : Closed) : Prop where
  records : List.Forall₂ (RecordOf cjson conf) (messages before) (sentRecords layout before)
  arrived : received layout before <+: sentRecords layout before
  order : Announcement.FirstCome ((received layout before).map announce)
    (((received layout before).foldl recvLine []).map Prod.fst)
  written : closed.written = headerBlocks .home ++
    indexBlocks (rows conf.colorConfig ((received layout before).foldl recvLine []))

/-- Every complete response with the page of the program shows the line at one moment while
the response was open, whatever the threads do between its lines. -/
theorem home_page_of_run (hconf : NoPriority conf.queueUpConfig.toQueueUpConfig)
    (hhome : files .home = some indexHtml)
    (run : (serverSystem cjson layout files conf).Run (WholeReads layout)
      (history ++ [(.line, .sent q (some closed))]) s)
    {response : Ongoing} (hongoing : ongoing history = some response)
    (hfile : response.file = .home) (hcode : closed.code = .ok) :
    ∃ before after, history = before ++ after ∧
      ongoing before = some { response with queues := response.queues.take 4 } ∧
      ShowsLine cjson layout conf before closed := by
  obtain ⟨s₀, prior, -, -, hline⟩ := run.exists_of_concat
  obtain ⟨response', used, template, closed', hseen, hongoing', hopen, hresult⟩ :=
    (serving_of_run prior).line hline
  obtain ⟨rfl, rfl⟩ := Observation.sent.inj hseen
  obtain ⟨-, hended⟩ := hresult
  obtain rfl := Option.some.inj (hongoing.symm.trans hongoing')
  obtain ⟨rfl, rfl⟩ : HttpFile.home = used ∧ indexHtml = template := by
    rw [openFile, hfile, hhome] at hopen
    exact Prod.mk.inj (Option.some.inj hopen)
  -- the queue of the fifth turn, and the steps in front of it
  obtain ⟨q, hq, hshown⟩ := shown_indexHtml conf.colorConfig (hended.complete hcode)
  have hcount : response.queues.length = 8 := by
    have hall := hended.complete hcode
    rw [starts_indexHtml, List.length_append] at hall
    exact Nat.succ.inj hall
  have hq' : response.queues[4]? = some q := by
    rw [← hq]
    exact (List.getElem?_append_left (by rw [hcount]; decide)).symm
  obtain ⟨before, after, action, rfl, hbefore⟩ := exists_of_ongoing hongoing hq'
  obtain ⟨s₁, s₂, hfront, -, taken⟩ := prior.exists_step
  obtain ⟨harrived, htraversal⟩ := line_of_run hconf hfront
  rw [← qlist_of_sent taken] at htraversal
  refine ⟨before, _, rfl, hbefore, sentRecords_of_run hfront, harrived, firstCome_foldl _, ?_⟩
  rw [hended.written, hshown, pairsOf, htraversal]
  rfl

/-- The server with the page of the program. -/
def shippedFiles (_ : HttpFile) : Option (List UInt8) := some indexHtml

theorem received_append (before after : List (Action Json × Observation)) :
    received layout (before ++ after) = received layout before ++ received layout after := by
  simp only [received, List.filterMap_append]

theorem received_lines {before : List (Action Json × Observation)} {succeeds : ℕ → Bool} {n : ℕ}
    (h : before <+: ((.request (some homeRequest) succeeds, .answered .home none) ::
      List.replicate n (.line, .sent q none))) : received layout before = [] := by
  have hsilent : ∀ label ∈ before, pipeLabel label = none := by
    intro label hlabel
    rcases List.mem_cons.mp (h.subset hlabel) with rfl | hline
    · rfl
    · rw [List.eq_of_mem_replicate hline]
      rfl
  rw [received, List.filterMap_eq_nil_iff.mpr hsilent]
  rfl

/-- A user queues up, and then the page is asked for and sent. Every part of the run in which
the page is open has received his record. -/
theorem exists_home_page :
    ∃ (history : List (Action StatusNode × Observation)) (q : BliveQlist) (closed : Closed)
      (s : ServerState StatusNode) (response : Ongoing),
      (serverSystem statusJson packed shippedFiles hostConf).Run (WholeReads packed)
        (history ++ [(.line, .sent q (some closed))]) s ∧
      ongoing history = some response ∧ response.file = .home ∧ closed.code = .ok ∧
      ∀ before, before <+: history → (ongoing before).isSome →
        received packed before = [packed.record joinRecord] := by
  have hopen : openFile shippedFiles .home = some (.home, indexHtml) := rfl
  obtain ⟨history, s, htest, hnone, run, hwaits⟩ :=
    exists_joined (WholeReads packed) hopen (fun _ _ => trivial)
      (fun history => received packed history = [packed.record joinRecord]) (by decide +kernel)
  have hongoing := ongoing_concat history
    (.request (some homeRequest) fun _ => true, .answered .home none)
  obtain ⟨n, closed, s', hclosed⟩ := (serving_of_run run).exists_closed (fun _ _ => trivial) run
    hongoing hwaits.printable
  obtain ⟨s₀, prior, -, -, hline⟩ := hclosed.exists_of_concat
  obtain ⟨response, used, template, closed', hseen, hongoing', -, hresult⟩ :=
    (serving_of_run prior).line hline
  obtain ⟨-, rfl⟩ := Observation.sent.inj hseen
  rw [ongoing_lines hongoing] at hongoing'
  obtain rfl := Option.some.inj hongoing'
  refine ⟨_, _, closed, s', _, hclosed, ongoing_lines hongoing n _, rfl, hresult.2.code, ?_⟩
  intro before hprefix hsome
  rw [List.append_assoc, List.singleton_append] at hprefix
  rcases List.prefix_or_prefix_of_prefix hprefix (List.prefix_append history _) with hle | hge
  · rw [hnone before hle] at hsome
    cases hsome
  · obtain ⟨more, rfl⟩ := hge
    have hmore : received packed more = [] :=
      received_lines ((List.prefix_append_right_inj _).mp hprefix)
    rw [received_append, hmore, of_decide_eq_true htest]
    rfl

/-- What a viewer sees who asks for the page behind the record of one user. -/
theorem home_page_of_run_of_join :
    ∃ (history : List (Action StatusNode × Observation)) (q : BliveQlist) (closed : Closed)
      (s : ServerState StatusNode) (before after : List (Action StatusNode × Observation)),
      (serverSystem statusJson packed shippedFiles hostConf).Run (WholeReads packed)
        (history ++ [(.line, .sent q (some closed))]) s ∧
      history = before ++ after ∧ received packed before = [packed.record joinRecord] ∧
      closed = ⟨.ok, headerBlocks .home ++ indexBlocks joinRow⟩ := by
  obtain ⟨history, q, closed, s, response, run, hongoing, hfile, hcode, hreceived⟩ :=
    exists_home_page
  obtain ⟨before, after, heq, hbefore, hshows⟩ :=
    home_page_of_run ⟨rfl, rfl⟩ rfl run hongoing hfile hcode
  have hrecord : received packed before = [packed.record joinRecord] :=
    hreceived before ⟨after, heq.symm⟩ (by rw [hbefore]; rfl)
  have hrows : rows hostConf.colorConfig ([packed.record joinRecord].foldl recvLine []) =
      joinRow := by
    decide +kernel
  refine ⟨history, q, closed, s, before, after, run, heq, hrecord, ?_⟩
  rw [Closed.mk.injEq, hshows.written, hrecord, hrows]
  exact ⟨hcode, rfl⟩

end BliveQueue.Server
