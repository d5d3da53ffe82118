/-
# The responses of a run

The history of a run tells which response is open, which lines of it were sent, and how the
queue stood at each of them. Together with the template this determines the response:
between two lines the other threads may take any number of steps, and what they do to the
queue is seen by the lines behind it and by no line before.
-/

import BliveQueue.Callbacks.Colours
import BliveQueue.Server.Response

namespace BliveQueue.Server

open BliveQueue.Callbacks BliveQueue.Config BliveQueue.Httpd BliveQueue.Math
open BliveQueue.Math.CharBuffer BliveQueue.QList BliveQueue.Utils BliveQueue.Utils.FdPool
open BliveQueue.Utils.Hash BliveQueue.Utils.Httpd BliveQueue.Utils.QList
open BliveQueue.Utils.Select

variable {Json : Type} {cjson : CJson Json} {layout : UserInfoLayout}
  {files : HttpFile → Option (List UInt8)} {conf conf' : BliveExtCfg Json}
  {s s' : ServerState Json} {label : Action Json × Observation}
  {guard : ServerState Json → Action Json × Observation → Prop}
  {history : List (Action Json × Observation)} {q q' : BliveQlist} {closed : Closed}

/-! ## What a history tells of a response -/

/-- A response that has been started: its file, its connection and the queues of the lines
that were sent. -/
structure Ongoing where
  file : HttpFile
  succeeds : ℕ → Bool
  queues : List BliveQlist

/-- What a step makes of the response that is open. -/
def Ongoing.after (response : Option Ongoing) : Action Json × Observation → Option Ongoing
  | (.request _ succeeds, .answered file none) => some ⟨file, succeeds, []⟩
  | (_, .sent q none) => response.map fun r => { r with queues := r.queues ++ [q] }
  | (_, .sent _ (some _)) => none
  | _ => response

/-- The response that is open behind some steps. -/
def ongoing (history : List (Action Json × Observation)) : Option Ongoing :=
  history.foldl Ongoing.after none

theorem ongoing_concat (history : List (Action Json × Observation))
    (label : Action Json × Observation) :
    ongoing (history ++ [label]) = Ongoing.after (ongoing history) label := by
  rw [ongoing, List.foldl_append]
  rfl

/-! ## The steps -/

/-- `danmu_callback` changes nothing but the lists. -/
theorem danmuCallback_keeps {msg : Json} {sent : Option UserInfo}
    (h : danmuCallback cjson conf msg = some (sent, conf')) :
    conf' = { conf with filterConfig := conf'.filterConfig } := by
  simp only [danmuCallback, Option.bind_eq_bind, Option.bind_eq_some_iff] at h
  obtain ⟨danmuBody, -, info, -, h⟩ := h
  have hadmit : ∀ info, admitUser cjson conf info = some (sent, conf') →
      conf' = { conf with filterConfig := conf'.filterConfig } := by
    intro info h
    simp only [admitUser, Option.bind_eq_bind, Option.bind_eq_some_iff] at h
    obtain ⟨⟨trusted, whitelist⟩, -, h⟩ := h
    cases trusted with
    | true =>
        obtain ⟨-, rfl⟩ := Prod.mk.inj (Option.some.inj h)
        rfl
    | false =>
        obtain ⟨⟨banned, blacklist⟩, -, h⟩ := Option.bind_eq_some_iff.mp h
        obtain ⟨-, rfl⟩ := Prod.mk.inj (Option.some.inj h)
        rfl
  split at h
  · exact hadmit _ h
  · split at h
    · exact hadmit _ h
    · obtain ⟨-, rfl⟩ := Prod.mk.inj (Option.some.inj h)
      rfl

/-- What arrives from the socket is at most one call on the queue. -/
theorem exists_represents_of_recv {rules : QueueUpConfig} {read : Option UserInfo}
    {mem : Option Addr} (hq : ∃ seq, Represents q seq) (hfresh : ∀ a ∈ mem, a ∉ q.live)
    (h : liveroomInfoRecv rules q read mem = some q') : ∃ seq, Represents q' seq := by
  obtain ⟨seq, hrep⟩ := hq
  cases read with
  | none =>
      obtain rfl := Option.some.inj h
      exact ⟨seq, hrep⟩
  | some info =>
      cases hasked : recvCall rules info mem with
      | none => exact eq_of_recv hasked h ▸ ⟨seq, hrep⟩
      | some call =>
          obtain ⟨ret, hcall⟩ := exists_call_of_recv hasked h
          have hstep : qlistSystem.step q (call, ret) q' :=
            ⟨recvCall_mallocContract hfresh hasked, hcall⟩
          exact ⟨_, (hrep.step hstep).2⟩

/-- What `danmu_callback` does to the state. -/
theorem danmu_cases {msg : Json} {block : Option (List UInt8)} {seen : Observation}
    (h : s.danmu cjson layout msg block = some (seen, s')) :
    seen = .silent ∧ s'.conf.queueUpConfig = s.conf.queueUpConfig ∧
      s'.conf.colorConfig = s.conf.colorConfig ∧ s'.httpd = s.httpd ∧
      s'.response = s.response ∧ s'.pipe.qlist = s.pipe.qlist := by
  obtain ⟨⟨sent, conf'⟩, hcallback, heq⟩ := Option.map_eq_some_iff.mp h
  obtain ⟨rfl, rfl⟩ := Prod.mk.inj heq
  have hkeeps := danmuCallback_keeps hcallback
  refine ⟨rfl, danmuCallback_rules hcallback, ?_, rfl, rfl, ?_⟩
  · show conf'.colorConfig = _
    rw [hkeeps]
  · cases block with
    | none => rfl
    | some block => rfl

/-- What `liveroom_info_recv` does to the state. -/
theorem recv_cases {chunk : List UInt8} {mem : Option Addr} {seen : Observation}
    (h : s.recv layout chunk mem = some (seen, s')) :
    seen = .silent ∧ ∃ q, liveroomInfoRecv s.rules s.pipe.qlist (layout.read chunk) mem = some q ∧
      s' = { s with pipe := s.pipe.recv layout chunk q } := by
  obtain ⟨q, hrecv, heq⟩ := Option.map_eq_some_iff.mp h
  obtain ⟨rfl, rfl⟩ := Prod.mk.inj heq
  exact ⟨rfl, q, hrecv, rfl⟩

/-- A request is answered only if no response is open. It starts one, unless it selects no
file or the header cannot be written. -/
theorem request_cases {read : Option (List UInt8)} {succeeds : ℕ → Bool} {seen : Observation}
    (h : s.request files read succeeds = some (seen, s')) :
    s.response = none ∧ ∃ file buffer, httpPerformTurn s.buffer read = some (file, buffer) ∧
      match file with
      | none => seen = .silent ∧ s' = { s with buffer := buffer }
      | some file => ∃ start, startResponse files ⟨[], succeeds⟩ file = some start ∧
        match start with
        | .error closed => seen = .answered file (some closed) ∧ s' = { s with buffer := buffer }
        | .ok r => seen = .answered file none ∧
          s' = { s with buffer := buffer, response := some r } := by
  unfold ServerState.request at h
  cases hresponse : s.response with
  | some r =>
      rw [hresponse] at h
      cases h
  | none =>
      rw [hresponse] at h
      obtain ⟨⟨file, buffer⟩, hturn, h⟩ := Option.bind_eq_some_iff.mp h
      refine ⟨rfl, file, buffer, hturn, ?_⟩
      cases file with
      | none =>
          obtain ⟨rfl, rfl⟩ := Prod.mk.inj (Option.some.inj h)
          exact ⟨rfl, rfl⟩
      | some file =>
          obtain ⟨start, hstart, h⟩ := Option.bind_eq_some_iff.mp h
          refine ⟨start, hstart, ?_⟩
          cases start with
          | error closed =>
              obtain ⟨rfl, rfl⟩ := Prod.mk.inj (Option.some.inj h)
              exact ⟨rfl, rfl⟩
          | ok r =>
              obtain ⟨rfl, rfl⟩ := Prod.mk.inj (Option.some.inj h)
              exact ⟨rfl, rfl⟩

/-- A line is sent of the response that is open, with the queue as it is. -/
theorem line_cases {seen : Observation} (h : s.line = some (seen, s')) :
    ∃ r result entity, s.response = some r ∧
      r.next s.httpd ⟨s.conf.colorConfig, s.pipe.qlist⟩ = some (result, entity) ∧
      match result with
      | .error closed => seen = .sent s.pipe.qlist (some closed) ∧
        s' = { s with pipe := { s.pipe with qlist := entity.qlist }, response := none }
      | .ok r' => seen = .sent s.pipe.qlist none ∧
        s' = { s with pipe := { s.pipe with qlist := entity.qlist }, response := some r' } := by
  obtain ⟨r, hresponse, h⟩ := Option.bind_eq_some_iff.mp h
  obtain ⟨⟨result, entity⟩, hnext, h⟩ := Option.bind_eq_some_iff.mp h
  refine ⟨r, result, entity, hresponse, hnext, ?_⟩
  cases result with
  | error closed =>
      obtain ⟨rfl, rfl⟩ := Prod.mk.inj (Option.some.inj h)
      exact ⟨rfl, rfl⟩
  | ok r' =>
      obtain ⟨rfl, rfl⟩ := Prod.mk.inj (Option.some.inj h)
      exact ⟨rfl, rfl⟩

/-! ## The invariant -/

/-- The response in a state is the one that the history tells of. -/
def Answers (files : HttpFile → Option (List UInt8)) (colors : ColorConfig) :
    Option Ongoing → Option Response → Prop
  | none, none => True
  | some started, some r => ∃ used template,
      openFile files started.file = some (used, template) ∧
        Sending colors started.succeeds used template started.queues r
  | _, _ => False

/-- What holds behind every history: the configuration is the loaded one up to its lists,
the queue is one, and the response is where the history says. -/
structure Serving (files : HttpFile → Option (List UInt8)) (conf : BliveExtCfg Json)
    (history : List (Action Json × Observation)) (s : ServerState Json) : Prop where
  rules : s.conf.queueUpConfig = conf.queueUpConfig
  colors : s.conf.colorConfig = conf.colorConfig
  handler : s.httpd = pageHandler
  queue : ∃ seq, Represents s.pipe.qlist seq
  response : Answers files conf.colorConfig (ongoing history) s.response

theorem Serving.rules_eq (h : Serving files conf history s) :
    s.rules = conf.queueUpConfig.toQueueUpConfig := by
  rw [ServerState.rules, h.rules]

theorem Serving.of_init (h : (serverSystem cjson layout files conf).init s) :
    Serving files conf [] s := by
  obtain ⟨fdPoll, rdFd, mem, q, registered, hinit, hq, rfl⟩ := h
  obtain ⟨hqlist, hhandler⟩ := httpd_of_callbacksInit hinit
  obtain rfl := Option.some.inj (hqlist.symm.trans hq)
  exact ⟨rfl, rfl, hhandler, ⟨_, emptyQlist_represents⟩, trivial⟩

theorem Answers.exists_of_some {colors : ColorConfig} {started : Option Ongoing} {r : Response}
    (h : Answers files colors started (some r)) :
    ∃ response used template, started = some response ∧
      openFile files response.file = some (used, template) ∧
      Sending colors response.succeeds used template response.queues r := by
  cases started with
  | none => cases h
  | some response =>
      obtain ⟨used, template, hopen, hsending⟩ := h
      exact ⟨response, used, template, rfl, hopen, hsending⟩

/-- A line that is sent of the open response. -/
theorem Serving.line (h : Serving files conf history s) {seen : Observation}
    (hline : s.line = some (seen, s')) :
    ∃ response used template closed, seen = .sent s.pipe.qlist closed ∧
      ongoing history = some response ∧ openFile files response.file = some (used, template) ∧
      match closed with
      | none => ∃ r', s' = { s with response := some r' } ∧ Sending conf.colorConfig
          response.succeeds used template (response.queues ++ [s.pipe.qlist]) r'
      | some closed => s' = { s with response := none } ∧ Ended conf.colorConfig
          response.succeeds used template (response.queues ++ [s.pipe.qlist]) closed := by
  obtain ⟨seq, hrep⟩ := h.queue
  obtain ⟨r, result, entity, hresponse, hnext, hresult⟩ := line_cases hline
  have hanswers := h.response
  rw [hresponse] at hanswers
  obtain ⟨response, used, template, hongoing, hopen, hsending⟩ := hanswers.exists_of_some
  rw [h.handler, h.colors] at hnext
  obtain ⟨rfl, houtcome⟩ := hsending.next_of_some hrep hnext
  cases result with
  | error closed =>
      obtain ⟨rfl, rfl⟩ := hresult
      exact ⟨response, used, template, some closed, rfl, hongoing, hopen, rfl, houtcome⟩
  | ok r' =>
      obtain ⟨rfl, rfl⟩ := hresult
      exact ⟨response, used, template, none, rfl, hongoing, hopen, r', rfl, houtcome⟩

theorem Serving.step (h : Serving files conf history s)
    (taken : (serverSystem cjson layout files conf).step s label s') :
    Serving files conf (history ++ [label]) s' := by
  obtain ⟨action, seen⟩ := label
  obtain ⟨hcontract, hnext⟩ := taken
  cases action with
  | danmu msg block =>
      obtain ⟨rfl, hrules, hcolors, hhandler, hresponse, hqueue⟩ := danmu_cases hnext
      refine ⟨hrules.trans h.rules, hcolors.trans h.colors, hhandler.trans h.handler,
        hqueue ▸ h.queue, ?_⟩
      rw [ongoing_concat, hresponse]
      exact h.response
  | recv chunk mem =>
      obtain ⟨rfl, q, hrecv, rfl⟩ := recv_cases hnext
      have hfresh : ∀ a ∈ mem, a ∉ s.pipe.qlist.live := hcontract.2.2.2
      refine ⟨h.rules, h.colors, h.handler, exists_represents_of_recv h.queue hfresh hrecv, ?_⟩
      rw [ongoing_concat]
      exact h.response
  | request read succeeds =>
      obtain ⟨hresponse, file, buffer, -, hfile⟩ := request_cases hnext
      have hanswers := h.response
      cases file with
      | none =>
          obtain ⟨rfl, rfl⟩ := hfile
          refine ⟨h.rules, h.colors, h.handler, h.queue, ?_⟩
          rw [ongoing_concat]
          exact hanswers
      | some file =>
          obtain ⟨start, hstart, hresult⟩ := hfile
          cases start with
          | error closed =>
              obtain ⟨rfl, rfl⟩ := hresult
              refine ⟨h.rules, h.colors, h.handler, h.queue, ?_⟩
              rw [ongoing_concat]
              exact hanswers
          | ok r =>
              obtain ⟨rfl, rfl⟩ := hresult
              refine ⟨h.rules, h.colors, h.handler, h.queue, ?_⟩
              rw [ongoing_concat]
              exact sending_of_startResponse hstart
  | line =>
      obtain ⟨response, used, template, closed, rfl, hongoing, hopen, hresult⟩ := h.line hnext
      cases closed with
      | none =>
          obtain ⟨r', rfl, hsending⟩ := hresult
          refine ⟨h.rules, h.colors, h.handler, h.queue, ?_⟩
          rw [ongoing_concat, hongoing]
          exact ⟨used, template, hopen, hsending⟩
      | some closed =>
          obtain ⟨rfl, -⟩ := hresult
          refine ⟨h.rules, h.colors, h.handler, h.queue, ?_⟩
          rw [ongoing_concat]
          trivial

theorem serving_of_run (run : (serverSystem cjson layout files conf).Run guard history s) :
    Serving files conf history s := by
  apply System.Run.invariant (I := Serving files conf) ?_ ?_ run
  · intro s hinit
    exact .of_init hinit
  · intro history s label s' _ hserving _ taken
    exact hserving.step taken

/-! ## Progress -/

theorem Serving.exists_sending (h : Serving files conf history s) {r : Response}
    (hresponse : s.response = some r) :
    ∃ response used template, ongoing history = some response ∧
      openFile files response.file = some (used, template) ∧
      Sending conf.colorConfig response.succeeds used template response.queues r := by
  have hanswers := h.response
  rw [hresponse] at hanswers
  exact hanswers.exists_of_some

theorem exists_line {r : Response} {result : Except Closed Response} {entity : QueueEntity}
    (hresponse : s.response = some r)
    (hnext : r.next s.httpd ⟨s.conf.colorConfig, s.pipe.qlist⟩ = some (result, entity)) :
    ∃ seen s', s.line = some (seen, s') := by
  rw [ServerState.line, hresponse]
  simp only [Option.bind_eq_bind, Option.bind_some, hnext]
  cases result with
  | error closed => exact ⟨_, _, rfl⟩
  | ok r' => exact ⟨_, _, rfl⟩

/-- A queue that can be printed can be sent. -/
theorem Serving.exists_line_of_printable (h : Serving files conf history s) {r : Response}
    (hresponse : s.response = some r)
    (hprintable : Printable conf.colorConfig (pairsOf s.pipe.qlist)) :
    ∃ seen s', s.line = some (seen, s') := by
  obtain ⟨seq, hrep⟩ := h.queue
  obtain ⟨response, used, template, -, -, hsending⟩ := h.exists_sending hresponse
  obtain ⟨start, -, hholds⟩ := hsending.turn
  obtain ⟨result, hnext, -⟩ := (hsending.next hrep hholds).1 fun _ _ => hprintable
  rw [← h.handler, ← h.colors] at hnext
  exact exists_line hresponse hnext

/-- While no write fails, a request for a file that is there starts a response. -/
theorem exists_request {read : Option (List UInt8)} {succeeds : ℕ → Bool} {file used : HttpFile}
    {template : List UInt8} (hresponse : s.response = none)
    (hturn : (httpPerformTurn s.buffer read).map Prod.fst = some (some file))
    (hopen : openFile files file = some (used, template)) (hall : ∀ n, succeeds n = true) :
    ∃ s', s.request files read succeeds = some (.answered file none, s') ∧ s'.pipe = s.pipe := by
  obtain ⟨⟨selected, buffer⟩, hselect, rfl⟩ := Option.map_eq_some_iff.mp hturn
  obtain ⟨r, hstart⟩ := exists_startResponse hopen fun n _ => hall n
  rw [ServerState.request, hresponse]
  simp only [Option.bind_eq_bind, Option.bind_some, hselect, hstart]
  exact ⟨_, rfl, rfl⟩

/-- While the queue can be printed, the main thread alone brings an open response to its
end, with one step for each turn. -/
theorem Serving.exists_closed (h : Serving files conf history s)
    (hguard : ∀ s seen, guard s (.line, seen))
    (run : (serverSystem cjson layout files conf).Run guard history s) {response : Ongoing}
    (hongoing : ongoing history = some response)
    (hprintable : Printable conf.colorConfig (pairsOf s.pipe.qlist)) :
    ∃ n closed s', (serverSystem cjson layout files conf).Run guard
      (history ++ List.replicate n (.line, .sent s.pipe.qlist none) ++
        [(.line, .sent s.pipe.qlist (some closed))]) s' := by
  have hanswers := h.response
  rw [hongoing] at hanswers
  cases hresponse : s.response with
  | none =>
      rw [hresponse] at hanswers
      cases hanswers
  | some r =>
    rw [hresponse] at hanswers
    obtain ⟨used, template, hopen, hsending⟩ := hanswers
    -- the turns that are left become fewer
    induction hleft : (starts template).length - response.queues.length generalizing
      history s response r with
    | zero =>
        have hlt := hsending.length_lt
        omega
    | succ left ih =>
        obtain ⟨seen, s', hline⟩ := h.exists_line_of_printable hresponse hprintable
        obtain ⟨response', used', template', closed, rfl, hongoing', hopen', hresult⟩ :=
          h.line hline
        obtain rfl := Option.some.inj (hongoing.symm.trans hongoing')
        obtain ⟨rfl, rfl⟩ := Prod.mk.inj (Option.some.inj (hopen.symm.trans hopen'))
        have hrun := run.extend (hguard s _) ⟨trivial, hline⟩
        cases closed with
        | some closed =>
            refine ⟨0, closed, s', ?_⟩
            rw [List.replicate_zero, List.append_nil]
            exact hrun
        | none =>
            obtain ⟨r', rfl, hsending'⟩ := hresult
            have hongoing'' : ongoing (history ++ [(.line, .sent s.pipe.qlist none)]) =
                some { response with queues := response.queues ++ [s.pipe.qlist] } := by
              rw [ongoing_concat, hongoing]
              rfl
            have hfewer : (starts template).length -
                (response.queues ++ [s.pipe.qlist]).length = left := by
              rw [List.length_append, List.length_singleton]
              omega
            obtain ⟨n, closed, s', hclosed⟩ := ih (serving_of_run hrun) hrun hongoing''
              hprintable r' rfl hopen hsending' hfewer
            refine ⟨n + 1, closed, s', ?_⟩
            simpa only [List.replicate_succ, List.append_assoc, List.cons_append,
              List.nil_append] using hclosed

/-- The lines that are sent of an open response, and nothing else. -/
theorem ongoing_lines {response : Ongoing} (hongoing : ongoing history = some response)
    (n : ℕ) (q : BliveQlist) :
    ongoing (history ++ List.replicate n ((.line, .sent q none) : Action Json × Observation)) =
      some { response with queues := response.queues ++ List.replicate n q } := by
  induction n with
  | zero => simpa using hongoing
  | succ n ih =>
      rw [List.replicate_succ', ← List.append_assoc, ongoing_concat, ih, List.replicate_succ',
        ← List.append_assoc]
      rfl

/-! ## A request -/

/-- A viewer asks for the page. -/
def homeRequest : List UInt8 := literal "GET / HTTP/1.0\r\n"

/-- The server of a room behind `callbacks_init`. -/
def idleServer : ServerState StatusNode := ⟨hostConf, idlePipe, pageHandler, clearedBuffer, none⟩

theorem idleServer_init : (serverSystem statusJson packed files hostConf).init idleServer := by
  have hcode : ((HashT.hashCreate 100 (some fdPollHashFunc)).bind fun fdPoll =>
      (callbacksInit fdPoll httpCreate (some 4) true ⟨true, some 1, true⟩).map Prod.fst) =
        some .ok := by
    decide +kernel
  obtain ⟨fdPoll, -, hregister⟩ := Option.bind_eq_some_iff.mp hcode
  obtain ⟨⟨code, registered⟩, hregister, rfl⟩ := Option.map_eq_some_iff.mp hregister
  obtain ⟨hqlist, hhandler⟩ := httpd_of_callbacksInit hregister
  refine ⟨fdPoll, 4, _, emptyQlist, registered, hregister, hqlist, ?_⟩
  rw [hhandler]
  rfl

instance (s : ServerState Json) (action : Action Json) :
    Decidable (s.Contract cjson layout action) :=
  match action with
  | .danmu msg block => inferInstanceAs (Decidable
      ((∀ r ∈ danmuCallback cjson s.conf msg, block.map layout.record = r.1) ∧
        ∀ bytes ∈ block, bytes.length = layout.size))
  | .recv chunk mem => inferInstanceAs (Decidable
      (chunk ≠ [] ∧ chunk.length ≤ layout.size ∧ chunk <+: s.pipe.stream ∧
        ∀ a ∈ mem, a ∉ s.pipe.qlist.live))
  | .request read _ =>
    inferInstanceAs (Decidable (∀ bytes ∈ read, bytes.length ≤ bufferSize - 1))
  | .line => inferInstanceAs (Decidable True)

/-- A test passed by an execution is passed at the end of a run. -/
theorem exists_server_run (files : HttpFile → Option (List UInt8))
    (guard : ServerState StatusNode → Action StatusNode × Observation → Prop)
    [∀ s label, Decidable (guard s label)] (inputs : List (Action StatusNode))
    (test : List (Action StatusNode × Observation) × ServerState StatusNode → Bool)
    (h : (System.execute (System.callNext (ServerState.Contract statusJson packed)
      (ServerState.next statusJson packed files) guard) idleServer inputs).any test = true) :
    ∃ history s, (serverSystem statusJson packed files hostConf).Run guard history s ∧
      test (history, s) = true :=
  System.Run.exists_of_execute System.callNext_sound idleServer_init inputs test h

/-- The message with which the user 7 queues up. -/
def joinMsg : StatusNode := .msg 7 0 none

/-- The bytes of its record. -/
def joinRecord : List UInt8 :=
  List.replicate 8 0 ++ literal "属官一号" ++ List.replicate 20 0 ++ 7 :: List.replicate 55 0

/-- The row of the user. -/
def joinRow : List UInt8 :=
  literal "<p><font color=\"#000000\">属官一号</font></p>\r\n"

/-- The user 7 waits, and nobody else does. -/
structure Waits (q : BliveQlist) : Prop where
  rows_eq : rows hostConf.colorConfig (pairsOf q) = joinRow
  printable : Printable hostConf.colorConfig (pairsOf q)

/-- Behind these steps the user 7 waits, and no page was asked for. -/
def joined (r : List (Action StatusNode × Observation) × ServerState StatusNode) : Bool :=
  (httpPerformTurn r.2.buffer (some homeRequest)).map Prod.fst = some (some .home) ∧
    (∀ before ∈ r.1.inits, (ongoing before).isNone) ∧
    rows hostConf.colorConfig (pairsOf r.2.pipe.qlist) = joinRow ∧
    ∀ p ∈ pairsOf r.2.pipe.qlist,
      0 ∈ (colorStr hostConf.colorConfig p.2).toList ∧ 0 ∈ p.2.danmuSenderName.toList

/-- The user 7 has queued up, and the page is asked for. -/
theorem exists_joined {template : List UInt8}
    (guard : ServerState StatusNode → Action StatusNode × Observation → Prop)
    [∀ s label, Decidable (guard s label)]
    (hopen : openFile files .home = some (.home, template))
    (hguard : ∀ s seen, guard s (.request (some homeRequest) fun _ => true, seen))
    (test : List (Action StatusNode × Observation) → Bool)
    (h : (System.execute (System.callNext (ServerState.Contract statusJson packed)
      (ServerState.next statusJson packed files) guard) idleServer
        [.danmu joinMsg (some joinRecord), .recv joinRecord (some 1)]).any
          (fun r => joined r ∧ test r.1) = true) :
    ∃ history s, test history = true ∧
      (∀ before, before <+: history → ongoing before = none) ∧
      (serverSystem statusJson packed files hostConf).Run guard
        (history ++ [(.request (some homeRequest) fun _ => true, .answered .home none)]) s ∧
      Waits s.pipe.qlist := by
  obtain ⟨history, s, run, htests⟩ := exists_server_run files guard _ _ h
  obtain ⟨hjoined, htest⟩ := of_decide_eq_true htests
  obtain ⟨hturn, hnone, hrows, hstrings⟩ := of_decide_eq_true hjoined
  dsimp only at hturn hnone hrows hstrings htest
  have hbefore : ∀ before, before <+: history → ongoing before = none := by
    intro before hprefix
    exact Option.isNone_iff_eq_none.mp (hnone before ((List.mem_inits before history).mpr hprefix))
  have hresponse : s.response = none := by
    have hanswers := (serving_of_run run).response
    rw [hbefore history (List.prefix_refl history)] at hanswers
    cases hresponse : s.response with
    | none => rfl
    | some r =>
        rw [hresponse] at hanswers
        cases hanswers
  have hlength : ∀ bytes ∈ some homeRequest, bytes.length ≤ bufferSize - 1 := by decide +kernel
  obtain ⟨s', hrequest, hpipe⟩ := exists_request hresponse hturn hopen fun _ => rfl
  have taken : (serverSystem statusJson packed files hostConf).step s
      (.request (some homeRequest) fun _ => true, .answered .home none) s' := ⟨hlength, hrequest⟩
  refine ⟨history, s', htest, hbefore, run.extend (hguard _ _) taken, ?_⟩
  rw [hpipe]
  refine ⟨hrows, fun p hp => (hstrings p hp).1, fun p hp => (hstrings p hp).2, ?_⟩
  rw [hrows]
  decide +kernel

/-- The user 7 waits, and the next line of the page is the one with the label. -/
theorem exists_at_label :
    ∃ history s r, (serverSystem statusJson packed oneLabel hostConf).Trace history s ∧
      s.response = some r ∧ string r.data = some (literal "<__queuelist_injection__>\n") ∧
      ongoing history = some ⟨.home, fun _ => true, [s.pipe.qlist]⟩ ∧ Waits s.pipe.qlist := by
  have hopen : openFile oneLabel .home =
      some (.home, literal "<HTML>\n<__queuelist_injection__>\n</HTML>") := rfl
  obtain ⟨history, s, -, -, run, hwaits⟩ := exists_joined System.anyStep hopen
    (fun _ _ => trivial) (fun _ => true) (by decide +kernel)
  have hongoing := ongoing_concat history
    (.request (some homeRequest) fun _ => true, .answered .home none)
  have hserving := serving_of_run run
  have hanswers := hserving.response
  rw [hongoing] at hanswers
  cases hresponse : s.response with
  | none =>
      rw [hresponse] at hanswers
      cases hanswers
  | some r₀ =>
    obtain ⟨seen, s', hline⟩ := hserving.exists_line_of_printable hresponse hwaits.printable
    obtain ⟨response, used, template, closed, rfl, hongoing', hopen', hresult⟩ :=
      hserving.line hline
    obtain rfl := Option.some.inj (hongoing.symm.trans hongoing')
    obtain ⟨rfl, rfl⟩ := Prod.mk.inj (Option.some.inj (hopen.symm.trans hopen'))
    cases closed with
    | some closed =>
        -- two more lines are left
        have hall := hresult.2.complete (hresult.2.code.trans (if_pos rfl))
        rw [starts_oneLabel] at hall
        cases hall
    | none =>
        obtain ⟨r, rfl, hsending⟩ := hresult
        obtain ⟨start, hdrop, hholds⟩ := hsending.turn
        rw [starts_oneLabel] at hdrop
        obtain rfl := (List.cons.inj hdrop).1
        have taken : (serverSystem statusJson packed oneLabel hostConf).step s
            (.line, .sent s.pipe.qlist none) { s with response := some r } := ⟨trivial, hline⟩
        refine ⟨_, _, r, run.extend trivial taken, rfl, hholds.string_eq, ?_, hwaits⟩
        rw [ongoing_concat, hongoing]
        rfl

/-! ## Responses -/

/-- Behind every history the main thread can send the next line of an open response, unless
the line is to show the queue and the queue cannot be printed: a string in it does not end
inside its array, or its rows do not fit into the buffer. -/
theorem line_eq_none_iff (run : (serverSystem cjson layout files conf).Trace history s)
    {r : Response} (hresponse : s.response = some r) :
    s.line = none ↔ ∃ text, string r.data = some text ∧ ¬ refreshLabel <:+: text ∧
      queueLabel <:+: text ∧ ¬ Printable conf.colorConfig (pairsOf s.pipe.qlist) := by
  have hserving := serving_of_run run
  obtain ⟨seq, hrep⟩ := hserving.queue
  obtain ⟨response, used, template, -, -, hsending⟩ := hserving.exists_sending hresponse
  obtain ⟨start, -, hholds⟩ := hsending.turn
  have hturn := hsending.next hrep hholds
  generalize turnText (shown conf.colorConfig ((starts template).zip response.queues)) start =
    text at hholds hturn
  constructor
  · intro hstuck
    refine ⟨text, hholds.string_eq, ?_⟩
    have hunfit : ¬ Fits conf.colorConfig s.pipe.qlist text := by
      intro hfits
      obtain ⟨result, hnext, -⟩ := hturn.1 hfits
      rw [← hserving.handler, ← hserving.colors] at hnext
      obtain ⟨seen, s', hline⟩ := exists_line hresponse hnext
      rw [hstuck] at hline
      cases hline
    unfold Fits at hunfit
    rw [Classical.not_imp, Classical.not_imp] at hunfit
    exact hunfit
  · intro hlabel
    obtain ⟨text', htext, hrefresh, hqueue, hunprintable⟩ := hlabel
    obtain rfl := Option.some.inj (htext.symm.trans hholds.string_eq)
    have hnext := hturn.2 fun hfits => hunprintable (hfits hrefresh hqueue)
    rw [ServerState.line, hresponse, hserving.handler, hserving.colors]
    simp only [Option.bind_eq_bind, Option.bind_some, hnext]
    rfl

/-- A user waits, and the line that is to show him can be sent. -/
theorem line_eq_none_iff_after_request :
    ∃ (history : List (Action StatusNode × Observation)) (s : ServerState StatusNode)
      (r : Response), (serverSystem statusJson packed oneLabel hostConf).Trace history s ∧
        s.response = some r ∧ string r.data = some (literal "<__queuelist_injection__>\n") ∧
        rows hostConf.colorConfig (pairsOf s.pipe.qlist) = joinRow ∧ s.line ≠ none := by
  obtain ⟨history, s, r, run, hresponse, htext, -, hwaits⟩ := exists_at_label
  refine ⟨history, s, r, run, hresponse, htext, hwaits.rows_eq, ?_⟩
  intro hstuck
  obtain ⟨text, -, -, -, hunprintable⟩ := (line_eq_none_iff run hresponse).mp hstuck
  exact hunprintable hwaits.printable

end BliveQueue.Server
