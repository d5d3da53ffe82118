/-
# The running program

Three threads meet at the queue. The thread of the room makes records of messages and sends
them, the thread of the engine reads them and changes the queue, and the main thread
answers one connection after the other: it sends the page line by line, and a line with a
label shows the queue at that moment. A step is what one thread does between two points at
which it meets the others. The source does not lock the queue; what two threads do inside
one and the same call on it is left out.
-/

import BliveQueue.Callbacks.Init
import BliveQueue.Callbacks.Pipe

namespace BliveQueue.Server

open BliveQueue.Callbacks BliveQueue.Config BliveQueue.Math BliveQueue.Math.CharBuffer
open BliveQueue.Utils BliveQueue.Utils.FdPool BliveQueue.Utils.Httpd BliveQueue.Utils.QList
open BliveQueue.Utils.Select

/-! ## A response, line by line -/

/-- `http_sendfile` in front of one of its calls of `do_html_inject`. -/
structure Response where
  fd : Connection
  data : Buffer
  fp : FileStream

/-- A response that has ended: the code of `http_sendfile`, and what was written. -/
structure Closed where
  code : BliveErrno
  written : List (List UInt8)
  deriving DecidableEq

/-- `http_sendfile` up to its first call of `do_html_inject`. -/
def startResponse (files : HttpFile → Option (List UInt8)) (fd : Connection) (file : HttpFile) :
    Option (Except Closed Response) := do
  let (file, contents) ← openFile files file
  let (success, fd) := writeAll (headerBlocks file) fd
  if success then do
    let (data, fp) ← fgets (List.replicate dataSize 0) ⟨contents, false⟩
    some (.ok ⟨fd, data, fp⟩)
  else some (.error ⟨.terminate, fd.written⟩)

/-- A turn of the loop of `http_sendfile`, or the line behind it. -/
def Response.next {σ : Type} (handler : HttpdHandler σ) (response : Response) (context : σ) :
    Option (Except Closed Response × σ) := do
  let (success, data, fd, context) ← sendLine handler response.data response.fd context
  if response.fp.eof then
    some (.error ⟨if success then .ok else .terminate, fd.written⟩, context)
  else if success then do
    let (data, fp) ← fgets data response.fp
    some (.ok ⟨fd, data, fp⟩, context)
  else some (.error ⟨.terminate, fd.written⟩, context)

/-! ## The threads -/

/-- The parts of `blive_queue` that the threads use, with the socket between two of them,
the request buffer of `http_perform` and the response that it is sending. -/
structure ServerState (Json : Type) where
  conf : BliveExtCfg Json
  pipe : PipeState
  httpd : HttpdHandler QueueEntity
  buffer : Buffer
  response : Option Response

/-- A step of one of the threads. -/
inductive Action (Json : Type)
  /-- `danmu_callback` on a message, with the bytes of the record that it sends. -/
  | danmu (msg : Json) (block : Option (List UInt8))
  /-- `liveroom_info_recv`, with what `fd_read` delivers and what `zero_alloc` answers. -/
  | recv (chunk : List UInt8) (mem : Option Addr)
  /-- A connection: what is read from it, and which writes on it will succeed. -/
  | request (read : Option (List UInt8)) (succeeds : ℕ → Bool)
  /-- The next line of the response. -/
  | line

/-- What a step of the main thread lets the world see. -/
inductive Observation
  | silent
  /-- The file that a request selects; its response may end in the header. -/
  | answered (file : HttpFile) (closed : Option Closed)
  /-- The queue at the moment of a line, which may be the last one. -/
  | sent (qlist : BliveQlist) (closed : Option Closed)

variable {Json : Type} (cjson : CJson Json) (layout : UserInfoLayout)
  (files : HttpFile → Option (List UInt8))

namespace ServerState

variable (s : ServerState Json)

/-- The switches that `liveroom_info_recv` reads. -/
def rules : QueueUpConfig := s.conf.queueUpConfig.toQueueUpConfig

/-- `danmu_callback`; it sends a record if there are bytes of one. -/
def danmu (msg : Json) (block : Option (List UInt8)) : Option (Observation × ServerState Json) :=
  (danmuCallback cjson s.conf msg).map fun r =>
    (.silent, { s with
      conf := r.2
      pipe := match block with
        | none => s.pipe
        | some block => s.pipe.send layout block })

/-- `liveroom_info_recv`. -/
def recv (chunk : List UInt8) (mem : Option Addr) : Option (Observation × ServerState Json) :=
  (liveroomInfoRecv s.rules s.pipe.qlist (layout.read chunk) mem).map fun q =>
    (.silent, { s with pipe := s.pipe.recv layout chunk q })

/-- `http_perform` takes the next connection, reads a request and starts to answer it. -/
def request (read : Option (List UInt8)) (succeeds : ℕ → Bool) :
    Option (Observation × ServerState Json) :=
  match s.response with
  | some _ => none
  | none => do
    let (file, buffer) ← httpPerformTurn s.buffer read
    match file with
    | none => some (.silent, { s with buffer := buffer })
    | some file => do
      match ← startResponse files ⟨[], succeeds⟩ file with
      | .error closed => some (.answered file (some closed), { s with buffer := buffer })
      | .ok response =>
        some (.answered file none, { s with buffer := buffer, response := some response })

/-- `http_sendfile` sends the next line. -/
def line : Option (Observation × ServerState Json) := do
  let response ← s.response
  let (response, queueEntity) ← response.next s.httpd ⟨s.conf.colorConfig, s.pipe.qlist⟩
  let pipe := { s.pipe with qlist := queueEntity.qlist }
  match response with
  | .error closed =>
    some (.sent s.pipe.qlist (some closed), { s with pipe := pipe, response := none })
  | .ok response =>
    some (.sent s.pipe.qlist none, { s with pipe := pipe, response := some response })

def next : Action Json → Option (Observation × ServerState Json)
  | .danmu msg block => s.danmu cjson layout msg block
  | .recv chunk mem => s.recv layout chunk mem
  | .request read succeeds => s.request files read succeeds
  | .line => s.line

/-- The bytes that are sent are those of the record, a read takes a piece of what is in the
socket, and `fd_read` keeps to the sizes it is given. -/
def Contract : Action Json → Prop
  | .danmu msg block =>
    (∀ r ∈ danmuCallback cjson s.conf msg, block.map layout.record = r.1) ∧
      ∀ bytes ∈ block, bytes.length = layout.size
  | .recv chunk mem =>
    chunk ≠ [] ∧ chunk.length ≤ layout.size ∧ chunk <+: s.pipe.stream ∧
      ∀ a ∈ mem, a ∉ s.pipe.qlist.live
  | .request read _ => ∀ bytes ∈ read, bytes.length ≤ bufferSize - 1
  | .line => True

end ServerState

/-- The threads of `main` behind `callbacks_init`, with a loaded configuration. -/
def serverSystem (conf : BliveExtCfg Json) :
    System (ServerState Json) (Action Json × Observation) where
  init s := ∃ fdPoll rdFd mem q registered,
    callbacksInit fdPoll httpCreate (some rdFd) true mem = some (.ok, registered) ∧
      registered.qlist = some q ∧
      s = ⟨conf, ⟨[], 0, [], [], q⟩, registered.httpd, clearedBuffer, none⟩
  step s label s' := s.Contract cjson layout label.1 ∧
    s.next cjson layout files label.1 = some (label.2, s')

end BliveQueue.Server
