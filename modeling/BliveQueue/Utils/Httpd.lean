/-
# `httpd.c`: the page with the queue

The server answers one connection after the other. A request is read into a buffer of
the main loop, `get_filename` takes it apart with `strtok`, which writes zeros into it,
and `http_sendfile` sends a template line by line, replacing every line with a
registered label by what the callback of the label prints. The buffers are modelled
with their size and every access is checked.

The callbacks act on whatever the rest of the program keeps; this is the parameter `σ`,
and the `context` of a unit is part of its callback. What `fd_write` answers is part of
the connection, and the files are what `fopen` finds.
-/

import Mathlib.Data.List.Infix
import BliveQueue.Math.CharBuffer
import BliveQueue.Math.System
import BliveQueue.Utils.Errno

namespace BliveQueue.Utils.Httpd

open BliveQueue.Math BliveQueue.Math.CharBuffer

/-- `MAX_INJECTION_NUM`. -/
def maxInjectionNum : ℕ := 20

/-- The size of `data` in `http_sendfile`. -/
def dataSize : ℕ := 20480

/-- The size of `buffer` in `http_perform`. -/
def bufferSize : ℕ := 1024

/-- `http_file`. -/
inductive HttpFile
  | home
  | notFound
  deriving DecidableEq

/-- An entry of `httpfile_map`. -/
structure HttpfileEntry where
  requestPath : String
  filepath : String
  contentType : String
  statusLine : String

/-- `httpfile_map`. -/
def httpfileMap : HttpFile → HttpfileEntry
  | .home => ⟨"/", "./config/htdocs/index.html", "text/html", "HTTP/1.0 200 OK\r\n"⟩
  | .notFound => ⟨"", "./config/htdocs/404.html", "text/html", "HTTP/1.0 404 Not Found\r\n"⟩

/-- `http_inject_unit`. -/
structure HttpInjectUnit (σ : Type) where
  htmlLabelName : List UInt8
  callback : Buffer → σ → Option (Buffer × σ)

/-- `httpd_handler` without its socket. -/
structure HttpdHandler (σ : Type) where
  injectionList : List (HttpInjectUnit σ)
  capacity : injectionList.length ≤ maxInjectionNum

variable {σ : Type}

/-- `http_create`, apart from the socket. -/
def httpCreate : HttpdHandler σ := ⟨[], Nat.zero_le _⟩

/-- `http_html_injection`; `none` is a `NULL` argument. -/
def httpHtmlInjection (handler : HttpdHandler σ) (injectWord : Option (List UInt8))
    (callback : Option (Buffer → σ → Option (Buffer × σ))) : BliveErrno × HttpdHandler σ :=
  match injectWord, callback with
  | some injectWord, some callback =>
    if h : handler.injectionList.length < maxInjectionNum then
      (.ok, ⟨handler.injectionList ++ [⟨injectWord, callback⟩], by
        rw [List.length_append]
        exact h⟩)
    else (.resource, handler)
  | _, _ => (.nullPtr, handler)

/-! ## The request -/

/-- The separator of `strtok(…, " ")`. -/
def space : UInt8 := 32

/-- `strtok(…, " ")` on the buffer from `start` on: the token, the buffer with a zero
behind the token, and the place where the next call goes on. -/
def strtok (buf : Buffer) (start : ℕ) : Option (Option (List UInt8) × Buffer × ℕ) := do
  let rest ← string (buf.drop start)
  let spaces := rest.takeWhile (· = space)
  let body := rest.dropWhile (· = space)
  let token := body.takeWhile (· ≠ space)
  let stop := start + spaces.length + token.length
  if token = [] then some (none, buf, stop)
  else if token.length < body.length then some (some token, buf.set stop 0, stop + 1)
  else some (some token, buf, stop)

/-- `get_filename`, with the buffer it leaves. The loop over `httpfile_map` looks at the
entries in front of `HTTP_NOTFOUND`. -/
def getFilename (buf : Buffer) : Option (Except BliveErrno HttpFile × Buffer) := do
  match ← strtok buf 0 with
  | (none, buf, _) => some (.error .invalid, buf)
  | (some _, buf, next) =>
    match ← strtok buf next with
    | (none, buf, _) => some (.error .notExsit, buf)
    | (some s, buf, _) =>
      if literal (httpfileMap .home).requestPath = s then some (.ok .home, buf)
      else some (.ok .notFound, buf)

/-- `buffer` when `http_perform` starts, and after each answer. -/
def clearedBuffer : Buffer := List.replicate bufferSize 0

/-- The turn of `http_perform` for one connection: what `fd_read` delivers, `none` for
an error, and the file that is sent, if the connection is answered. Only an answer
clears the buffer. -/
def httpPerformTurn (buffer : Buffer) (read : Option (List UInt8)) :
    Option (Option HttpFile × Buffer) :=
  match read with
  | none => some (none, buffer)
  | some bytes => do
    let buffer ← store buffer 0 bytes
    match ← getFilename buffer with
    | (.error _, buffer) => some (none, buffer)
    | (.ok file, _) => some (some file, clearedBuffer)

/-- `http_perform` on arbitrary connections. A label is what was read, at most
`sizeof(buffer) - 1` bytes, and the file that was sent. -/
def httpPerform : System Buffer (Option (List UInt8) × Option HttpFile) where
  init buffer := buffer = clearedBuffer
  step buffer label buffer' :=
    (∀ bytes ∈ label.1, bytes.length ≤ bufferSize - 1) ∧
      httpPerformTurn buffer label.1 = some (label.2, buffer')

/-! ## The response -/

/-- A connection: the blocks given to `fd_write`, and which of its calls succeed. -/
structure Connection where
  written : List (List UInt8)
  succeeds : ℕ → Bool

/-- The connection after some more blocks have been written. -/
def Connection.after (fd : Connection) (blocks : List (List UInt8)) : Connection :=
  { fd with written := fd.written ++ blocks }

/-- `fd_write`, and whether its answer is not negative. -/
def fdWrite (fd : Connection) (bytes : List UInt8) : Bool × Connection :=
  (fd.succeeds fd.written.length, fd.after [bytes])

/-- What is left of an open file, and its end-of-file indicator. -/
structure FileStream where
  rest : List UInt8
  eof : Bool

/-- `'\n'`. -/
def newline : UInt8 := 10

/-- The bytes `fgets` takes: at most `n`, up to a newline. The indicator is set when the
end of the file is met on the way. -/
def takeLine : ℕ → List UInt8 → List UInt8 × FileStream
  | 0, rest => ([], ⟨rest, false⟩)
  | _ + 1, [] => ([], ⟨[], true⟩)
  | n + 1, c :: rest =>
    if c = newline then ([c], ⟨rest, false⟩)
    else (c :: (takeLine n rest).1, (takeLine n rest).2)

/-- `fgets(data, sizeof(data), fp)`. At the end of the file the buffer stays as it is. -/
def fgets (data : Buffer) (fp : FileStream) : Option (Buffer × FileStream) :=
  match takeLine (data.length - 1) fp.rest with
  | ([], fp) => some (data, fp)
  | (line, fp) => (store data 0 (line ++ [0])).map fun data => (data, fp)

/-- The loop of `do_html_inject`. -/
def injectLoop : List (HttpInjectUnit σ) → Buffer → σ → Option (Buffer × σ)
  | [], dst, context => some (dst, context)
  | unit :: units, dst, context => do
    let s ← string dst
    if unit.htmlLabelName <:+: s then do
      let dst ← store dst 0 (List.replicate s.length 0)
      let (dst, context) ← unit.callback dst context
      injectLoop units dst context
    else injectLoop units dst context

/-- `do_html_inject`. -/
def doHtmlInject (dst : Buffer) (handler : HttpdHandler σ) (context : σ) : Option (Buffer × σ) :=
  if handler.injectionList.length = 0 then some (dst, context)
  else injectLoop handler.injectionList dst context

/-- One line of the response: inject, and write the string in the buffer. -/
def sendLine (handler : HttpdHandler σ) (data : Buffer) (fd : Connection) (context : σ) :
    Option (Bool × Buffer × Connection × σ) := do
  let (data, context) ← doHtmlInject data handler context
  let s ← string data
  let (success, fd) := fdWrite fd s
  some (success, data, fd, context)

/-- `while (!feof(fp))` and the line behind it. Every turn reads at least one byte, so
`fuel` stands for the bytes that are left. -/
def bodyLoop (handler : HttpdHandler σ) :
    ℕ → Buffer → FileStream → Connection → σ → Option (BliveErrno × Connection × σ)
  | fuel, data, fp, fd, context =>
    if fp.eof then do
      let (success, _, fd, context) ← sendLine handler data fd context
      some (if success then .ok else .terminate, fd, context)
    else
      match fuel with
      | 0 => none
      | fuel + 1 => do
        let (success, data, fd, context) ← sendLine handler data fd context
        if success then do
          let (data, fp) ← fgets data fp
          bodyLoop handler fuel data fp fd context
        else some (.terminate, fd, context)

/-- Write some blocks until one fails. -/
def writeAll : List (List UInt8) → Connection → Bool × Connection
  | [], fd => (true, fd)
  | block :: blocks, fd =>
    if (fdWrite fd block).1 then writeAll blocks (fdWrite fd block).2
    else (false, (fdWrite fd block).2)

/-- The blocks of the header. -/
def headerBlocks (file : HttpFile) : List (List UInt8) :=
  [literal (httpfileMap file).statusLine,
    literal "Server: zqn httpd/0.1.0\r\n",
    (literal "Content-Type: " ++ literal (httpfileMap file).contentType ++ literal "\r\n").take 254,
    literal "\r\n"]

/-- The file that is sent and its contents: the page of an absent file is the one of
`HTTP_NOTFOUND`. If that is absent too, the server reads from a `NULL` stream. -/
def openFile (files : HttpFile → Option (List UInt8)) (file : HttpFile) :
    Option (HttpFile × List UInt8) :=
  match files file with
  | some contents => some (file, contents)
  | none => (files .notFound).map fun contents => (.notFound, contents)

/-- `http_sendfile`. -/
def httpSendfile (files : HttpFile → Option (List UInt8)) (fd : Connection) (file : HttpFile)
    (handler : HttpdHandler σ) (context : σ) : Option (BliveErrno × Connection × σ) := do
  let (file, contents) ← openFile files file
  let (success, fd) := writeAll (headerBlocks file) fd
  if success then do
    let (data, fp) ← fgets (List.replicate dataSize 0) ⟨contents, false⟩
    bodyLoop handler contents.length data fp fd context
  else some (.terminate, fd, context)

end BliveQueue.Utils.Httpd
