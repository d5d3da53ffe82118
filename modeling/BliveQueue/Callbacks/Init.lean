/-
# `callbacks.c`: what is registered at the start

`callbacks_init` makes the socket and the queue, has the engine watch the socket, and
registers the two labels of the page with their callbacks. It looks at the results of the
first two calls only.
-/

import BliveQueue.Callbacks
import BliveQueue.Utils.FdPool
import BliveQueue.Utils.Httpd

namespace BliveQueue.Callbacks

open BliveQueue.Config BliveQueue.Math.CharBuffer BliveQueue.Utils BliveQueue.Utils.FdPool
open BliveQueue.Utils.Httpd BliveQueue.Utils.QList BliveQueue.Utils.Select

/-- The script that `refresh_html` appends. -/
def refreshScript : List UInt8 :=
  literal "<script>function aoto_refresh()\x7bwindow.location.reload();\x7d;" ++
    literal "setTimeout('aoto_refresh()',2000);</script>\r\n"

/-- `refresh_html`; `context` tells whether its context is there. `strcat` writes behind
the string in the buffer. -/
def refreshHtml (context : Bool) (dst : Buffer) : Option Buffer :=
  if context then some dst
  else do
    let written ← string dst
    store dst written.length (refreshScript ++ [0])

/-- What the callbacks of the page read of `blive_queue`. -/
structure QueueEntity where
  colorConfig : ColorConfig
  qlist : BliveQlist

/-- The label of `refresh_html`. -/
def refreshLabel : List UInt8 := literal "__refresh_injection__"

/-- The label of `liveroom_qlist_make_text`. -/
def queueLabel : List UInt8 := literal "__queuelist_injection__"

/-- `refresh_html`, registered without a context. -/
def injectRefresh (dst : Buffer) (queueEntity : QueueEntity) : Option (Buffer × QueueEntity) :=
  (refreshHtml false dst).map fun dst => (dst, queueEntity)

/-- `liveroom_qlist_make_text`, registered with the queue. -/
def injectQueue (dst : Buffer) (queueEntity : QueueEntity) : Option (Buffer × QueueEntity) :=
  (liveroomQlistMakeText queueEntity.colorConfig queueEntity.qlist dst).map fun dst =>
    (dst, queueEntity)

/-- The parts of `blive_queue` that `callbacks_init` sets or changes. -/
structure Registered where
  qlist : Option BliveQlist
  fdPoll : FdPoll
  httpd : HttpdHandler QueueEntity

/-- `callbacks_init`. The end of the socket that is read is `none` if `_socketpair` fails,
and `qlistMem` and `mem` are what the allocator answers to `qlist_create` and to
`select_engine_fd_add_forever`. -/
def callbacksInit (fdPoll : FdPoll) (httpd : HttpdHandler QueueEntity) (rdFd : Option Fd)
    (qlistMem : Bool) (mem : PoolMem) : Option (BliveErrno × Registered) :=
  match rdFd with
  | none => some (.unknown, ⟨none, fdPoll, httpd⟩)
  | some rdFd =>
    match qlistCreate qlistMem with
    | (.ok, qlist) => do
      let (_, fdPoll) ← selectEngineFdAddForever fdPoll rdFd mem
      let (_, httpd) := httpHtmlInjection httpd (some refreshLabel) (some injectRefresh)
      let (_, httpd) := httpHtmlInjection httpd (some queueLabel) (some injectQueue)
      some (.ok, ⟨qlist, fdPoll, httpd⟩)
    | (err, qlist) => some (err, ⟨qlist, fdPoll, httpd⟩)

end BliveQueue.Callbacks
