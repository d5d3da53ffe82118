/-
# `qlist.c`: the waiting queue

The queue is an intrusive circular list. Its memory is modelled field by field:
`node` holds the two pointers of `list_head` and of every embedded `list_node`,
`unit` the anchorage and data of every unit, and `live` the units that have been
allocated and not freed. Every access goes through a check of `live`, so a
computation that touches a freed unit, or reads the sentinel as if it were a
unit, has no result. The mutex makes each entry point one atomic step, so it
does not appear. `zero_alloc` is an argument of the calls that allocate: `none`
is a failed allocation and `some a` the address of the new block.
-/

import Mathlib.Data.Finset.Card
import Mathlib.Logic.Function.Basic
import BliveQueue.Math.System
import BliveQueue.Utils.Errno

namespace BliveQueue.Utils

/-- `DEFAULT_NAME_LEN` of `config.h`. -/
abbrev defaultNameLen : ℕ := 32

/-- `blive_fleet_level`, stored as the unsigned integer that carries the enum. -/
abbrev BliveFleetLevel := UInt32

namespace BliveFleetLevel

def none : BliveFleetLevel := 0
def governor : BliveFleetLevel := 1
def supervisor : BliveFleetLevel := 2
def captain : BliveFleetLevel := 3
def max : BliveFleetLevel := 4

end BliveFleetLevel

/-- `qlist_unit_data`. -/
structure QlistUnitData where
  weight : UInt32
  danmuSenderName : Vector UInt8 defaultNameLen
  danmuSenderUid : UInt32
  fleetLv : BliveFleetLevel
  cancelQueueUp : Bool
  isHostoomManager : Bool
  fansPriceIsCurLiveroom : Bool
  fansPriceLevel : UInt32
  fansPriceName : Vector UInt8 defaultNameLen
  deriving DecidableEq

/-- The all-zero record left by `zero_alloc` and by `= {0}`. -/
def QlistUnitData.zero : QlistUnitData where
  weight := 0
  danmuSenderName := Vector.replicate _ 0
  danmuSenderUid := 0
  fleetLv := 0
  cancelQueueUp := false
  isHostoomManager := false
  fansPriceIsCurLiveroom := false
  fansPriceLevel := 0
  fansPriceName := Vector.replicate _ 0

namespace QList

/-- The address of an allocated unit. -/
abbrev Addr := ℕ

/-- A `list*`: the sentinel inside the queue header or the node inside a unit. -/
inductive ListPtr
  | listHead
  | listNode (unit : Addr)
  deriving DecidableEq

/-- `list` of `utils.h`. -/
structure ListNode where
  prev : ListPtr
  next : ListPtr
  deriving DecidableEq

/-- `qlist_unit` without its embedded node, which lives in `BliveQlist.node`. -/
structure QlistUnit where
  anchorage : UInt32
  data : QlistUnitData
  deriving DecidableEq

/-- `blive_qlist` together with the memory it reaches. -/
structure BliveQlist where
  elemNum : UInt32
  tmpUnit : Option Addr
  node : ListPtr → ListNode
  unit : Addr → QlistUnit
  live : Finset Addr

namespace BliveQlist

variable (q : BliveQlist)

/-- The `next` pointers of the whole memory. -/
def next (p : ListPtr) : ListPtr := (q.node p).next

/-- The `prev` pointers of the whole memory. -/
def prev (p : ListPtr) : ListPtr := (q.node p).prev

/-- The block a `list*` points into is still allocated. -/
def Allocated : ListPtr → Prop
  | .listHead => True
  | .listNode a => a ∈ q.live

instance (p : ListPtr) : Decidable (q.Allocated p) := by
  cases p <;> unfold Allocated <;> infer_instance

def setPrev (p v : ListPtr) : BliveQlist :=
  { q with node := Function.update q.node p { q.node p with prev := v } }

def setNext (p v : ListPtr) : BliveQlist :=
  { q with node := Function.update q.node p { q.node p with next := v } }

/-! ## Checked memory accesses -/

def readNode (p : ListPtr) : Option ListNode :=
  if q.Allocated p then some (q.node p) else none

def writePrev (p v : ListPtr) : Option BliveQlist :=
  if q.Allocated p then some (q.setPrev p v) else none

def writeNext (p v : ListPtr) : Option BliveQlist :=
  if q.Allocated p then some (q.setNext p v) else none

def readUnit (a : Addr) : Option QlistUnit :=
  if a ∈ q.live then some (q.unit a) else none

end BliveQlist

/-- `list_entry`: the unit around a node. The sentinel is not inside a unit. -/
def listEntry : ListPtr → Option Addr
  | .listHead => none
  | .listNode a => some a

open BliveQlist

/-! ## The list macros of `utils.h` -/

/-- `LIST_APPEND_REAR(dst, src)`. -/
def listAppendRear (q : BliveQlist) (dst src : ListPtr) : Option BliveQlist := do
  let d ← q.readNode dst
  let q ← q.writeNext src d.next
  let q ← q.writePrev src dst
  let d ← q.readNode dst
  let q ← q.writePrev d.next src
  q.writeNext dst src

/-- `LIST_APPEND_AHEAD(dst, src)`. -/
def listAppendAhead (q : BliveQlist) (dst src : ListPtr) : Option BliveQlist := do
  let d ← q.readNode dst
  let q ← q.writePrev src d.prev
  let q ← q.writeNext src dst
  let d ← q.readNode dst
  let q ← q.writeNext d.prev src
  q.writePrev dst src

/-- `LIST_SUBTRACT(dst)`. -/
def listSubtract (q : BliveQlist) (dst : ListPtr) : Option BliveQlist := do
  let d ← q.readNode dst
  let q ← q.writeNext d.prev d.next
  let d ← q.readNode dst
  q.writePrev d.next d.prev

/-! ## The static functions -/

/-- The counted walk of `qlist_search`: `count` further units, backwards from
`listPtr`. The hit is remembered in `tmp_unit`. -/
def searchLoop (q : BliveQlist) (anchorage : UInt32) :
    ℕ → ListPtr → Option (Option Addr × BliveQlist)
  | 0, _ => some (none, q)
  | count + 1, listPtr => do
    let node ← q.readNode listPtr
    let final ← listEntry node.prev
    let u ← q.readUnit final
    if anchorage = u.anchorage then
      some (some final, { q with tmpUnit := some final })
    else
      searchLoop q anchorage count node.prev

/-- `qlist_search`. The loop counter is compared as an unsigned integer, so the
loop makes `elem_num` steps. -/
def qlistSearch (q : BliveQlist) (anchorage : UInt32) :
    Option (Option Addr × BliveQlist) :=
  if q.elemNum = 0 then some (none, q)
  else
    match q.tmpUnit with
    | none => searchLoop q anchorage q.elemNum.toNat .listHead
    | some tmp => do
      let u ← q.readUnit tmp
      if u.anchorage = anchorage then some (some tmp, q)
      else searchLoop q anchorage q.elemNum.toNat .listHead

/-- The backward scan of `qlist_append`, from `searchUnit` down to `endUnit`: the
first unit whose weight is large enough, or `none` once `endUnit` is reached.
The bound `fuel` stands for the units the scan can still meet; running out of it
means that the loop of the source does not end. -/
def appendScan (q : BliveQlist) (appendUnit endUnit : Addr) :
    ℕ → Addr → Option (Option Addr)
  | fuel, searchUnit =>
    if searchUnit = endUnit then some none
    else
      match fuel with
      | 0 => none
      | fuel + 1 => do
        let s ← q.readUnit searchUnit
        let u ← q.readUnit appendUnit
        if s.data.weight ≥ u.data.weight then some (some searchUnit)
        else do
          let node ← q.readNode (.listNode searchUnit)
          let prevUnit ← listEntry node.prev
          appendScan q appendUnit endUnit fuel prevUnit

/-- The range `[begin_unit, end_unit)` that `qlist_append` scans. -/
def appendWindow (q : BliveQlist) (appendUnit frontUnit tailUnit : Addr) :
    Option (Addr × Addr) :=
  match q.tmpUnit with
  | none => some (tailUnit, frontUnit)
  | some tmp => do
    let t ← q.readUnit tmp
    let u ← q.readUnit appendUnit
    if t.data.weight > u.data.weight then some (tailUnit, tmp)
    else if t.data.weight < u.data.weight then some (tmp, frontUnit)
    else some (tailUnit, frontUnit)

/-- The end of `qlist_append`: scan the window, then try directly behind its end. -/
def appendInWindow (q : BliveQlist) (appendUnit beginUnit endUnit : Addr) :
    Option (BliveErrno × BliveQlist) := do
  match ← appendScan q appendUnit endUnit q.live.card beginUnit with
  | some searchUnit => do
    let q ← listAppendRear q (.listNode searchUnit) (.listNode appendUnit)
    some (.ok, q)
  | none => do
    let e ← q.readUnit endUnit
    let u ← q.readUnit appendUnit
    if e.data.weight > u.data.weight then do
      let q ← listAppendRear q (.listNode endUnit) (.listNode appendUnit)
      some (.ok, q)
    else some (.unknown, q)

/-- `qlist_append`. -/
def qlistAppend (q : BliveQlist) (appendUnit : Addr) :
    Option (BliveErrno × BliveQlist) :=
  if q.elemNum = 0 then do
    let q ← listAppendRear q .listHead (.listNode appendUnit)
    some (.ok, q)
  else do
    let head ← q.readNode .listHead
    let tailUnit ← listEntry head.prev
    let frontUnit ← listEntry head.next
    let u ← q.readUnit appendUnit
    let front ← q.readUnit frontUnit
    if front.data.weight < u.data.weight then do
      let q ← listAppendAhead q (.listNode frontUnit) (.listNode appendUnit)
      some (.ok, q)
    else do
      let tail ← q.readUnit tailUnit
      if tail.data.weight ≥ u.data.weight then do
        let q ← listAppendRear q (.listNode tailUnit) (.listNode appendUnit)
        some (.ok, q)
      else do
        let (beginUnit, endUnit) ← appendWindow q appendUnit frontUnit tailUnit
        appendInWindow q appendUnit beginUnit endUnit

/-! ## The entry points -/

/-- The header `qlist_create` builds in the block it allocates. -/
def emptyQlist : BliveQlist where
  elemNum := 0
  tmpUnit := none
  node _ := ⟨.listHead, .listHead⟩
  unit _ := ⟨0, QlistUnitData.zero⟩
  live := ∅

/-- `qlist_create`; `mem` tells whether the allocation of the header succeeds. -/
def qlistCreate (mem : Bool) : BliveErrno × Option BliveQlist :=
  if mem then (.ok, some emptyQlist) else (.outOfMem, none)

/-- The loop of `qlist_destroy`, backwards from `listPtr`: the link of a unit is read before
`free` gets it, and `free` needs an allocated unit. -/
def destroyLoop : ℕ → ListPtr → BliveQlist → Option BliveQlist
  | 0, _, q => some q
  | count + 1, listPtr, q => do
    let foreachUnit ← listEntry listPtr
    let node ← q.readNode listPtr
    destroyLoop count node.prev { q with live := q.live.erase foreachUnit }

/-- `qlist_destroy`: its code, and the units that are still allocated behind it. -/
def qlistDestroy (qlist : Option BliveQlist) : Option (BliveErrno × Finset Addr) :=
  match qlist with
  | none => some (.nullPtr, ∅)
  | some q => do
    let head ← q.readNode .listHead
    let q ← destroyLoop q.elemNum.toNat head.prev q
    some (.ok, q.live)

/-- `qlist_anchorage_existence`. -/
def qlistAnchorageExistence (q : BliveQlist) (anchorage : UInt32) :
    Option (Bool × BliveQlist) := do
  let (unit, q) ← qlistSearch q anchorage
  some (unit.isSome, q)

/-- The unit `qlist_append_update` prepares in a fresh block at `a`. -/
def newUnit (q : BliveQlist) (a : Addr) (anchorage : UInt32) (data : QlistUnitData) :
    BliveQlist :=
  { q with
    node := Function.update q.node (.listNode a) ⟨.listNode a, .listNode a⟩
    unit := Function.update q.unit a ⟨anchorage, data⟩
    live := insert a q.live }

/-- `qlist_append_update`. A unit that could not be linked stays allocated. -/
def qlistAppendUpdate (q : BliveQlist) (anchorage : UInt32) (data : QlistUnitData)
    (mem : Option Addr) : Option (BliveErrno × BliveQlist) := do
  let (unit, q) ← qlistSearch q anchorage
  match unit with
  | some unit => do
    let u ← q.readUnit unit
    some (.ok, { q with unit := Function.update q.unit unit { u with data := data } })
  | none =>
    match mem with
    | none => some (.outOfMem, q)
    | some a => do
      let (retval, q) ← qlistAppend (newUnit q a anchorage data) a
      if retval = .ok then some (retval, { q with elemNum := q.elemNum + 1 })
      else some (retval, q)

/-- `qlist_subtract`. -/
def qlistSubtract (q : BliveQlist) (anchorage : UInt32) :
    Option (BliveErrno × BliveQlist) := do
  let (unit, q) ← qlistSearch q anchorage
  match unit with
  | none => some (.resource, q)
  | some unit => do
    let q ← listSubtract q (.listNode unit)
    some (.ok,
      { q with
        tmpUnit := if q.tmpUnit = some unit then none else q.tmpUnit
        elemNum := q.elemNum - 1
        live := q.live.erase unit })

/-- The loop of `qlist_foreach`, with the context threaded through the callback. -/
def foreachLoop {γ : Type} (q : BliveQlist) (invertSeq : Bool)
    (cb : UInt32 → QlistUnitData → γ → Bool × γ) :
    ℕ → ListPtr → γ → Option (BliveErrno × γ)
  | 0, _, context => some (.ok, context)
  | count + 1, listPtr, context => do
    let node ← q.readNode listPtr
    let listPtr := if invertSeq then node.prev else node.next
    let eachUnit ← listEntry listPtr
    let u ← q.readUnit eachUnit
    match cb u.anchorage u.data context with
    | (false, context) => some (.terminate, context)
    | (true, context) => foreachLoop q invertSeq cb count listPtr context

/-- `qlist_foreach` on a queue and a callback that are not `NULL`. -/
def qlistForeach {γ : Type} (q : BliveQlist) (invertSeq : Bool)
    (cb : UInt32 → QlistUnitData → γ → Bool × γ) (context : γ) :
    Option (BliveErrno × γ) :=
  if q.elemNum = 0 then some (.resource, context)
  else foreachLoop q invertSeq cb q.elemNum.toNat .listHead context

/-! ## Observations -/

/-- The pairs `qlist_foreach` shows to a callback that always continues. -/
def traversal (q : BliveQlist) (invertSeq : Bool) :
    Option (List (UInt32 × QlistUnitData)) :=
  (qlistForeach q invertSeq (fun a d seen => (true, seen ++ [(a, d)])) []).map Prod.snd

/-- Follow `next` from `p` until `list_head` comes round again. -/
def cycleFrom (q : BliveQlist) : ℕ → ListPtr → Option (List Addr)
  | 0, _ => none
  | fuel + 1, p =>
    match q.next p with
    | .listHead => some []
    | .listNode a =>
      if a ∈ q.live then (cycleFrom q fuel (.listNode a)).map (a :: ·) else none

/-- The units on the cycle through `list_head`, front first. -/
def cycle (q : BliveQlist) : Option (List Addr) :=
  cycleFrom q (q.live.card + 1) .listHead

/-- The pairs stored on the cycle, front first. -/
def ring (q : BliveQlist) : Option (List (UInt32 × QlistUnitData)) :=
  (cycle q).map (List.map fun a => ((q.unit a).anchorage, (q.unit a).data))

/-! ## Runs -/

/-- The calls a client makes; `mem` is what `zero_alloc` answers if it is asked. -/
inductive QlistCall
  | appendUpdate (anchorage : UInt32) (data : QlistUnitData) (mem : Option Addr)
  | subtract (anchorage : UInt32)
  | anchorageExistence (anchorage : UInt32)
  deriving DecidableEq

/-- What a call returns. -/
inductive QlistRet
  | errno (e : BliveErrno)
  | bool (b : Bool)
  deriving DecidableEq

/-- `malloc` never hands out a block that is still allocated. -/
def QlistCall.MallocContract (q : BliveQlist) : QlistCall → Prop
  | .appendUpdate _ _ (some a) => a ∉ q.live
  | _ => True

instance (q : BliveQlist) (c : QlistCall) : Decidable (c.MallocContract q) := by
  unfold QlistCall.MallocContract
  split <;> infer_instance

/-- The execution of one call. -/
def call (q : BliveQlist) : QlistCall → Option (QlistRet × BliveQlist)
  | .appendUpdate anchorage data mem =>
    (qlistAppendUpdate q anchorage data mem).map fun r => (.errno r.1, r.2)
  | .subtract anchorage => (qlistSubtract q anchorage).map fun r => (.errno r.1, r.2)
  | .anchorageExistence anchorage =>
    (qlistAnchorageExistence q anchorage).map fun r => (.bool r.1, r.2)

/-- The queue under arbitrary sequences of calls, from `qlist_create` on. -/
def qlistSystem : Math.System BliveQlist (QlistCall × QlistRet) where
  init q := qlistCreate true = (.ok, some q)
  step q label q' := label.1.MallocContract q ∧ call q label.1 = some (label.2, q')

end QList

end BliveQueue.Utils
