/-
# `hash.c`: the hash table

A bucket array of singly linked entries and a free list of removed entries that the
next insertion reuses. Entries are never freed while the table lives. The array keeps
its number of slots, and every access checks the slot or that the entry is allocated,
so a computation that leaves the array or follows a null pointer has no result.
`find_entry` answers the address of a link: a bucket, or the `next` field of an entry.
-/

import Mathlib.Algebra.Group.Nat.Defs
import Mathlib.Logic.Function.Basic
import Mathlib.Data.List.Basic
import BliveQueue.Math.System
import BliveQueue.Utils.Errno

namespace BliveQueue.Utils.Hash

variable {β : Type}

/-- The address of a `hash_entry_t`. -/
abbrev EntryPtr := ℕ

/-- A C string: its bytes before the terminating zero. -/
abbrev CString := List UInt8

/-- `hash_entry_t`. The hash is compared and masked as a 32-bit word. -/
structure HashEntry (β : Type) where
  hash : UInt32
  key : CString
  value : Option β
  next : Option EntryPtr

/-- `hash_t`; `slots` is the number of pointers in the block of `array` and `entry` holds
the allocated entries. -/
structure HashT (β : Type) where
  array : ℕ → Option EntryPtr
  slots : ℕ
  count : UInt32
  max : UInt32
  hashFunc : CString → UInt32
  free : Option EntryPtr
  entry : EntryPtr → Option (HashEntry β)

/-- `INITIAL_MAX`. -/
def initialMax : UInt32 := 15

/-- `HASH_DEFAULT_MULTIPLER`. -/
def hashDefaultMultipler : UInt32 := 33

/-- A `char` as the signed number that integer promotion makes of it. -/
def charToUInt32 (c : UInt8) : UInt32 :=
  if c < 128 then c.toUInt32 else c.toUInt32 - 256

/-- `hashfunc_default`. -/
def hashfuncDefault (key : CString) : UInt32 :=
  key.foldl (fun hash c => hash * hashDefaultMultipler + charToUInt32 c) 0

/-- What `strncpy` of a key leaves in `hash_entry_t.key`: 30 of its 32 bytes are written
and the last two stay zero. -/
def storedKey (key : CString) : CString := key.take 30

/-! ## Checked memory accesses -/

/-- The address of a pointer to an entry. -/
inductive Link
  | bucket (i : ℕ)
  | next (p : EntryPtr)
deriving DecidableEq

namespace HashT

variable (t : HashT β)

def readLink : Link → Option (Option EntryPtr)
  | .bucket i => if i < t.slots then some (t.array i) else none
  | .next p => (t.entry p).map HashEntry.next

/-- The table with one entry overwritten. -/
def setEntry (p : EntryPtr) (e : HashEntry β) : HashT β :=
  { t with entry := Function.update t.entry p (some e) }

def writeLink (link : Link) (v : Option EntryPtr) : Option (HashT β) :=
  match link with
  | .bucket i =>
    if i < t.slots then some { t with array := Function.update t.array i v } else none
  | .next p => (t.entry p).map fun e => t.setEntry p { e with next := v }

/-- `hash & max`. -/
def bucketIndex (hash max : UInt32) : ℕ := (hash &&& max).toNat

/-! ## Creation and growth -/

/-- The doubling loop of `hash_create`; `fuel` bounds the number of rounds. -/
def roundUp (size : UInt32) : ℕ → UInt32 → Option UInt32
  | fuel, maxSize =>
    if maxSize < size then
      match fuel with
      | 0 => none
      | fuel + 1 => roundUp size fuel (maxSize <<< 1)
    else some maxSize

/-- The number of slots that `__alloc_array` asks for. -/
def allocSlots (max : UInt32) : ℕ := (max + 1).toNat

/-- `hash_create`, with successful allocations. -/
def hashCreate (size : UInt32) (hashFunc : Option (CString → UInt32)) : Option (HashT β) := do
  let max ← if size = 0 then some initialMax
    else (roundUp (size * 4 / 3) 32 1).map fun maxSize => maxSize - 1
  some
    { array := fun _ => none
      slots := allocSlots max
      count := 0
      max := max
      hashFunc := hashFunc.getD hashfuncDefault
      free := none
      entry := fun _ => none }

/-- The inner loop of `__expand_array`: the entries from `p` on move to the front of their
new buckets. `fuel` bounds the number of entries. -/
def expandChain (newMax : UInt32) (newSlots : ℕ) :
    ℕ → (ℕ → Option EntryPtr) × (EntryPtr → Option (HashEntry β)) → Option EntryPtr →
      Option ((ℕ → Option EntryPtr) × (EntryPtr → Option (HashEntry β)))
  | _, st, none => some st
  | 0, _, some _ => none
  | fuel + 1, (newArray, entry), some p => do
    let e ← entry p
    let index := bucketIndex e.hash newMax
    if index < newSlots then
      expandChain newMax newSlots fuel
        (Function.update newArray index (some p),
          Function.update entry p (some { e with next := newArray index }))
        e.next
    else none

/-- The outer loop of `__expand_array` over the first `n` buckets. -/
def expandBuckets (newMax : UInt32) (newSlots : ℕ) :
    ℕ → Option ((ℕ → Option EntryPtr) × (EntryPtr → Option (HashEntry β)))
  | 0 => some (fun _ => none, t.entry)
  | n + 1 => do
    let st ← expandBuckets newMax newSlots n
    if n < t.slots then expandChain newMax newSlots t.count.toNat st (t.array n) else none

/-- `__expand_array`; `mem` tells whether the allocation succeeds. Its failure is not
checked. -/
def expandArray (mem : Bool) : Option (HashT β) :=
  if mem then do
    let newMax := t.max * 2 + 1
    let newSlots := allocSlots newMax
    let (newArray, entry) ← t.expandBuckets newMax newSlots (t.max.toNat + 1)
    some { t with array := newArray, slots := newSlots, max := newMax, entry := entry }
  else none

/-! ## Lookup, insertion and removal -/

/-- The loop of `find_entry`: the link to the entry with the key, or the last link of the
bucket. `fuel` bounds the number of entries. -/
def findLoop (hash : UInt32) (key : CString) : ℕ → Link → Option (Link × Bool)
  | fuel, link => do
    match ← t.readLink link with
    | none => some (link, false)
    | some p =>
      let e ← t.entry p
      if e.hash = hash ∧ e.key = key then some (link, true)
      else
        match fuel with
        | 0 => none
        | fuel + 1 => findLoop hash key fuel (.next p)

/-- The lookup at the head of `find_entry`. -/
def find (key : CString) : Option (Link × Bool) :=
  t.findLoop (t.hashFunc key) key t.count.toNat
    (.bucket (bucketIndex (t.hashFunc key) t.max))

/-- The entry that an insertion uses: the first of the free list, or a new one. -/
def takeEntry (mem : Option EntryPtr) : Option (EntryPtr × Option β × HashT β) :=
  match t.free with
  | some p => (t.entry p).map fun e => (p, e.value, { t with free := e.next })
  | none => mem.map fun p => (p, none, t)

/-- `find_entry` with a value: the link to the entry with the key, which is inserted if it
is missing; `mem` is what `zero_alloc` answers if it is asked. -/
def findOrInsert (key : CString) (mem : Option EntryPtr) : Option (Link × HashT β) := do
  let (link, found) ← t.find key
  if found then some (link, t)
  else do
    let (p, value, t) ← t.takeEntry mem
    let e : HashEntry β :=
      { hash := t.hashFunc key, key := storedKey key, value := value, next := none }
    let t ← (t.setEntry p e).writeLink link (some p)
    some (link, { t with count := t.count + 1 })

/-- `hash_push` of a value; `arrayMem` answers `__expand_array`. -/
def hashPush (key : CString) (value : β) (mem : Option EntryPtr) (arrayMem : Bool) :
    Option (Option β × HashT β) := do
  let (link, t) ← t.findOrInsert key mem
  let some p ← t.readLink link | some (none, t)
  let e ← t.entry p
  let t := t.setEntry p { e with value := some value }
  if t.count > t.max then (t.expandArray arrayMem).map fun t => (e.value, t)
  else some (e.value, t)

/-- `hash_push` of NULL, which is `hash_pop`. -/
def hashPop (key : CString) : Option (Option β × HashT β) := do
  let (link, _) ← t.find key
  let some p ← t.readLink link | some (none, t)
  let old ← t.entry p
  let t ← t.writeLink link old.next
  some (old.value,
    { t.setEntry p { old with next := t.free, value := none } with
      free := some p
      count := t.count - 1 })

/-- `hash_peek`. The link to a missing key holds NULL, which is dereferenced. -/
def hashPeek (key : CString) : Option (Option β × HashT β) := do
  let (link, _) ← t.find key
  let some p ← t.readLink link | none
  let e ← t.entry p
  some (e.value, t)

/-! ## Counting and walking -/

/-- `hash_count`: the counter as a signed number. -/
def hashCount : ℤ := t.count.toInt32.toInt

/-- The inner loop of `hash_foreach` from `p` on, with a callback that leaves the table
alone and answers by what it has been given; `fuel` bounds the number of entries. The
result tells what it has been given and whether the loop goes on. -/
def foreachChain (callback : List (CString × Option β) → Bool) :
    ℕ → List (CString × Option β) → Option EntryPtr → Option (List (CString × Option β) × Bool)
  | _, given, none => some (given, true)
  | 0, _, some _ => none
  | fuel + 1, given, some p => do
    let e ← t.entry p
    let given := given ++ [(e.key, e.value)]
    if callback given then foreachChain callback fuel given e.next else some (given, false)

/-- The outer loop of `hash_foreach` over the last `todo` buckets, from bucket `i` on. -/
def foreachBuckets (callback : List (CString × Option β) → Bool) :
    ℕ → ℕ → List (CString × Option β) → Option (List (CString × Option β))
  | 0, _, given => some given
  | todo + 1, i, given =>
    if i < t.slots then do
      let (given, continues) ← t.foreachChain callback t.count.toNat given (t.array i)
      if continues then foreachBuckets callback todo (i + 1) given else some given
    else none

/-- `hash_foreach`: the keys and values that the callback is given, in order. -/
def hashForeach (callback : List (CString × Option β) → Bool) :
    Option (List (CString × Option β)) :=
  t.foreachBuckets callback (t.max.toNat + 1) 0 []

/-! ## Destruction -/

/-- The loops of `hash_destroy` along a chain, from `p` on: the link of an entry is read
before `free` gets it, and `free` needs an allocated entry. `fuel` bounds the number of
entries. -/
def destroyChain : ℕ → (EntryPtr → Option (HashEntry β)) → Option EntryPtr →
    Option (EntryPtr → Option (HashEntry β))
  | _, entry, none => some entry
  | 0, _, some _ => none
  | fuel + 1, entry, some p => do
    let e ← entry p
    destroyChain fuel (Function.update entry p none) e.next

/-- The outer loop of `hash_destroy` over the first `n` buckets. -/
def destroyBuckets (fuel : ℕ) : ℕ → Option (EntryPtr → Option (HashEntry β))
  | 0 => some t.entry
  | n + 1 => do
    let entry ← destroyBuckets fuel n
    if n < t.slots then destroyChain fuel entry (t.array n) else none

/-- `hash_destroy`: its code, and the entries that are still allocated behind it. The
values of the entries are not freed. -/
def hashDestroy (fuel : ℕ) (hashTable : Option (HashT β)) :
    Option (BliveErrno × (EntryPtr → Option (HashEntry β))) :=
  match hashTable with
  | none => some (.nullPtr, fun _ => none)
  | some t => do
    let entry ← t.destroyBuckets fuel (t.max.toNat + 1)
    let entry ← destroyChain fuel entry t.free
    some (.ok, entry)

end HashT

/-! ## Calls and runs -/

/-- The calls of a client; `mem` is the entry that `zero_alloc` hands out if it is asked. -/
inductive HashCall (β : Type)
  | push (key : CString) (value : β) (mem : EntryPtr)
  | pop (key : CString)
  | count
  | foreach (callback : List (CString × Option β) → Bool)

/-- What a call lets the client see. -/
inductive HashRet (β : Type)
  | value (old : Option β)
  | count (n : ℤ)
  | given (pairs : List (CString × Option β))

namespace HashCall

/-- The execution of one call, with successful allocations. -/
def run (t : HashT β) : HashCall β → Option (HashRet β × HashT β)
  | push key value mem => (t.hashPush key value (some mem) true).map fun r => (.value r.1, r.2)
  | pop key => (t.hashPop key).map fun r => (.value r.1, r.2)
  | count => some (.count t.hashCount, t)
  | foreach callback => (t.hashForeach callback).map fun pairs => (.given pairs, t)

/-- Keys are C strings of at most 30 bytes, and `malloc` never hands out an entry that is
still allocated. -/
def Contract (t : HashT β) : HashCall β → Prop
  | push key _ mem => (0 ∉ key ∧ key.length ≤ 30) ∧ t.entry mem = none
  | pop key => 0 ∉ key ∧ key.length ≤ 30
  | count | foreach _ => True

end HashCall

/-- A table under arbitrary sequences of calls, from `hash_create` on. -/
def hashSystem (β : Type) : Math.System (HashT β) (HashCall β × HashRet β) where
  init t := ∃ (size : UInt32) (hashFunc : Option (CString → UInt32)), size.toNat < 2 ^ 29 ∧
    HashT.hashCreate size hashFunc = some t
  step t label t' := label.1.Contract t ∧ label.1.run t = some (label.2, t')

end BliveQueue.Utils.Hash
