import Kvs.Base.Buffer
import Kvs.Server.Table

/-!
# `Server.Subscribers` — who is told about a key

A node keeps `MAX_SESSION_COUNT` descriptors, a zero being a free slot. `add_subscriber` and
`remove_subscriber` of `kvs.c` change the slots of the first node with the key (`changeSlots`);
`notify_clients` sends a message to each of its slots. `kvs_subscribe` and `kvs_unsubscribe` of
`operations.c` subscript the array of locks first.
-/

namespace Kvs.Server

/-- A write to a descriptor. -/
abbrev Sent := List (Int × List Byte)

/-- `send_msg`: its loop goes on until all of the string is written. -/
def sendMsg (str : List Byte) : List Byte := untilNul str

/-! ## The slots of a node -/

abbrev Slots := Vector Int MAX_SESSION_COUNT

/-- `subscriber_fds[i] = fd` -/
def setSlot (fds : Slots) (i : Fin MAX_SESSION_COUNT) (fd : Int) : Slots := fds.set i fd

/-- The first slot that holds `fd`. -/
def slotOf (fds : Slots) (fd : Int) : Option (Fin MAX_SESSION_COUNT) :=
  (List.finRange MAX_SESSION_COUNT).find? (fun i => decide (fds.get i = fd))

/-- The two loops of `add_subscriber`: refused when the descriptor is in a slot, or when none is free. -/
def addSlot (fd : Int) (fds : Slots) : Slots × Int :=
  match slotOf fds fd with
  | some _ => (fds, 1)
  | none =>
      match slotOf fds 0 with
      | some i => (setSlot fds i fd, 0)
      | none => (fds, 1)

/-- The loop of `remove_subscriber`. -/
def removeSlot (fd : Int) (fds : Slots) : Slots × Int :=
  match slotOf fds fd with
  | some i => (setSlot fds i 0, 0)
  | none => (fds, 1)

/-! ## The table -/

/-- The search loop of both: the slots of the first node with the key are changed where it stands, and a
    key that is not there gives 1. -/
def changeSlots (change : Slots → Slots × Int) (key : CStr) : List KeyNode → List KeyNode × Int
  | [] => ([], 1)
  | keyNode :: next =>
      if strcmp keyNode.key key = 0 then
        let (fds, ret) := change keyNode.subscriberFds
        ({ keyNode with subscriberFds := fds } :: next, ret)
      else
        let (next', ret) := changeSlots change key next
        (keyNode :: next', ret)

def addSubscriber (ht : HashTable) (key : CStr) (subscriberFd : Int) : Option (HashTable × Int) := do
  let index ← subscript (hash key)
  let (bucket, ret) := changeSlots (addSlot subscriberFd) key (ht.table index)
  return (ht.set index bucket, ret)

def removeSubscriber (ht : HashTable) (key : CStr) (subscriberFd : Int) :
    Option (HashTable × Int) := do
  let index ← subscript (hash key)
  let (bucket, ret) := changeSlots (removeSlot subscriberFd) key (ht.table index)
  return (ht.set index bucket, ret)

/-- The array `notification`, its two halves filled by `strncpy`. It has a NUL in it unless both strings
    have 40 bytes or more, and the parsers store none of more than 39. -/
def notification (key value : CStr) : List Byte := strncpy key.bytes 40 ++ strncpy value.bytes 40

/-- `notify_clients`: a message to every slot of the key's node, the free ones too, or 1 when the key is
    not there. -/
def notifyClients (ht : HashTable) (key : CStr) : Option (Sent × Int) := do
  let index ← subscript (hash key)
  match searchNode key (ht.table index) with
  | none => return ([], 1)
  | some keyNode =>
      let message := sendMsg (notification key keyNode.value)
      return (keyNode.subscriberFds.toList.map (fun fd => (fd, message)), 0)

/-- `kvs_subscribe`, the store being initialised: the lock of the bucket is taken, so its array is
    subscripted, before `add_subscriber` runs. -/
def kvsSubscribe (ht : HashTable) (key : CStr) (fd : Int) : Option (HashTable × Int) := do
  let _ ← subscript (hash key)
  addSubscriber ht key fd

def kvsUnsubscribe (ht : HashTable) (key : CStr) (fd : Int) : Option (HashTable × Int) := do
  let _ ← subscript (hash key)
  removeSubscriber ht key fd

/-! ## Calls that change the table -/

/-- A call of one of the functions of `kvs.c` that change nodes; the key is any string. -/
inductive TableOp where
  | write (key value : CStr) (mem : Garbage)
  | delete (key : CStr)
  | addSubscriber (key : CStr) (fd : Int)
  | removeSubscriber (key : CStr) (fd : Int)
  deriving DecidableEq

/-- The key a call is about. -/
def TableOp.key : TableOp → CStr
  | .write key _ _ => key
  | .delete key => key
  | .addSubscriber key _ => key
  | .removeSubscriber key _ => key

/-- The call, and what it returns; `none` is a subscript outside the array. -/
def TableOp.exec (ht : HashTable) : TableOp → Option (HashTable × Int)
  | .write key value mem => writePair ht key value mem
  | .delete key => deletePair ht key
  | .addSubscriber key fd => Server.addSubscriber ht key fd
  | .removeSubscriber key fd => Server.removeSubscriber ht key fd

/-- The table a call leaves. -/
def TableOp.step (ht : HashTable) (op : TableOp) : Option HashTable := (op.exec ht).map Prod.fst

end Kvs.Server
