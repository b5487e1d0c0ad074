import Kvs.Lib.Heap
import Kvs.Server.Operations
import Kvs.Server.Subscribers

/-!
# `Server.HeapTable` — the hash table of `kvs.c` on its pointers

`Server.Table` and `Server.Subscribers` have a bucket as a list of nodes. Here is the same code as it
stands in `kvs.c`: nodes, keys and values are blocks of memory, a bucket is the pointer to its first
node, and the functions follow pointers, store to fields, `strdup` and `free`. What goes astray, a `NULL`
or a block that was freed, ends the program with no result.

A loop `while (keyNode != NULL)` has a bound on its iterations, `fuel`; no result when it is reached. An
allocation succeeds and finds its block with whatever was there before (`mem`).

## Contents
- **Blocks.** `NodeBlock`, `Block`, and the accesses to their fields.
- **`kvs.c`.** `createHashTable`, `writePair`, `readPair`, `deletePair`, `addSubscriber`,
  `removeSubscriber`, `notifyClients`, `freeTable`.
- **Calls.** The loops of `kvs_show` and of `kvs_read`; `HeapOp`, a table from its allocation to
  `free_table`.
-/

namespace Kvs.Server

open HeapLogic (Addr Ptr Allocator Prog)
open HeapLogic.Prog (fail ofOption malloc load store free)

namespace HeapTable

/-! ## Blocks -/

/-- A `KeyNode`, with its pointers. -/
structure NodeBlock where
  key : Ptr
  value : Ptr
  subscriberFds : Slots
  next : Ptr

/-- A block that `malloc` or `strdup` has allocated. -/
inductive Block where
  | chars (s : CStr)
  | keyNode (n : NodeBlock)
  | hashTable (table : Fin TABLE_SIZE → Ptr)

/-- The string that a `char *` points to. -/
def loadChars : Ptr → Prog Block CStr
  | none => fail
  | some a => do
      match ← load a with
      | .chars s => return s
      | _ => fail

def loadNode (a : Addr) : Prog Block NodeBlock := do
  match ← load a with
  | .keyNode n => return n
  | _ => fail

/-- `ht->table` -/
def loadTable (ht : Addr) : Prog Block (Fin TABLE_SIZE → Ptr) := do
  match ← load ht with
  | .hashTable table => return table
  | _ => fail

/-- A store to a field of a node. -/
def setNode (a : Addr) (f : NodeBlock → NodeBlock) : Prog Block Unit := do
  let n ← loadNode a
  store a (.keyNode (f n))

/-- `ht->table[i] = p` -/
def setTable (ht : Addr) (i : Fin TABLE_SIZE) (p : Ptr) : Prog Block Unit := do
  let table ← loadTable ht
  store ht (.hashTable (Function.update table i p))

/-- The string at `keyNode->key`. -/
def keyOf (keyNode : Addr) : Prog Block CStr := do
  let n ← loadNode keyNode
  loadChars n.key

/-- The string at `keyNode->value`. -/
def valueOf (keyNode : Addr) : Prog Block CStr := do
  let n ← loadNode keyNode
  loadChars n.value

/-- `keyNode->next` -/
def nextOf (keyNode : Addr) : Prog Block Ptr := do
  let n ← loadNode keyNode
  return n.next

def strdup (A : Allocator Block) (s : CStr) : Prog Block Ptr := do
  let a ← malloc A (.chars s)
  return some a

/-! ## `kvs.c` -/

variable {ρ : Type}

/-- The search loop of the functions: what is done with the first node that has the key, and what is
    done, or returned, when the loop ends. -/
def searchLoop (key : CStr) (found : Addr → Prog Block ρ) (absent : Prog Block ρ) :
    Nat → Ptr → Prog Block ρ
  | 0, _ => fail
  | _ + 1, none => absent
  | fuel + 1, some keyNode => do
      let nodeKey ← keyOf keyNode
      if strcmp nodeKey key = 0 then found keyNode
      else
        let next ← nextOf keyNode
        searchLoop key found absent fuel next

def createHashTable (A : Allocator Block) (mem : Fin TABLE_SIZE → Ptr) : Prog Block Addr := do
  let ht ← malloc A (.hashTable mem)
  (List.finRange TABLE_SIZE).forM (fun i => setTable ht i none)
  return ht

/-- `write_pair` on a node that has the key. -/
def overwriteValue (A : Allocator Block) (value : CStr) (keyNode : Addr) : Prog Block Int := do
  let n ← loadNode keyNode
  free n.value
  let copy ← strdup A value
  setNode keyNode (fun n => { n with value := copy })
  return 0

/-- `write_pair` when no node has the key. -/
def pushNode (A : Allocator Block) (ht : Addr) (index : Fin TABLE_SIZE) (key value : CStr)
    (mem : NodeBlock) : Prog Block Int := do
  let keyNode ← malloc A (.keyNode mem)
  let keyCopy ← strdup A key
  setNode keyNode (fun n => { n with key := keyCopy })
  let valueCopy ← strdup A value
  setNode keyNode (fun n => { n with value := valueCopy })
  let table ← loadTable ht
  setNode keyNode (fun n => { n with next := table index })
  setTable ht index (some keyNode)
  return 0

def writePair (A : Allocator Block) (fuel : Nat) (ht : Addr) (key value : CStr) (mem : NodeBlock) :
    Prog Block Int := do
  let index ← ofOption (subscript (hash key))
  let table ← loadTable ht
  searchLoop key (overwriteValue A value) (pushNode A ht index key value mem) fuel (table index)

def readPair (A : Allocator Block) (fuel : Nat) (ht : Addr) (key : CStr) : Prog Block Ptr := do
  let index ← ofOption (subscript (hash key))
  let table ← loadTable ht
  searchLoop key
    (fun keyNode => do
      let value ← valueOf keyNode
      strdup A value)
    (return none) fuel (table index)

/-- The pointer that led to the node leads past it. -/
def unlinkFrom (ht : Addr) (index : Fin TABLE_SIZE) (keyNode : Addr) : Ptr → Prog Block Unit
  | none => do
      let next ← nextOf keyNode
      setTable ht index next
  | some prevNode => do
      let next ← nextOf keyNode
      setNode prevNode (fun n => { n with next := next })

/-- The three calls of `free` for a node. -/
def freeNode (keyNode : Addr) : Prog Block Unit := do
  let n ← loadNode keyNode
  free n.key
  let n ← loadNode keyNode
  free n.value
  free (some keyNode)

/-- The loop of `delete_pair`, with `keyNode` and `prevNode`. -/
def deleteLoop (ht : Addr) (index : Fin TABLE_SIZE) (key : CStr) : Nat → Ptr → Ptr → Prog Block Int
  | 0, _, _ => fail
  | _ + 1, none, _ => return 1
  | fuel + 1, some keyNode, prevNode => do
      let nodeKey ← keyOf keyNode
      if strcmp nodeKey key = 0 then
        unlinkFrom ht index keyNode prevNode
        freeNode keyNode
        return 0
      else
        let next ← nextOf keyNode
        deleteLoop ht index key fuel next (some keyNode)

def deletePair (fuel : Nat) (ht : Addr) (key : CStr) : Prog Block Int := do
  let index ← ofOption (subscript (hash key))
  let table ← loadTable ht
  deleteLoop ht index key fuel (table index) none

/-- What `add_subscriber` and `remove_subscriber` do to the slots of the node they find. -/
def changeNode (change : Slots → Slots × Int) (keyNode : Addr) : Prog Block Int := do
  let n ← loadNode keyNode
  store keyNode (.keyNode { n with subscriberFds := (change n.subscriberFds).1 })
  return (change n.subscriberFds).2

def changeSubscribers (change : Slots → Slots × Int) (fuel : Nat) (ht : Addr) (key : CStr) :
    Prog Block Int := do
  let index ← ofOption (subscript (hash key))
  let table ← loadTable ht
  searchLoop key (changeNode change) (return 1) fuel (table index)

def addSubscriber (fuel : Nat) (ht : Addr) (key : CStr) (subscriberFd : Int) : Prog Block Int :=
  changeSubscribers (addSlot subscriberFd) fuel ht key

def removeSubscriber (fuel : Nat) (ht : Addr) (key : CStr) (subscriberFd : Int) : Prog Block Int :=
  changeSubscribers (removeSlot subscriberFd) fuel ht key

def notifyClients (fuel : Nat) (ht : Addr) (key : CStr) : Prog Block (Sent × Int) := do
  let index ← ofOption (subscript (hash key))
  let table ← loadTable ht
  searchLoop key
    (fun keyNode => do
      let value ← valueOf keyNode
      let n ← loadNode keyNode
      return (n.subscriberFds.toList.map (fun fd => (fd, sendMsg (notification key value))), 0))
    (return ([], 1)) fuel (table index)

/-- The inner loop of `free_table`, with `temp` and `keyNode`. -/
def freeNodes : Nat → Ptr → Prog Block Unit
  | 0, _ => fail
  | _ + 1, none => return ()
  | fuel + 1, some temp => do
      let keyNode ← nextOf temp
      freeNode temp
      freeNodes fuel keyNode

def freeTable (fuel : Nat) (ht : Addr) : Prog Block Unit := do
  (List.finRange TABLE_SIZE).forM (fun i => do
    let table ← loadTable ht
    freeNodes fuel (table i))
  free (some ht)

/-! ## Calls -/

/-- The inner loop of `kvs_show`. -/
def showLoop : Nat → Ptr → Prog Block (List Byte)
  | 0, _ => fail
  | _ + 1, none => return []
  | fuel + 1, some keyNode => do
      let key ← keyOf keyNode
      let value ← valueOf keyNode
      let next ← nextOf keyNode
      let text ← showLoop fuel next
      return ascii "(" ++ key.bytes ++ ascii ", " ++ value.bytes ++ ascii ")\n" ++ text

/-- A round of the outer one. -/
def showBucket (fuel : Nat) (ht : Addr) (i : Fin TABLE_SIZE) : Prog Block (List Byte) := do
  let table ← loadTable ht
  showLoop fuel (table i)

/-- The outer loop, on these buckets. -/
def kvsShow (fuel : Nat) (ht : Addr) : List (Fin TABLE_SIZE) → Prog Block (List Byte)
  | [] => return []
  | i :: rest => do
      let text ← showBucket fuel ht i
      let more ← kvsShow fuel ht rest
      return text ++ more

/-- A round of the loop of `kvs_read`: the copy is printed and freed. -/
def kvsReadOne (A : Allocator Block) (fuel : Nat) (ht : Addr) (key : CStr) :
    Prog Block (Option CStr) := do
  let result ← readPair A fuel ht key
  match result with
  | none => return none
  | some a => do
      let value ← loadChars (some a)
      free (some a)
      return some value

/-- A call on the table; a write carries what its allocation would find in memory. -/
inductive HeapOp where
  | write (key value : CStr) (mem : NodeBlock)
  | read (key : CStr)
  | delete (key : CStr)
  | addSubscriber (key : CStr) (fd : Int)
  | removeSubscriber (key : CStr) (fd : Int)
  | notify (key : CStr)
  | show

/-- The key a call is about. -/
def HeapOp.key : HeapOp → Option CStr
  | .write key _ _ => some key
  | .read key => some key
  | .delete key => some key
  | .addSubscriber key _ => some key
  | .removeSubscriber key _ => some key
  | .notify key => some key
  | .show => none

/-- What a call returns, sends or prints. -/
inductive HeapOut where
  | ret (r : Int)
  | value (v : Option CStr)
  | sent (messages : Sent) (ret : Int)
  | shown (text : List Byte)
  deriving DecidableEq

def HeapOp.exec (A : Allocator Block) (fuel : Nat) (ht : Addr) : HeapOp → Prog Block HeapOut
  | .write key value mem => do return .ret (← writePair A fuel ht key value mem)
  | .read key => do return .value (← kvsReadOne A fuel ht key)
  | .delete key => do return .ret (← deletePair fuel ht key)
  | .addSubscriber key fd => do return .ret (← HeapTable.addSubscriber fuel ht key fd)
  | .removeSubscriber key fd => do return .ret (← HeapTable.removeSubscriber fuel ht key fd)
  | .notify key => do
      let (messages, ret) ← notifyClients fuel ht key
      return .sent messages ret
  | .show => do return .shown (← kvsShow fuel ht (List.finRange TABLE_SIZE))

def runOps (A : Allocator Block) (fuel : Nat) (ht : Addr) : List HeapOp → Prog Block (List HeapOut)
  | [] => return []
  | op :: ops => do
      let out ← op.exec A fuel ht
      let outs ← runOps A fuel ht ops
      return out :: outs

/-- A table that is allocated and used. -/
def buildTable (A : Allocator Block) (fuel : Nat) (mem : Fin TABLE_SIZE → Ptr) (ops : List HeapOp) :
    Prog Block (Addr × List HeapOut) := do
  let ht ← createHashTable A mem
  let outs ← runOps A fuel ht ops
  return (ht, outs)

/-- A table from `create_hash_table` to `free_table`. -/
def lifetime (A : Allocator Block) (fuel : Nat) (mem : Fin TABLE_SIZE → Ptr) (ops : List HeapOp) :
    Prog Block (List HeapOut) := do
  let built ← buildTable A fuel mem ops
  freeTable fuel built.1
  return built.2

/-- The call on the table as `Server.Table` and `Server.Subscribers` have it. -/
def HeapOp.onTable (ht : HashTable) : HeapOp → Option (HashTable × HeapOut)
  | .write key value mem =>
      (Server.writePair ht key value mem.subscriberFds).map (fun r => (r.1, .ret r.2))
  | .read key => (Server.readPair ht key).map (fun v => (ht, .value v))
  | .delete key => (Server.deletePair ht key).map (fun r => (r.1, .ret r.2))
  | .addSubscriber key fd => (Server.addSubscriber ht key fd).map (fun r => (r.1, .ret r.2))
  | .removeSubscriber key fd => (Server.removeSubscriber ht key fd).map (fun r => (r.1, .ret r.2))
  | .notify key => (Server.notifyClients ht key).map (fun r => (ht, .sent r.1 r.2))
  | .show => some (ht, .shown (showTable ht.table))

def runTable : List HeapOp → HashTable → Option (HashTable × List HeapOut)
  | [], ht => some (ht, [])
  | op :: ops, ht => do
      let (ht', out) ← op.onTable ht
      let (ht'', outs) ← runTable ops ht'
      return (ht'', out :: outs)

end HeapTable

end Kvs.Server
