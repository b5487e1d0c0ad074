import Kvs.Server.RecordBuffer

/-!
# `Exercise1.Operations` — the store and the commands of exercise 1

The first version of the program: one thread, no locks, no subscribers. `hash` does what that of the server
does, and so does the parser up to the rows it has room for (1024 where the server has 256); the nodes of
the table have a key and a value. The commands take their keys in the order written. `none` is a subscript
outside `ht->table`, or a record that leaves `buffer`, which has `MAX_STRING_SIZE` bytes as in the server.
-/

namespace Kvs.Exercise1

open Server (hash subscript TABLE_SIZE JobCmd)
open Server.Sequential (formatted)

/-! ## The table of `kvs.c` -/

structure KeyNode where
  key : CStr
  value : CStr

structure HashTable where
  table : Fin TABLE_SIZE → List KeyNode

/-- `ht->table[i] = bucket` -/
def HashTable.set (ht : HashTable) (i : Fin TABLE_SIZE) (bucket : List KeyNode) : HashTable :=
  ⟨Function.update ht.table i bucket⟩

def createHashTable : HashTable := ⟨fun _ => []⟩

/-- The search loop: the first node whose key compares equal. -/
def searchNode (key : CStr) : List KeyNode → Option KeyNode
  | [] => none
  | keyNode :: next => if strcmp keyNode.key key = 0 then some keyNode else searchNode key next

/-- The loop of `write_pair` on a key that is present. -/
def overwriteNode (key value : CStr) : List KeyNode → List KeyNode
  | [] => []
  | keyNode :: next =>
      if strcmp keyNode.key key = 0 then { keyNode with value := value } :: next
      else keyNode :: overwriteNode key value next

/-- The loop of `delete_pair` on a key that is present. -/
def unlinkNode (key : CStr) : List KeyNode → List KeyNode
  | [] => []
  | keyNode :: next =>
      if strcmp keyNode.key key = 0 then next else keyNode :: unlinkNode key next

def writeBucket (key value : CStr) (bucket : List KeyNode) : List KeyNode :=
  match searchNode key bucket with
  | some _ => overwriteNode key value bucket
  | none => ⟨key, value⟩ :: bucket

def deleteBucket (key : CStr) (bucket : List KeyNode) : List KeyNode × Int :=
  match searchNode key bucket with
  | some _ => (unlinkNode key bucket, 0)
  | none => (bucket, 1)

def writePair (ht : HashTable) (key value : CStr) : Option (HashTable × Int) := do
  let index ← subscript (hash key)
  return (ht.set index (writeBucket key value (ht.table index)), 0)

def readPair (ht : HashTable) (key : CStr) : Option (Option CStr) := do
  let index ← subscript (hash key)
  return (searchNode key (ht.table index)).map KeyNode.value

def deletePair (ht : HashTable) (key : CStr) : Option (HashTable × Int) := do
  let index ← subscript (hash key)
  let (bucket, ret) := deleteBucket key (ht.table index)
  return (ht.set index bucket, ret)

/-! ## The commands of `operations.c` -/

/-- What a command writes to the output file of its job. -/
inductive Report where
  | read (results : List (CStr × Option CStr))
  | deleted (missing : List CStr)
  | shown (table : Fin TABLE_SIZE → List KeyNode)

/-- `"(%s,%s)"` with the value read, or `KVSERROR`. -/
def readRecord (key : CStr) (result : Option CStr) : List Byte :=
  ascii "(" ++ key.bytes ++ ascii "," ++
    (match result with
      | some value => value.bytes
      | none => ascii "KVSERROR") ++ ascii ")"

/-- `"[(%s,KVSMISSING)]\n"`: every missing key has brackets of its own. -/
def missingRecord (key : CStr) : List Byte := ascii "[(" ++ key.bytes ++ ascii ",KVSMISSING)]\n"

/-- `"(%s,%s)\n"`, without the blank of the server. -/
def showNode (keyNode : KeyNode) : List Byte :=
  ascii "(" ++ keyNode.key.bytes ++ ascii "," ++ keyNode.value.bytes ++ ascii ")\n"

def Report.text : Report → List Byte
  | .read results => ascii "[" ++ results.flatMap (fun r => readRecord r.1 r.2) ++ ascii "]\n"
  | .deleted missing => missing.flatMap missingRecord
  | .shown table => (List.finRange TABLE_SIZE).flatMap (fun i => (table i).flatMap showNode)

/-- The table, and what the commands wrote to the output file. -/
structure World where
  table : HashTable
  output : List Report

def writeLoop : List (CStr × CStr) → HashTable → Option HashTable
  | [], ht => some ht
  | (key, value) :: pairs, ht => do
      let (ht', _) ← writePair ht key value
      writeLoop pairs ht'

/-- The loop of `kvs_read`: `read_pair`, and the record of what it found. -/
def readLoop (ht : HashTable) : List CStr → Option (List (CStr × Option CStr))
  | [] => some []
  | key :: keys => do
      let value ← readPair ht key
      let _ ← formatted (readRecord key value)
      let results ← readLoop ht keys
      return (key, value) :: results

/-- The record of a key for which `delete_pair` has returned `ret`, if it is not 0. -/
def formattedMissing (key : CStr) (ret : Int) : Option (List Byte) :=
  if ret ≠ 0 then formatted (missingRecord key) else some []

/-- The loop of `kvs_delete`, which prints a key as soon as `delete_pair` does not return 0. -/
def deleteLoop : List CStr → HashTable → Option (HashTable × List CStr)
  | [], ht => some (ht, [])
  | key :: keys, ht => do
      let (ht', ret) ← deletePair ht key
      let _ ← formattedMissing key ret
      let (ht'', missing) ← deleteLoop keys ht'
      return (ht'', if ret ≠ 0 then key :: missing else missing)

def kvsWrite (pairs : List (CStr × CStr)) (w : World) : Option World := do
  let table ← writeLoop pairs w.table
  return { w with table := table }

def kvsRead (keys : List CStr) (w : World) : Option World := do
  let results ← readLoop w.table keys
  return { w with output := w.output ++ [.read results] }

def kvsDelete (keys : List CStr) (w : World) : Option World := do
  let (table, missing) ← deleteLoop keys w.table
  return { table := table, output := w.output ++ [.deleted missing] }

/-! ## The job loop of `main.c` -/

/-- A round of `processar_ficheiro_job`. -/
def processCommand : JobCmd → World → Option World
  | .write pairs, w => kvsWrite pairs w
  | .read keys, w => kvsRead keys w
  | .delete keys, w => kvsDelete keys w
  | .showAll, w => some { w with output := w.output ++ [.shown w.table.table] }
  | .wait _, w => some w
  | .backup, w => some w
  | .help, w => some w
  | .empty, w => some w
  | .invalid, w => some w

/-- `processar_ficheiro_job` on the commands that the parser delivers. -/
def processarFicheiroJob : List JobCmd → World → Option World
  | [], w => some w
  | command :: commands, w => do
      let w' ← processCommand command w
      processarFicheiroJob commands w'

end Kvs.Exercise1
