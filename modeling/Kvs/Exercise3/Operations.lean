import Kvs.Exercise1.Operations
import Kvs.Server.Pool

/-!
# `Exercise3.Operations` — the commands of the worker threads of exercise 3

The first version with threads: no subscribers, and a `SHOW` that takes `rwlock` exclusively while
`WRITE` and `DELETE` take it shared. The nodes and the pair operations of its `kvs.c` are those of
exercise 1, the loops over the locks those of the server. Compiled to the steps of `Lib.LockSystem` like
the commands of `Server.Operations`. The threads draw their files as in `Server.Pool`.

## Contents
- **Pair operations.** `PairOp` and what a call does to its bucket.
- **Steps.** `StoreOp`, `StoreOut`.
- **Commands.** `kvsWrite`, `kvsRead`, `kvsDelete`, `kvsShow`, `kvsBackup`; `WorkerCmd` and `worker`.
- **Output.** The bytes of the output file and of the backups.
-/

namespace Kvs.Exercise3

open Locking
open Exercise1 (KeyNode searchNode writeBucket deleteBucket)
open Server (Key TABLE_SIZE LockId PairResult PoolState lockLoop unlockLoop sortKeys sortRows)

abbrev Buckets := Fin TABLE_SIZE → List KeyNode

/-! ## Pair operations -/

/-- A call of one of the pair operations of `kvs.c`. -/
inductive PairOp where
  | write (k : Key) (value : CStr)
  | read (k : Key)
  | delete (k : Key)

/-- The key a call is about. -/
def PairOp.key : PairOp → Key
  | .write k _ => k
  | .read k => k
  | .delete k => k

/-- What a call does to the bucket of its key, and what it returns. -/
def PairOp.onBucket (bucket : List KeyNode) : PairOp → List KeyNode × PairResult
  | .write k value => (writeBucket k.str value bucket, .wrote 0)
  | .read k => (bucket, .read ((searchNode k.str bucket).map KeyNode.value))
  | .delete k => ((deleteBucket k.str bucket).1, .deleted (deleteBucket k.str bucket).2)

/-! ## Steps -/

/-- A step on the table: a pair operation, the copy a `fork` takes, or one bucket printed. -/
inductive StoreOp where
  | pair (op : PairOp)
  | fork
  | showBucket (i : Fin TABLE_SIZE)

/-- What a step returns. -/
inductive StoreOut where
  | pair (result : PairResult)
  | snapshot (table : Buckets)
  | shown (text : List Byte)

/-- `"(%s, %s)\n"` -/
def showNode (keyNode : KeyNode) : List Byte :=
  ascii "(" ++ keyNode.key.bytes ++ ascii ", " ++ keyNode.value.bytes ++ ascii ")\n"

/-- The inner loop of `kvs_show` and `kvs_show_backup`. -/
def showNodes (bucket : List KeyNode) : List Byte := bucket.flatMap showNode

/-- `kvs_show_backup`: the child of a `fork` is alone with its copy. -/
def kvsShowBackup (table : Buckets) : List Byte :=
  (List.finRange TABLE_SIZE).flatMap (fun i => showNodes (table i))

def StoreOp.exec : StoreOp → Buckets → Buckets × StoreOut
  | .pair op, table =>
      (Function.update table op.key.bucket (op.onBucket (table op.key.bucket)).1,
        .pair (op.onBucket (table op.key.bucket)).2)
  | .fork, table => (table, .snapshot table)
  | .showBucket i, table => (table, .shown (showNodes (table i)))

/-! ## Commands -/

def kvsWrite (pairs : List (Key × CStr)) : List (Instr LockId StoreOp) :=
  let (locked, hashed) := lockLoop (fun _ => false) (pairs.map Prod.fst)
  phases ((LockId.rwlock, Mode.shared) :: locked.map (fun i => (.bucket i, .exclusive)))
    ((pairs.map (fun p => PairOp.write p.1 p.2)).map .pair)
    ((unlockLoop hashed).map .bucket ++ [.rwlock])

def kvsRead (keys : List Key) : List (Instr LockId StoreOp) :=
  let (locked, hashed) := lockLoop (fun _ => false) keys
  phases (locked.map (fun i => (.bucket i, .shared)))
    ((keys.map PairOp.read).map .pair)
    ((unlockLoop hashed).map .bucket)

def kvsDelete (keys : List Key) : List (Instr LockId StoreOp) :=
  let (locked, hashed) := lockLoop (fun _ => false) keys
  phases ((LockId.rwlock, Mode.shared) :: locked.map (fun i => (.bucket i, .exclusive)))
    ((keys.map PairOp.delete).map .pair)
    ((unlockLoop hashed).map .bucket ++ [.rwlock])

def kvsShow : List (Instr LockId StoreOp) :=
  phases [(.rwlock, .exclusive)] ((List.finRange TABLE_SIZE).map .showBucket) [.rwlock]

/-- The `CMD_BACKUP` case of `process_job_file`, up to the `fork` and its locks given back. -/
def kvsBackup : List (Instr LockId StoreOp) :=
  phases ((.backupMutex, .exclusive) ::
      (List.finRange TABLE_SIZE).map (fun i => (.bucket i, .shared)))
    [.fork]
    ((List.finRange TABLE_SIZE).map .bucket ++ [.backupMutex])

/-- A command of a job that works on the table. -/
inductive WorkerCmd where
  | cmdWrite (pairs : List (Key × CStr))
  | cmdRead (keys : List Key)
  | cmdDelete (keys : List Key)
  | cmdShow
  | cmdBackup

/-- The case of `process_job_file` for each command. -/
def processCommand : WorkerCmd → List (Instr LockId StoreOp)
  | .cmdWrite pairs => kvsWrite (sortRows (fun j k => strcmp j.str k.str) pairs)
  | .cmdRead keys => kvsRead (sortKeys keys)
  | .cmdDelete keys => kvsDelete (sortKeys keys)
  | .cmdShow => kvsShow
  | .cmdBackup => kvsBackup

/-- The worker threads. -/
def worker : Machine LockId StoreOp WorkerCmd Buckets StoreOut where
  code := processCommand
  exec := StoreOp.exec

/-! ## Output -/

def StoreOut.readValue : StoreOut → Option CStr
  | .pair (.read value) => value
  | _ => none

def StoreOut.ret : StoreOut → Int
  | .pair (.deleted ret) => ret
  | _ => 0

def StoreOut.text : StoreOut → List Byte
  | .shown text => text
  | _ => []

/-- The copies that the children of a command print. -/
def StoreOut.copy : StoreOut → Option Buckets
  | .snapshot table => some table
  | _ => none

/-- The bytes a command writes to the output file, from what its steps returned. -/
def WorkerCmd.output : WorkerCmd → List StoreOut → List Byte
  | .cmdWrite _, _ => []
  | .cmdRead keys, outs => Server.readText ((sortKeys keys).zip (outs.map StoreOut.readValue))
  | .cmdDelete keys, outs => Server.deleteText ((sortKeys keys).zip (outs.map StoreOut.ret))
  | .cmdShow, outs => outs.flatMap StoreOut.text
  | .cmdBackup, _ => []

/-- The bytes of the `.out` file of a job file. -/
def outFile {T : Type} (s : PoolState T LockId StoreOp WorkerCmd Buckets StoreOut) (file : Nat) :
    List Byte :=
  (s.results file).flatMap (fun r => r.1.output r.2)

/-- The bytes of its `-1.bck`, `-2.bck` and so on. -/
def backupFiles {T : Type} (s : PoolState T LockId StoreOp WorkerCmd Buckets StoreOut) (file : Nat) :
    List (List Byte) :=
  (s.results file).flatMap (fun r => (r.2.filterMap StoreOut.copy).map kvsShowBackup)

end Kvs.Exercise3
