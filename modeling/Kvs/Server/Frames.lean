import Kvs.Server.Operations
import Kvs.Server.RecordBuffer

/-!
# `Server.Frames` — `kvs_read` and `kvs_delete` with their local arrays

The loops of the two functions share the array `hashed`: the first marks the buckets whose locks it takes,
the last gives back the locks of the buckets it finds marked. Between them the loop over the keys formats
records into another array of the same frame, `buffer`, and a record that leaves it leaves the frame
undefined (`none`). The code of `Server.Operations` is what is run when all records fit. What a pair
operation finds is the table at the moment it runs, which other threads may have changed since the one
before.
-/

namespace Kvs.Server

open Locking

/-- The local arrays of `kvs_read` and `kvs_delete`. -/
structure Frame where
  hashed : Hashed
  buffer : List Byte

/-- `sprintf(buffer, ...)`: as long as the record fits, `hashed` stays as it is. -/
def Frame.sprintf (f : Frame) (record : List Byte) : Option Frame :=
  (Server.sprintf f.buffer record).map (fun buffer => { f with buffer := buffer })

/-- `if (delete_pair(kvs_table, keys[i]) != 0)`, and the record behind it. -/
def Frame.reportMissing (f : Frame) (k : Key) (ret : Int) : Option Frame :=
  if ret ≠ 0 then f.sprintf (missingRecord k) else some f

/-- The loop of `kvs_read` over the keys: the operations it runs, and the arrays it leaves. `tables i` is
    the table that the `i`-th operation finds. -/
def readKeys (tables : Nat → Buckets) : List Key → Frame → Option (List StoreOp × Frame)
  | [], f => some ([], f)
  | k :: keys, f => do
      let f ← f.sprintf (readRecord k (StoreOp.exec (.pair (.read k)) (tables 0)).2.readValue)
      let (operations, f) ← readKeys (fun i => tables (i + 1)) keys f
      return (.pair (.read k) :: operations, f)

/-- The loop of `kvs_delete` over the keys. -/
def deleteKeys (tables : Nat → Buckets) : List Key → Frame → Option (List StoreOp × Frame)
  | [], f => some ([], f)
  | k :: keys, f => do
      let f ← f.reportMissing k (StoreOp.exec (.pair (.delete k)) (tables 0)).2.ret
      let (operations, f) ← deleteKeys (fun i => tables (i + 1)) keys f
      return (.pair (.delete k) :: operations, f)

/-- `kvs_read`, with what `buffer` holds before. -/
def kvsReadRun (tables : Nat → Buckets) (buffer : Vector Byte MAX_STRING_SIZE) (keys : List Key) :
    Option (List (Instr LockId StoreOp)) := do
  let (locked, hashed) := lockLoop (fun _ => false) keys
  let (operations, f) ← readKeys tables keys ⟨hashed, buffer.toList⟩
  return phases (locked.map (fun i => (.bucket i, .shared))) operations
    ((unlockLoop f.hashed).map .bucket)

/-- `kvs_delete`, with what `buffer` holds before. -/
def kvsDeleteRun (tables : Nat → Buckets) (buffer : Vector Byte MAX_STRING_SIZE) (keys : List Key) :
    Option (List (Instr LockId StoreOp)) := do
  let (locked, hashed) := lockLoop (fun _ => false) keys
  let (operations, f) ← deleteKeys tables keys ⟨hashed, buffer.toList⟩
  return phases ((LockId.rwlock, Mode.shared) :: locked.map (fun i => (.bucket i, .exclusive)))
    operations ((unlockLoop f.hashed).map .bucket ++ [.rwlock])

end Kvs.Server
