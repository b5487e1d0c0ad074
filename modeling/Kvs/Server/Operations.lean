import Kvs.Lib.TwoPhase
import Kvs.Server.Sort
import Kvs.Server.Table

/-!
# `Server.Operations` — the commands of a job as the worker threads run them

`kvs_write`, `kvs_read`, `kvs_delete` and `kvs_show` of `operations.c` and the `CMD_BACKUP` case of
`process_job_file`, compiled to the atomic steps of `Lib.LockSystem`: one acquisition of a lock, one pair
operation, one `fork`, one bucket printed, one lock given back, in the order of the code. The store is
the array of buckets.

## Contents
- **Locks and steps.** `LockId`, `StoreOp`, `StoreOut`, `StoreOp.exec`.
- **Commands.** `lockLoop`, `unlockLoop`, `kvsWrite`, `kvsRead`, `kvsDelete`, `kvsShow`, `kvsBackup`;
  `WorkerCmd` and `worker`, the machine they run on.
- **Output.** The bytes a command writes to the job's output file, from what its steps returned.
-/

namespace Kvs.Server

open Locking

/-! ## Locks and steps -/

/-- The locks of `ThreadData` that the commands take. -/
inductive LockId where
  | backupMutex
  | rwlock
  | bucket (i : Fin TABLE_SIZE)
  deriving DecidableEq

abbrev Buckets := Fin TABLE_SIZE → List KeyNode

/-- A step on the table: a pair operation, the copy a `fork` takes, or one bucket printed. -/
inductive StoreOp where
  | pair (op : PairOp)
  | fork
  | showBucket (i : Fin TABLE_SIZE)
  deriving DecidableEq

/-- What a step returns. -/
inductive StoreOut where
  | pair (result : PairResult)
  | snapshot (table : Buckets)
  | shown (text : List Byte)

/-- `"(%s, %s)\n"` -/
def showNode (keyNode : KeyNode) : List Byte :=
  ascii "(" ++ keyNode.key.bytes ++ ascii ", " ++ keyNode.value.bytes ++ ascii ")\n"

/-- The inner loop of `kvs_show`. -/
def showNodes (bucket : List KeyNode) : List Byte := bucket.flatMap showNode

/-- All that `kvs_show` prints when nothing happens meanwhile. -/
def showTable (table : Buckets) : List Byte :=
  (List.finRange TABLE_SIZE).flatMap (fun i => showNodes (table i))

def StoreOp.exec : StoreOp → Buckets → Buckets × StoreOut
  | .pair op, table => ((op.apply ⟨table⟩).1.table, .pair (op.apply ⟨table⟩).2)
  | .fork, table => (table, .snapshot table)
  | .showBucket i, table => (table, .shown (showNodes (table i)))

/-! ## Commands -/

/-- `hashed`: the buckets whose lock the command has taken. -/
abbrev Hashed := Fin TABLE_SIZE → Bool

/-- The first loop of `kvs_write`, `kvs_read` and `kvs_delete`: the buckets whose locks it takes, in
    order, and the marks it leaves. -/
def lockLoop (hashed : Hashed) : List Key → List (Fin TABLE_SIZE) × Hashed
  | [] => ([], hashed)
  | k :: keys =>
      if hashed k.bucket then lockLoop hashed keys
      else
        let (locked, hashed') := lockLoop (Function.update hashed k.bucket true) keys
        (k.bucket :: locked, hashed')

/-- The last loop of the three: the buckets whose locks it gives back, in order. -/
def unlockLoop (hashed : Hashed) : List (Fin TABLE_SIZE) := (List.finRange TABLE_SIZE).filter hashed

theorem lockLoop_marked (keys : List Key) (hashed : Hashed) (i : Fin TABLE_SIZE) :
    (lockLoop hashed keys).2 i = true ↔ hashed i = true ∨ i ∈ keys.map Key.bucket := by
  induction keys generalizing hashed with
  | nil => simp [lockLoop]
  | cons k keys ih =>
      rw [lockLoop, List.map_cons, List.mem_cons]
      by_cases hk : hashed k.bucket = true
      · rw [if_pos hk, ih]
        constructor
        · rintro (h | h)
          · exact Or.inl h
          · exact Or.inr (Or.inr h)
        · rintro (h | rfl | h)
          · exact Or.inl h
          · exact Or.inl hk
          · exact Or.inr h
      · rw [if_neg hk]
        show (lockLoop (Function.update hashed k.bucket true) keys).2 i = true ↔ _
        rw [ih]
        by_cases hi : i = k.bucket
        · subst hi
          simp
        · simp [hi]

/-- The locks taken are those of the buckets not marked before. -/
theorem lockLoop_mem (keys : List Key) (hashed : Hashed) (i : Fin TABLE_SIZE) :
    i ∈ (lockLoop hashed keys).1 ↔ hashed i = false ∧ i ∈ keys.map Key.bucket := by
  induction keys generalizing hashed with
  | nil => simp [lockLoop]
  | cons k keys ih =>
      rw [lockLoop, List.map_cons, List.mem_cons]
      by_cases hk : hashed k.bucket = true
      · rw [if_pos hk, ih]
        by_cases hi : i = k.bucket
        · subst hi
          simp [hk]
        · simp [hi]
      · rw [if_neg hk]
        show i ∈ k.bucket :: (lockLoop (Function.update hashed k.bucket true) keys).1 ↔ _
        rw [List.mem_cons, ih]
        by_cases hi : i = k.bucket
        · subst hi
          simpa using hk
        · simp [hi]

/-- No lock is taken twice. -/
theorem lockLoop_nodup (keys : List Key) (hashed : Hashed) : (lockLoop hashed keys).1.Nodup := by
  induction keys generalizing hashed with
  | nil => exact List.nodup_nil
  | cons k keys ih =>
      rw [lockLoop]
      by_cases hk : hashed k.bucket = true
      · rw [if_pos hk]
        exact ih hashed
      · rw [if_neg hk]
        refine List.nodup_cons.mpr ⟨?_, ih _⟩
        rw [lockLoop_mem]
        simp

/-- The locks are taken in the order of the buckets when a key whose bucket comes below that of a key
    before it finds its lock taken. -/
theorem lockLoop_sorted {keys : List Key} {hashed : Hashed}
    (h : ∀ pre k post, keys = pre ++ k :: post → ∀ j ∈ post, j.bucket < k.bucket →
      hashed j.bucket = true ∨ j.bucket ∈ pre.map Key.bucket) :
    (lockLoop hashed keys).1.Pairwise (· < ·) := by
  induction keys generalizing hashed with
  | nil => exact List.Pairwise.nil
  | cons k keys ih =>
      -- what is marked or was passed before `k` is marked or was passed, counting `k`, after it
      have hrest : ∀ hashed' : Hashed, hashed' k.bucket = true →
          (∀ i, hashed i = true → hashed' i = true) →
          (lockLoop hashed' keys).1.Pairwise (· < ·) := by
        intro hashed' hk hmono
        refine ih (fun pre k' post heq j hj hlt => ?_)
        rcases h (k :: pre) k' post (by simp [heq]) j hj hlt with hm | hm
        · exact Or.inl (hmono _ hm)
        · rw [List.map_cons, List.mem_cons] at hm
          rcases hm with hm | hm
          · exact Or.inl (hm ▸ hk)
          · exact Or.inr hm
      rw [lockLoop]
      by_cases hk : hashed k.bucket = true
      · rw [if_pos hk]
        exact hrest hashed hk (fun _ hi => hi)
      · rw [if_neg hk]
        refine List.pairwise_cons.mpr ⟨fun i hi => ?_, hrest _ (by simp) (fun i hi => ?_)⟩
        · obtain ⟨hnew, hmem⟩ := (lockLoop_mem keys _ i).mp hi
          obtain ⟨j, hj, rfl⟩ := List.mem_map.mp hmem
          have hne : j.bucket ≠ k.bucket := by
            intro heq
            simp [heq] at hnew
          rw [Function.update_of_ne hne] at hnew
          rcases lt_or_ge j.bucket k.bucket with hlt | hge
          · rcases h [] k keys rfl j hj hlt with hm | hm
            · exact absurd (hm.symm.trans hnew) (by simp)
            · exact absurd hm (by simp)
          · exact lt_of_le_of_ne hge hne.symm
        · by_cases hik : i = k.bucket
          · simp [hik]
          · rwa [Function.update_of_ne hik]

/-- The last loop gives back what the first took. -/
theorem unlockLoop_perm (keys : List Key) :
    (unlockLoop (lockLoop (fun _ => false) keys).2).Perm (lockLoop (fun _ => false) keys).1 := by
  apply (List.perm_ext_iff_of_nodup ((List.nodup_finRange _).filter _) (lockLoop_nodup _ _)).mpr
  intro i
  rw [List.mem_filter, lockLoop_marked, lockLoop_mem]
  simp

/-- The calls of `write_pair`; `mem i` is what the memory of the `i`-th pair's node holds, should it be
    allocated. -/
def writeCalls (pairs : List (Key × CStr)) (mem : Nat → Garbage) : List PairOp :=
  pairs.mapIdx (fun i p => .write p.1 p.2 (mem i))

def kvsWrite (pairs : List (Key × CStr)) (mem : Nat → Garbage) : List (Instr LockId StoreOp) :=
  let (locked, hashed) := lockLoop (fun _ => false) (pairs.map Prod.fst)
  phases ((LockId.rwlock, Mode.shared) :: locked.map (fun i => (.bucket i, .exclusive)))
    ((writeCalls pairs mem).map .pair)
    ((unlockLoop hashed).map .bucket ++ [.rwlock])

def kvsRead (keys : List Key) : List (Instr LockId StoreOp) :=
  let (locked, hashed) := lockLoop (fun _ => false) keys
  phases (locked.map (fun i => (.bucket i, .shared)))
    ((keys.map PairOp.read).map .pair)
    ((unlockLoop hashed).map .bucket)

def kvsDelete (keys : List Key) : List (Instr LockId StoreOp) :=
  let (locked, hashed) := lockLoop (fun _ => false) keys
  phases ((LockId.rwlock, Mode.shared) :: locked.map (fun i => (.bucket i, .exclusive)))
    ((keys.map PairOp.delete).map .pair)
    ((unlockLoop hashed).map .bucket ++ [.rwlock])

def kvsShow (useRwlock : Bool) : List (Instr LockId StoreOp) :=
  phases (if useRwlock then [(.rwlock, .exclusive)] else [])
    ((List.finRange TABLE_SIZE).map .showBucket)
    (if useRwlock then [.rwlock] else [])

/-- `CMD_BACKUP`: the child of the `fork` prints its copy, the parent goes on at once. A mutex is a lock
    that is only taken exclusively. -/
def kvsBackup : List (Instr LockId StoreOp) :=
  phases ((.backupMutex, .exclusive) ::
      (List.finRange TABLE_SIZE).map (fun i => (.bucket i, .shared)))
    [.fork]
    ((List.finRange TABLE_SIZE).map .bucket ++ [.backupMutex])

/-- `insertionSort(keys, values, num_pairs)` on the pairs of a `WRITE`. -/
def sortPairs (pairs : List (Key × CStr)) : List (Key × CStr) :=
  sortRows (fun j k => strcmp j.str k.str) pairs

/-- `insertionSort(keys, values, num_pairs)` on the keys of a `READ` or a `DELETE`: the values beside
    them are left over from earlier commands and only follow. -/
def sortKeys (keys : List Key) : List Key :=
  (sortRows (fun j k => strcmp j.str k.str) (keys.map (fun k => (k, ())))).map Prod.fst

/-- A command of a job that works on the table, its keys as the parser stored them. -/
inductive WorkerCmd where
  | cmdWrite (pairs : List (Key × CStr)) (mem : Nat → Garbage)
  | cmdRead (keys : List Key)
  | cmdDelete (keys : List Key)
  | cmdShow
  | cmdBackup

/-- The keys a command names. -/
def WorkerCmd.keys : WorkerCmd → List Key
  | .cmdWrite pairs _ => pairs.map Prod.fst
  | .cmdRead keys => keys
  | .cmdDelete keys => keys
  | .cmdShow => []
  | .cmdBackup => []

def WorkerCmd.isShow : WorkerCmd → Bool
  | .cmdShow => true
  | _ => false

/-- The case of `process_job_file` for each command. -/
def processCommand : WorkerCmd → List (Instr LockId StoreOp)
  | .cmdWrite pairs mem => kvsWrite (sortPairs pairs) mem
  | .cmdRead keys => kvsRead (sortKeys keys)
  | .cmdDelete keys => kvsDelete (sortKeys keys)
  | .cmdShow => kvsShow false
  | .cmdBackup => kvsBackup

/-- The worker threads: commands compiled to steps on the buckets. -/
def worker : Machine LockId StoreOp WorkerCmd Buckets StoreOut where
  code := processCommand
  exec := StoreOp.exec

/-! ## Output -/

/-- `"(%s,%s)"` with the value read, or `KVSERROR`. -/
def readRecord (k : Key) (result : Option CStr) : List Byte :=
  ascii "(" ++ k.str.bytes ++ ascii "," ++
    (match result with
      | some value => value.bytes
      | none => ascii "KVSERROR") ++ ascii ")"

/-- `"(%s,KVSMISSING)"` -/
def missingRecord (k : Key) : List Byte := ascii "(" ++ k.str.bytes ++ ascii ",KVSMISSING)"

/-- What `kvs_read` writes to the output file. -/
def readText (results : List (Key × Option CStr)) : List Byte :=
  ascii "[" ++ results.flatMap (fun r => readRecord r.1 r.2) ++ ascii "]\n"

/-- What `kvs_delete` writes: the brackets come with the first missing key. -/
def deleteText (results : List (Key × Int)) : List Byte :=
  let missing := results.filter (fun r => r.2 ≠ 0)
  if missing.isEmpty then []
  else ascii "[" ++ missing.flatMap (fun r => missingRecord r.1) ++ ascii "]\n"

def StoreOut.readValue : StoreOut → Option CStr
  | .pair (.read value) => value
  | _ => none

def StoreOut.ret : StoreOut → Int
  | .pair (.deleted ret) => ret
  | _ => 0

def StoreOut.text : StoreOut → List Byte
  | .shown text => text
  | _ => []

/-- The bytes a command writes to the output file, from what its steps returned. -/
def WorkerCmd.output : WorkerCmd → List StoreOut → List Byte
  | .cmdWrite _ _, _ => []
  | .cmdRead keys, outs => readText ((sortKeys keys).zip (outs.map StoreOut.readValue))
  | .cmdDelete keys, outs => deleteText ((sortKeys keys).zip (outs.map StoreOut.ret))
  | .cmdShow, outs => outs.flatMap StoreOut.text
  | .cmdBackup, _ => []

/-- The copies the children of a command print. -/
def StoreOut.copy : StoreOut → Option Buckets
  | .snapshot table => some table
  | _ => none

/-! ## Commands on one-letter keys, for two threads -/

def keyA : Key := Key.lit "a" (by decide) (by decide)

def keyB : Key := Key.lit "b" (by decide) (by decide)

def keyUpperA : Key := Key.lit "A" (by decide) (by decide)

def keyUpperB : Key := Key.lit "B" (by decide) (by decide)

/-- `WRITE [(k,1)...]`, into memory that is zero. -/
def writeOnes (keys : List Key) : WorkerCmd :=
  .cmdWrite (keys.map (fun k => (k, ⟨ascii "1", by decide⟩)))
    (fun _ => Vector.replicate MAX_SESSION_COUNT 0)

/-- The commands of two threads. -/
def twoThreads (first second : List WorkerCmd) : Fin 2 → List WorkerCmd
  | 0 => first
  | 1 => second

end Kvs.Server
