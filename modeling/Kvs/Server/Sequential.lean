import Kvs.Server.Operations
import Kvs.Server.Parser
import Kvs.Server.Subscribers

/-!
# `Server.Sequential` — the commands of a job on one thread

With nobody else about, the code that `Server.Operations` compiles a command to is a list of calls of
the pair operations (`runCode_pairs`). The second half runs the same functions on strings that need not
be keys, as the parser delivers them: wherever the code subscripts `hashed`, `rwlock_array` or
`ht->table` with what `hash` returned, a subscript outside the array ends the run (`none`). On keys the
two agree (`Sequential.processCommand_worker`).

`Sequential.World` has all that a command of a job can reach: the table, the descriptors of the clients'
pipes, and the output file of the job.
-/

namespace Kvs.Server

open Locking

/-! ## Calls of the pair operations in a row -/

/-- The calls one after the other, on keys. -/
def runPairs : List PairOp → HashTable → HashTable × List PairResult
  | [], ht => (ht, [])
  | op :: ops, ht =>
      let (ht', results) := runPairs ops (op.apply ht).1
      (ht', (op.apply ht).2 :: results)

/-- The calls that a command makes. -/
def WorkerCmd.calls : WorkerCmd → List PairOp
  | .cmdWrite pairs mem => writeCalls (sortPairs pairs) mem
  | .cmdRead keys => (sortKeys keys).map .read
  | .cmdDelete keys => (sortKeys keys).map .delete
  | .cmdShow => []
  | .cmdBackup => []

theorem runCode_performs (ops : List PairOp) (ht : HashTable) :
    runCode worker ((ops.map StoreOp.pair).map .perform) ht.table
      = ((runPairs ops ht).1.table, (runPairs ops ht).2.map .pair) := by
  induction ops generalizing ht with
  | nil => rfl
  | cons op ops ih =>
      have hexec : worker.exec (.pair op) ht.table = ((op.apply ht).1.table, .pair (op.apply ht).2) := rfl
      simp only [List.map_cons, runCode, hexec, ih, runPairs]

/-- **A command alone** makes its calls one after the other. -/
theorem runCode_pairs {c : WorkerCmd} (hshow : c.isShow = false) (hbackup : c ≠ .cmdBackup)
    (ht : HashTable) :
    runCode worker (processCommand c) ht.table
      = ((runPairs c.calls ht).1.table, (runPairs c.calls ht).2.map .pair) := by
  rw [← runCode_performs]
  cases c with
  | cmdWrite pairs mem => exact runCode_phases worker _ _ _ _
  | cmdRead keys =>
      rw [processCommand, kvsRead]
      exact runCode_phases worker _ _ _ _
  | cmdDelete keys => exact runCode_phases worker _ _ _ _
  | cmdShow => exact absurd hshow (by simp [WorkerCmd.isShow])
  | cmdBackup => exact absurd rfl hbackup

/-- `SHOW` alone prints the table. -/
theorem runCode_show (ht : HashTable) :
    runCode worker (processCommand .cmdShow) ht.table
      = (ht.table, (List.finRange TABLE_SIZE).map (fun i => .shown (showNodes (ht.table i)))) := by
  rw [processCommand, kvsShow, runCode_phases, runCode_readonly, List.map_map]
  · rfl
  · rintro o ho table
    obtain ⟨i, _, rfl⟩ := List.mem_map.mp ho
    rfl

/-- `BACKUP` alone copies the table. -/
theorem runCode_backup (ht : HashTable) :
    runCode worker (processCommand .cmdBackup) ht.table = (ht.table, [.snapshot ht.table]) := by
  rw [processCommand, kvsBackup, runCode_phases]
  rfl

theorem runCode_table (c : WorkerCmd) (ht : HashTable) :
    (runCode worker (processCommand c) ht.table).1 = (runPairs c.calls ht).1.table := by
  cases c with
  | cmdWrite pairs mem => rw [runCode_pairs rfl (by simp)]
  | cmdRead keys => rw [runCode_pairs rfl (by simp)]
  | cmdDelete keys => rw [runCode_pairs rfl (by simp)]
  | cmdShow => exact congrArg Prod.fst (runCode_show ht)
  | cmdBackup => exact congrArg Prod.fst (runCode_backup ht)

theorem apply_read (k : Key) (ht : HashTable) : (PairOp.apply (.read k) ht).1 = ht := by
  apply HashTable.ext
  simp [PairOp.apply, PairOp.onBucket, PairOp.key, HashTable.set]

theorem runPairs_reads (keys : List Key) (ht : HashTable) :
    (runPairs (keys.map .read) ht).1 = ht := by
  induction keys with
  | nil => rfl
  | cons k keys ih =>
      rw [List.map_cons, runPairs, apply_read]
      exact ih

/-! ## Strings that need not be keys -/

/-- The strings a command names. -/
def JobCmd.keys : JobCmd → List CStr
  | .write pairs => pairs.map Prod.fst
  | .read keys => keys
  | .delete keys => keys
  | .showAll => []
  | .wait _ => []
  | .backup => []
  | .help => []
  | .empty => []
  | .invalid => []

/-- A command as the parser delivers it. -/
def WorkerCmd.toJob : WorkerCmd → JobCmd
  | .cmdWrite pairs _ => .write (pairs.map (fun p => (p.1.str, p.2)))
  | .cmdRead keys => .read (keys.map Key.str)
  | .cmdDelete keys => .delete (keys.map Key.str)
  | .cmdShow => .showAll
  | .cmdBackup => .backup

namespace Sequential

/-- The first loop of `kvs_write`, `kvs_read` and `kvs_delete`: `hashed` and `rwlock_array` are
    subscripted with the hash of each string. -/
def markLoop (hashed : Hashed) : List CStr → Option Hashed
  | [] => some hashed
  | key :: keys => do
      let index ← subscript (hash key)
      markLoop (Function.update hashed index true) keys

/-- The calls of `write_pair`, from the `i`-th on. -/
def writeLoop (mem : Nat → Garbage) : Nat → List (CStr × CStr) → HashTable → Option HashTable
  | _, [], ht => some ht
  | i, (key, value) :: pairs, ht => do
      let (ht', _) ← writePair ht key value (mem i)
      writeLoop mem (i + 1) pairs ht'

/-- The calls of `read_pair`, each with the string it is about. -/
def readLoop (ht : HashTable) : List CStr → Option (List (CStr × Option CStr))
  | [] => some []
  | key :: keys => do
      let value ← readPair ht key
      let results ← readLoop ht keys
      return (key, value) :: results

/-- The calls of `delete_pair`, each with the string it is about. -/
def deleteLoop : List CStr → HashTable → Option (HashTable × List (CStr × Int))
  | [], ht => some (ht, [])
  | key :: keys, ht => do
      let (ht', ret) ← deletePair ht key
      let (ht'', results) ← deleteLoop keys ht'
      return (ht'', (key, ret) :: results)

/-- `"(%s,%s)"` with the value read, or `KVSERROR`. -/
def readRecord (key : CStr) (result : Option CStr) : List Byte :=
  ascii "(" ++ key.bytes ++ ascii "," ++
    (match result with
      | some value => value.bytes
      | none => ascii "KVSERROR") ++ ascii ")"

/-- `"(%s,KVSMISSING)"` -/
def missingRecord (key : CStr) : List Byte := ascii "(" ++ key.bytes ++ ascii ",KVSMISSING)"

/-- What a command writes to the output file of its job. -/
inductive Report where
  | read (results : List (CStr × Option CStr))
  | deleted (missing : List CStr)
  | shown (table : Buckets)

/-- The bytes of it. The brackets of a `DELETE` come with the first missing key. -/
def Report.text : Report → List Byte
  | .read results => ascii "[" ++ results.flatMap (fun r => readRecord r.1 r.2) ++ ascii "]\n"
  | .deleted missing =>
      if missing.isEmpty then [] else ascii "[" ++ missing.flatMap missingRecord ++ ascii "]\n"
  | .shown table => showTable table

/-- The table, the writes to the pipes of clients, and what the commands wrote to the output file. -/
structure World where
  table : HashTable
  sent : Sent
  output : List Report

/-- The keys whose `delete_pair` did not return 0. -/
def missingKeys (results : List (CStr × Int)) : List CStr :=
  (results.filter (fun r => r.2 ≠ 0)).map Prod.fst

def kvsWrite (pairs : List (CStr × CStr)) (mem : Nat → Garbage) (w : World) : Option World := do
  let _ ← markLoop (fun _ => false) (pairs.map Prod.fst)
  let table ← writeLoop mem 0 pairs w.table
  return { w with table := table }

def kvsRead (keys : List CStr) (w : World) : Option World := do
  let _ ← markLoop (fun _ => false) keys
  let results ← readLoop w.table keys
  return { w with output := w.output ++ [.read results] }

def kvsDelete (keys : List CStr) (w : World) : Option World := do
  let _ ← markLoop (fun _ => false) keys
  let (table, results) ← deleteLoop keys w.table
  return { w with table := table, output := w.output ++ [.deleted (missingKeys results)] }

/-- A round of `process_job_file`, its keys sorted first. The children of a `BACKUP` write elsewhere. -/
def processCommand (mem : Nat → Garbage) : JobCmd → World → Option World
  | .write pairs, w => kvsWrite (sortRows strcmp pairs) mem w
  | .read keys, w => kvsRead ((sortRows strcmp (keys.map (fun k => (k, ())))).map Prod.fst) w
  | .delete keys, w => kvsDelete ((sortRows strcmp (keys.map (fun k => (k, ())))).map Prod.fst) w
  | .showAll, w => some { w with output := w.output ++ [.shown w.table.table] }
  | .wait _, w => some w
  | .backup, w => some w
  | .help, w => some w
  | .empty, w => some w
  | .invalid, w => some w

/-- The rounds in a row; `mem i` is the memory that the `i`-th command allocates. -/
def processCommands (mem : Nat → Nat → Garbage) : List JobCmd → World → Option World
  | [], w => some w
  | command :: commands, w => do
      let w' ← processCommand (mem 0) command w
      processCommands (fun i => mem (i + 1)) commands w'

/-- `process_job_file` on a file with these bytes; `stack i` is what a `read_uint` of round `i` finds on
    the stack. -/
def processJobFile (stack : Nat → List Byte) (mem : Nat → Nat → Garbage) (file : Stream) (w : World) :
    Option World :=
  processCommands mem (jobLoop stack file).1 w

/-! ## On keys -/

theorem markLoop_keys (hashed : Hashed) (keys : List Key) :
    markLoop hashed (keys.map Key.str) = some (lockLoop hashed keys).2 := by
  induction keys generalizing hashed with
  | nil => rfl
  | cons k keys ih =>
      simp only [List.map_cons, markLoop, subscript_hash, Option.bind_eq_bind, Option.bind_some, ih,
        lockLoop]
      by_cases hk : hashed k.bucket = true
      · -- a mark that is there already
        have hsame : Function.update hashed k.bucket true = hashed := by
          rw [← hk, Function.update_eq_self]
        rw [if_pos hk, hsame]
      · rw [if_neg hk]

theorem writeLoop_keys (mem : Nat → Garbage) (i : Nat) (pairs : List (Key × CStr)) (ht : HashTable) :
    writeLoop mem i (pairs.map (fun p => (p.1.str, p.2))) ht
      = some (runPairs (pairs.mapIdx (fun j p => .write p.1 p.2 (mem (i + j)))) ht).1 := by
  induction pairs generalizing i ht with
  | nil => rfl
  | cons p pairs ih =>
      have hmem : (fun j (p : Key × CStr) => PairOp.write p.1 p.2 (mem (i + (j + 1))))
          = fun j p => .write p.1 p.2 (mem (i + 1 + j)) := by
        funext j p
        rw [Nat.add_right_comm, Nat.add_assoc i j 1]
      simp only [List.map_cons, List.mapIdx_cons, writeLoop, writePair_key, Option.bind_eq_bind,
        Option.bind_some, ih, runPairs, Nat.add_zero, hmem]
      rfl

theorem readLoop_keys (ht : HashTable) (keys : List Key) :
    readLoop ht (keys.map Key.str)
      = some ((keys.map Key.str).zip
          ((runPairs (keys.map .read) ht).2.map (fun r => (StoreOut.pair r).readValue))) := by
  induction keys with
  | nil => rfl
  | cons k keys ih =>
      simp only [List.map_cons, readLoop, readPair_key, Option.bind_eq_bind, Option.bind_some, ih,
        runPairs, apply_read]
      rfl

theorem deleteLoop_keys (keys : List Key) (ht : HashTable) :
    deleteLoop (keys.map Key.str) ht
      = some ((runPairs (keys.map .delete) ht).1, (keys.map Key.str).zip
          ((runPairs (keys.map .delete) ht).2.map (fun r => (StoreOut.pair r).ret))) := by
  induction keys generalizing ht with
  | nil => rfl
  | cons k keys ih =>
      simp only [List.map_cons, deleteLoop, deletePair_key, Option.bind_eq_bind, Option.bind_some, ih,
        runPairs]
      rfl

theorem read_text (keys : List Key) (values : List (Option CStr)) :
    (Report.read ((keys.map Key.str).zip values)).text = readText (keys.zip values) := by
  rw [Report.text, readText, List.zip_map_left, List.flatMap_map]
  rfl

theorem deleted_text (keys : List Key) (rets : List Int) :
    (Report.deleted (missingKeys ((keys.map Key.str).zip rets))).text = deleteText (keys.zip rets) := by
  rw [Report.text, deleteText, missingKeys, List.zip_map_left]
  simp only [List.filter_map, List.isEmpty_map, List.flatMap_map]
  rfl

theorem kvsWrite_keys (pairs : List (Key × CStr)) (mem : Nat → Garbage) (w : World) :
    kvsWrite (pairs.map (fun p => (p.1.str, p.2))) mem w
      = some { w with table := (runPairs (writeCalls pairs mem) w.table).1 } := by
  have hkeys : (pairs.map (fun p : Key × CStr => (p.1.str, p.2))).map Prod.fst
      = (pairs.map Prod.fst).map Key.str := by
    rw [List.map_map, List.map_map]
    rfl
  simp only [kvsWrite, hkeys, markLoop_keys, writeLoop_keys, Option.bind_eq_bind, Option.bind_some,
    Nat.zero_add, writeCalls]
  rfl

theorem kvsRead_keys (keys : List Key) (w : World) :
    kvsRead (keys.map Key.str) w
      = some { w with output := w.output ++ [.read ((keys.map Key.str).zip
          ((runPairs (keys.map .read) w.table).2.map (fun r => (StoreOut.pair r).readValue)))] } := by
  simp only [kvsRead, markLoop_keys, readLoop_keys, Option.bind_eq_bind, Option.bind_some]
  rfl

theorem kvsDelete_keys (keys : List Key) (w : World) :
    kvsDelete (keys.map Key.str) w
      = some { w with
          table := (runPairs (keys.map .delete) w.table).1
          output := w.output ++ [.deleted (missingKeys ((keys.map Key.str).zip
            ((runPairs (keys.map .delete) w.table).2.map (fun r => (StoreOut.pair r).ret))))] } := by
  simp only [kvsDelete, markLoop_keys, deleteLoop_keys, Option.bind_eq_bind, Option.bind_some]
  rfl

/-- Sorting the keys of a command is sorting their strings. -/
theorem sorted_strs {ν : Type} [Inhabited ν] (rows : List (Key × ν)) :
    sortRows strcmp (rows.map (fun p => (p.1.str, p.2)))
      = (sortRows (fun j k : Key => strcmp j.str k.str) rows).map (fun p => (p.1.str, p.2)) :=
  (map_sortRows (fun p : Key × ν => (p.1.str, p.2)) (fun _ _ => rfl) rows).symm

theorem sorted_keys (keys : List Key) :
    (sortRows strcmp ((keys.map Key.str).map (fun k => (k, ())))).map Prod.fst
      = (sortKeys keys).map Key.str := by
  have hload : (keys.map Key.str).map (fun k => (k, ()))
      = (keys.map (fun k => (k, ()))).map (fun p : Key × Unit => (p.1.str, p.2)) := by
    rw [List.map_map, List.map_map]
    rfl
  rw [hload, sorted_strs, sortKeys, List.map_map, List.map_map]
  rfl

/-- **On keys**, a command run alone leaves the table, and writes the bytes, of the code that the worker
    threads run. -/
theorem processCommand_worker (mem : Nat → Garbage) (command : WorkerCmd)
    (hmem : ∀ pairs m, command = .cmdWrite pairs m → mem = m) (w : World) :
    ∃ w', processCommand mem command.toJob w = some w' ∧
      w'.table.table = (runCode worker (Server.processCommand command) w.table.table).1 ∧
      w'.output.flatMap Report.text = w.output.flatMap Report.text ++
        command.output (runCode worker (Server.processCommand command) w.table.table).2 := by
  cases command with
  | cmdWrite pairs m =>
      obtain rfl := hmem pairs m rfl
      rw [runCode_pairs rfl (by simp)]
      refine ⟨_, (congrArg (kvsWrite · mem w) (sorted_strs pairs)).trans (kvsWrite_keys _ mem w), rfl, ?_⟩
      simp [WorkerCmd.output]
  | cmdRead keys =>
      rw [runCode_pairs rfl (by simp)]
      refine ⟨_, (congrArg (kvsRead · w) (sorted_keys keys)).trans (kvsRead_keys _ w), ?_, ?_⟩
      · exact (congrArg HashTable.table (runPairs_reads (sortKeys keys) w.table)).symm
      · simp only [List.flatMap_append, List.flatMap_singleton, read_text, WorkerCmd.output,
          WorkerCmd.calls, List.map_map]
        rfl
  | cmdDelete keys =>
      rw [runCode_pairs rfl (by simp)]
      refine ⟨_, (congrArg (kvsDelete · w) (sorted_keys keys)).trans (kvsDelete_keys _ w), rfl, ?_⟩
      simp only [List.flatMap_append, List.flatMap_singleton, deleted_text, WorkerCmd.output,
        WorkerCmd.calls, List.map_map]
      rfl
  | cmdShow =>
      rw [runCode_show]
      refine ⟨_, rfl, rfl, ?_⟩
      simp [WorkerCmd.output, Report.text, showTable, StoreOut.text, List.flatMap_map]
  | cmdBackup =>
      rw [runCode_backup]
      exact ⟨w, rfl, rfl, by simp [WorkerCmd.output]⟩

end Sequential

/-! ## A table with one key -/

/-- Memory that is zero. -/
def zeroMem : Nat → Garbage := fun _ => Vector.replicate MAX_SESSION_COUNT 0

/-- The table after `WRITE [(a,1)]`. -/
def tableWithA : HashTable := (runPairs (writeCalls [(keyA, CStr.ofBuffer (ascii "1"))] zeroMem)
  createHashTable).1

end Kvs.Server
