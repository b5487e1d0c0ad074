import Kvs.Lib.Workload
import Kvs.Server.Jobs
import Kvs.Server.Sequential

/-!
# `Server.Pool` — the worker threads at work

`thread_process_files` together with the commands of the files it hands to `process_job_file`. A thread
that calls `process_job_file` on a file runs the commands of that file, one step of `Lib.LockSystem` at a
time, and goes back to the list of files when none is left. Everything is interleaved with the steps of
the other threads. The machine is a parameter: the threads of exercise 3 draw their files in the same
way.

A file is known by the commands that the parser finds in it (`jobCommands`); a file that cannot be
opened has none.

## Contents
- **Files.** `JobCmd.toWorker`, `workerCommands`, `jobCommands`.
- **Threads.** `PoolState`, `stepPool`.
- **Results.** What the commands of a file returned, the bytes of its output file and of its backups.
-/

namespace Kvs.Server

open Locking

/-! ## Files -/

/-- The key of a string that starts with a letter or a digit. -/
def Key.ofStr (s : CStr) : Option Key :=
  if h : isAlnum (s.bytes.headD 0) = true then some ⟨s, h⟩ else none

/-- A parsed command as the threads run it, or nothing when it does not concern the table; no value when
    a string of it is not a key. -/
def JobCmd.toWorker (mem : Nat → Garbage) : JobCmd → Option (Option WorkerCmd)
  | .write pairs => do
      let pairs ← pairs.mapM (fun p => (Key.ofStr p.1).map (fun k => (k, p.2)))
      return some (.cmdWrite pairs mem)
  | .read keys => do
      let keys ← keys.mapM Key.ofStr
      return some (.cmdRead keys)
  | .delete keys => do
      let keys ← keys.mapM Key.ofStr
      return some (.cmdDelete keys)
  | .showAll => some (some .cmdShow)
  | .wait _ => some none
  | .backup => some (some .cmdBackup)
  | .help => some none
  | .empty => some none
  | .invalid => some none

/-- The commands of the rounds; `mem i` is the memory that the `i`-th round allocates. -/
def workerCommands (mem : Nat → Nat → Garbage) : List JobCmd → Option (List WorkerCmd)
  | [] => some []
  | command :: commands => do
      let first ← command.toWorker (mem 0)
      let rest ← workerCommands (fun i => mem (i + 1)) commands
      return first.toList ++ rest

/-- The commands of a file with these bytes. -/
def jobCommands (stack : Nat → List Byte) (mem : Nat → Nat → Garbage) (file : Stream) :
    Option (List WorkerCmd) :=
  workerCommands mem (jobLoop stack file).1

/-! ## Threads -/

/-- Where the threads stand in `thread_process_files`, and in the commands of their files. -/
structure PoolState (T : Type) (K Op Cmd S Out : Type*) where
  jobs : JobsState T
  commands : State T K Op (Line Cmd) S Out

variable {T : Type} {K Op Cmd S Out : Type*}

namespace PoolState

/-- After a successful `process_job_directory`, on the store `σ`. -/
def init (σ : S) : PoolState T K Op Cmd S Out := ⟨.init, State.init σ (fun _ => [])⟩

/-- What the commands of a file returned, in the order in which they were run. -/
def results (s : PoolState T K Op Cmd S Out) (file : Nat) : List (Cmd × List Out) :=
  (s.jobs.handed.filter (fun h => h.2 = file)).flatMap (fun h =>
    ((s.commands.threads h.1).finished.filter (fun f => f.1.job = file)).map
      (fun f => (f.1.cmd, f.2)))

end PoolState

/-- The call of `process_job_file`: the thread has the commands of the file to run. -/
def handFile [DecidableEq T] (files : List (List Cmd)) (t : T) (i : Nat) (u : T) : List (Line Cmd) :=
  if u = t then linesOf i (files.getD i []) else []

/-- The next step of thread `t`; `none` when it waits for a lock or has ended. -/
def stepPool [DecidableEq T] [DecidableEq K] (M : Machine K Op Cmd S Out) (files : List (List Cmd))
    (s : PoolState T K Op Cmd S Out) (t : T) : Option (PoolState T K Op Cmd S Out) :=
  match s.jobs.threads t with
  | .call i =>
      (stepJobs files.length s.jobs t).map (fun jobs => ⟨jobs, s.commands.assign (handFile files t i)⟩)
  | .processing _ =>
      if (s.commands.threads t).Idle then
        (stepJobs files.length s.jobs t).map (fun jobs => { s with jobs := jobs })
      else (step M.onLines t s.commands).map (fun commands => { s with commands := commands })
  | _ => (stepJobs files.length s.jobs t).map (fun jobs => { s with jobs := jobs })

/-! ## Results -/

/-- The bytes of the `.out` file of a job file. -/
def outFile (s : PoolState T LockId StoreOp WorkerCmd Buckets StoreOut) (file : Nat) : List Byte :=
  (s.results file).flatMap (fun r => r.1.output r.2)

/-- The bytes of its `-1.bck`, `-2.bck` and so on: each child prints the copy it has. -/
def backupFiles (s : PoolState T LockId StoreOp WorkerCmd Buckets StoreOut) (file : Nat) :
    List (List Byte) :=
  (s.results file).flatMap (fun r => (r.2.filterMap StoreOut.copy).map showTable)

end Kvs.Server
