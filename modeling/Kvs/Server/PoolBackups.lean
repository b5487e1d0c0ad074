import Kvs.Lib.LockTrace
import Kvs.Server.Backup
import Kvs.Server.Pool
import Kvs.Server.RecordBuffer

/-!
# `Server.PoolBackups` — the worker threads with their children and their buffers

`Server.Pool` runs the threads by their locks and the table. Here they also do what may keep one of them
from going on: `CMD_BACKUP` tests `active_backups` behind `backup_mutex` and may block in `wait(NULL)`,
a `fork` may fail, and `kvs_read` and `kvs_delete` format each record in an array that it may not fit.
Nothing is defined once a record has left its array, or `active_backups`, an `int`, its range.

The copy that a `fork` takes is in the results of the command, and a child that was made prints it; which
of them were made is not followed further than in the number of children. `total_backups` is left out: it
counts the `BACKUP`s of one file, for the names of its backups, and decides nothing.

## Contents
- **The state.** `BackupPool`, and `PoolState.rest`, what a thread has left of its command.
- **The steps.** `testLimit`, `overflows`, `forked`, `afterInstr`, `stepWorker`, `stepPoolBackups`, `Halted`.
- **Inversion.** `PoolBackupsStep`.
-/

namespace Kvs.Server

open Locking

variable {T : Type} {K Op Cmd S Out : Type*}

/-! ## The state -/

/-- The pool, `active_backups`, whether the thread that holds `backup_mutex` is past the test of it, the
    children that run and those that have exited and were not reaped, and whether something undefined
    has happened. -/
structure BackupPool (T : Type) where
  pool : PoolState T LockId StoreOp WorkerCmd Buckets StoreOut
  activeBackups : Int
  tested : Bool
  running : Nat
  exited : Nat
  undefined : Bool

/-- After a successful `process_job_directory`, on this table. -/
def BackupPool.init (table : Buckets) : BackupPool T := ⟨.init table, 0, false, 0, 0, false⟩

/-- What thread `t` has left of the command it is in. -/
def PoolState.rest (s : PoolState T K Op Cmd S Out) (t : T) : List (Instr K Op) :=
  (s.commands.threads t).rest

/-! ## The steps -/

/-- `if (data->active_backups >= max_backups)` and the `wait(NULL)` in it: `none` while that blocks. -/
def testLimit (maxBackups : Int) (s : BackupPool T) : Option (BackupPool T) :=
  if s.activeBackups ≥ maxBackups then
    if 0 < s.exited then
      some { s with tested := true, exited := s.exited - 1, activeBackups := s.activeBackups - 1 }
    else if 0 < s.running then none
    else some { s with tested := true }
  else some { s with tested := true }

/-- The record that `kvs_read` or `kvs_delete` formats, from what its pair operation has returned. -/
def StoreOp.record : StoreOp → StoreOut → Option (List Byte)
  | .pair (.read k), out => some (readRecord k out.readValue)
  | .pair (.delete k), out => if out.ret ≠ 0 then some (missingRecord k) else none
  | _, _ => none

/-- The next instruction formats a record that does not fit. -/
def overflows (table : Buckets) : List (Instr LockId StoreOp) → Bool
  | .perform op :: _ =>
      (op.record (op.exec table).2).any (fun record => decide (¬ Sequential.FitsBuffer record))
  | _ => false

/-- `data->active_backups++` behind a `fork` that has made this many children. -/
def forked (s : BackupPool T) (pool : PoolState T LockId StoreOp WorkerCmd Buckets StoreOut)
    (children : Nat) : BackupPool T :=
  if s.activeBackups < INT_MAX then
    { s with
      pool := pool
      activeBackups := s.activeBackups + 1
      running := s.running + children }
  else { s with undefined := true }

/-- What the next instruction changes, where `pool` is what it makes of the pool. -/
def afterInstr (s : BackupPool T) (pool : PoolState T LockId StoreOp WorkerCmd Buckets StoreOut) :
    List (Instr LockId StoreOp) → BackupPool T
  | .perform .fork :: _ => forked s pool 1
  | .release .backupMutex :: _ => { s with pool := pool, tested := false }
  | _ => { s with pool := pool }

/-- A thread or a child makes its next step, the `fork` of a thread succeeding or failing. -/
inductive PoolEvent (T : Type) where
  | next (t : T)
  | forkFails (t : T)
  | childExits
  deriving DecidableEq

variable [DecidableEq T]

/-- The next step of thread `t`, a `fork` succeeding. Behind `backup_mutex` comes the test. -/
def stepWorker (maxBackups : Int) (files : List (List WorkerCmd)) (s : BackupPool T) (t : T) :
    Option (BackupPool T) :=
  if s.pool.rest t = kvsBackup.tail ∧ s.tested = false then testLimit maxBackups s
  else if overflows s.pool.commands.store (s.pool.rest t) then some { s with undefined := true }
  else (stepPool worker files s.pool t).map (fun pool => afterInstr s pool (s.pool.rest t))

def stepPoolBackups (maxBackups : Int) (files : List (List WorkerCmd)) (s : BackupPool T)
    (e : PoolEvent T) : Option (BackupPool T) :=
  if s.undefined then none
  else
    match e with
    | .next t => stepWorker maxBackups files s t
    -- a `pid` of -1 takes the branch of the parent
    | .forkFails t =>
        if (s.pool.rest t).head? = some (.perform .fork) then
          (stepPool worker files s.pool t).map (fun pool => forked s pool 0)
        else none
    | .childExits =>
        if 0 < s.running then some { s with running := s.running - 1, exited := s.exited + 1 } else none

/-- Nothing can happen any more: no thread can go on, and no child is left to exit. -/
def Halted (maxBackups : Int) (files : List (List WorkerCmd)) (s : BackupPool T) : Prop :=
  ∀ e, stepPoolBackups maxBackups files s e = none

instance [Fintype T] (maxBackups : Int) (files : List (List WorkerCmd)) (s : BackupPool T) :
    Decidable (Halted maxBackups files s) :=
  decidable_of_iff
    ((∀ t, (stepPoolBackups maxBackups files s (.next t)).isNone = true) ∧
      (∀ t, (stepPoolBackups maxBackups files s (.forkFails t)).isNone = true) ∧
      (stepPoolBackups maxBackups files s .childExits).isNone = true)
    (by
      simp only [Option.isNone_iff_eq_none]
      constructor
      · rintro ⟨hnext, hfails, hexits⟩ e
        cases e with
        | next t => exact hnext t
        | forkFails t => exact hfails t
        | childExits => exact hexits
      · intro h
        exact ⟨fun t => h (.next t), fun t => h (.forkFails t), h .childExits⟩)

/-! ## Inversion -/

/-- The rules of a step: a thread gets past the test, formats a record that does not fit, makes the next
    step of the pool, or has no child from its `fork`; a child exits. -/
inductive PoolBackupsStep (maxBackups : Int) (files : List (List WorkerCmd)) (s : BackupPool T) :
    PoolEvent T → BackupPool T → Prop where
  | passes {t : T} {s' : BackupPool T} (hrest : s.pool.rest t = kvsBackup.tail)
      (hnew : s.tested = false) (htest : testLimit maxBackups s = some s') :
      PoolBackupsStep maxBackups files s (.next t) s'
  | overflows {t : T} (hover : overflows s.pool.commands.store (s.pool.rest t) = true) :
      PoolBackupsStep maxBackups files s (.next t) { s with undefined := true }
  | instr {t : T} {pool : PoolState T LockId StoreOp WorkerCmd Buckets StoreOut}
      (hpool : stepPool worker files s.pool t = some pool) :
      PoolBackupsStep maxBackups files s (.next t) (afterInstr s pool (s.pool.rest t))
  | forkFails {t : T} {pool : PoolState T LockId StoreOp WorkerCmd Buckets StoreOut}
      (hfork : (s.pool.rest t).head? = some (.perform .fork))
      (hpool : stepPool worker files s.pool t = some pool) :
      PoolBackupsStep maxBackups files s (.forkFails t) (forked s pool 0)
  | childExits (hrunning : 0 < s.running) :
      PoolBackupsStep maxBackups files s .childExits
        { s with running := s.running - 1, exited := s.exited + 1 }

variable {maxBackups : Int} {files : List (List WorkerCmd)} {s s' : BackupPool T}

/-- **Inversion.** A step is one of the rules, in a state where nothing undefined has happened. -/
theorem poolBackupsStep_of_step {e : PoolEvent T} (h : stepPoolBackups maxBackups files s e = some s') :
    s.undefined = false ∧ PoolBackupsStep maxBackups files s e s' := by
  unfold stepPoolBackups at h
  split at h
  · exact absurd h (by simp)
  · rename_i hdefined
    refine ⟨Bool.eq_false_iff.mpr hdefined, ?_⟩
    cases e with
    | next t =>
        simp only [stepWorker] at h
        split at h
        · rename_i htest
          exact .passes htest.1 htest.2 h
        · split at h
          · rename_i hover
            exact Option.some.inj h ▸ .overflows hover
          · obtain ⟨pool, hpool, rfl⟩ := Option.map_eq_some_iff.mp h
            exact .instr hpool
    | forkFails t =>
        simp only at h
        split at h
        · rename_i hfork
          obtain ⟨pool, hpool, rfl⟩ := Option.map_eq_some_iff.mp h
          exact .forkFails hfork hpool
        · exact absurd h (by simp)
    | childExits =>
        simp only at h
        split at h
        · rename_i hrunning
          exact Option.some.inj h ▸ .childExits hrunning
        · exact absurd h (by simp)

omit [DecidableEq T] in
/-- A thread that gets past the test has reaped a child, or has left the children as they are. -/
theorem testLimit_cases (h : testLimit maxBackups s = some s') :
    s' = { s with tested := true } ∨ 0 < s.exited ∧
      s' = { s with
        tested := true, exited := s.exited - 1, activeBackups := s.activeBackups - 1 } := by
  unfold testLimit at h
  split at h
  · split at h
    · rename_i hexited
      exact Or.inr ⟨hexited, (Option.some.inj h).symm⟩
    · split at h
      · exact absurd h (by simp)
      · exact Or.inl (Option.some.inj h).symm
  · exact Or.inl (Option.some.inj h).symm

end Kvs.Server
