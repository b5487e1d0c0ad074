import Kvs.Lib.Transition
import Kvs.Server.Table

/-!
# `Server.Backup` — the children that write the backups

`CMD_BACKUP` of `process_job_file` again, for the number of its children (`Server.Operations` has the
command for its locks): any number of worker threads, each somewhere in the command, `active_backups`,
the mutex, and the children that were forked and not reaped. `main` reaps the last of them once its
threads have ended. Exercise 3 has the same code; the `main` of the server waits for its managers too,
which never end, and so never gets past its `pthread_join`s.

`wait` blocks while there are children and none of them has exited, and fails when there is none. A lock
of a bucket may take any time to get. `active_backups` is an `int`: to increment it at `INT_MAX` is
undefined, and the model has no step there.
-/

namespace Kvs.Server

abbrev INT_MAX : Int := 2147483647

/-- Where a worker thread stands: between two `BACKUP`s (`idle`), before the statement of that name in
    one, or at its end. -/
inductive BackupPc where
  | idle
  | limit
  | wait
  | decrement
  | rdlock (i : Nat)
  | fork
  | increment
  | unlock (i : Nat)
  | unlockMutex
  | ended
  deriving DecidableEq

/-- Where `main` stands: at `pthread_join`, or in the loop that reaps the children left. -/
inductive MainPc where
  | join
  | loop
  | wait
  | decrement
  | done
  deriving DecidableEq

/-- `active_backups` and `backup_mutex` of `ThreadData`, the threads, and the children. -/
structure BackupState (T : Type) where
  threads : T → BackupPc
  main : MainPc
  activeBackups : Int
  backupMutex : Option T
  running : Nat
  exited : Nat

namespace BackupState

variable {T : Type}

/-- After a successful `process_job_directory`. -/
def init : BackupState T := ⟨fun _ => .idle, .join, 0, none, 0, 0⟩

/-- The children that were forked and not reaped. -/
def children (s : BackupState T) : Nat := s.running + s.exited

/-- `wait(NULL)`: `none` while it blocks, otherwise whether a child was reaped. -/
def waitNull (s : BackupState T) : Option (BackupState T × Bool) :=
  if 0 < s.exited then some ({ s with exited := s.exited - 1 }, true)
  else if 0 < s.running then none
  else some (s, false)

variable [DecidableEq T]

def goto (s : BackupState T) (t : T) (pc : BackupPc) : BackupState T :=
  { s with threads := Function.update s.threads t pc }

end BackupState

/-- A thread or `main` makes its next step, the `fork` of a thread succeeding or failing; a thread has no
    job left; a child exits. -/
inductive BackupEvent (T : Type) where
  | next (t : T)
  | forkFails (t : T)
  | ends (t : T)
  | childExits
  | main

variable {T : Type} [DecidableEq T]

def stepThread (maxBackups : Int) (s : BackupState T) (t : T) : Option (BackupState T) :=
  match s.threads t with
  | .idle =>
      if s.backupMutex = none then some { s.goto t .limit with backupMutex := some t } else none
  | .limit => some (s.goto t (if s.activeBackups ≥ maxBackups then .wait else .rdlock 0))
  | .wait =>
      match s.waitNull with
      | some (s', true) => some (s'.goto t .decrement)
      | some (s', false) => some (s'.goto t (.rdlock 0))
      | none => none
  | .decrement => some { s.goto t (.rdlock 0) with activeBackups := s.activeBackups - 1 }
  | .rdlock i => some (s.goto t (if i + 1 < TABLE_SIZE then .rdlock (i + 1) else .fork))
  | .fork => some { s.goto t .increment with running := s.running + 1 }
  | .increment =>
      if s.activeBackups < INT_MAX then
        some { s.goto t (.unlock 0) with activeBackups := s.activeBackups + 1 }
      else none
  | .unlock i => some (s.goto t (if i + 1 < TABLE_SIZE then .unlock (i + 1) else .unlockMutex))
  | .unlockMutex => some { s.goto t .idle with backupMutex := none }
  | .ended => none

/-- `main` joins the threads, and then reaps while `active_backups` is positive. -/
def stepMain [Fintype T] (s : BackupState T) : Option (BackupState T) :=
  match s.main with
  | .join => if ∀ t, s.threads t = .ended then some { s with main := .loop } else none
  | .loop => some { s with main := if s.activeBackups > 0 then .wait else .done }
  | .wait =>
      match s.waitNull with
      | some (s', true) => some { s' with main := .decrement }
      | some (s', false) => some { s' with main := .loop }
      | none => none
  | .decrement => some { s with main := .loop, activeBackups := s.activeBackups - 1 }
  | .done => none

def stepBackup [Fintype T] (maxBackups : Int) (s : BackupState T) :
    BackupEvent T → Option (BackupState T)
  | .next t => stepThread maxBackups s t
  -- a `pid` of -1 takes the branch of the parent
  | .forkFails t => if s.threads t = .fork then some (s.goto t .increment) else none
  | .ends t => if s.threads t = .idle then some (s.goto t .ended) else none
  | .childExits =>
      if 0 < s.running then some { s with running := s.running - 1, exited := s.exited + 1 } else none
  | .main => stepMain s

end Kvs.Server
