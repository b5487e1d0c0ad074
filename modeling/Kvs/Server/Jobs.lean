import Kvs.Lib.Transition

/-!
# `Server.Jobs` — the worker threads and the job files

`thread_process_files`: any number of worker threads, each somewhere in the loop, `current_index` and
`file_mutex`. `count` is what `process_job_directory` has counted; nothing changes it once the threads
run. The increment of `current_index` is two steps, the read and the write, so that only the mutex keeps
a second thread from coming between them. A thread that `main` has not created yet makes no step.

A file is known by its index in `files`. `handed` is the history: which thread has called
`process_job_file` with which file. The call may take any time to return.
-/

namespace Kvs.Server

/-- Where a worker thread stands in `thread_process_files`: before the statement of that name, in
    `process_job_file`, or at its end. Past the read it knows the index of its file. -/
inductive JobsPc where
  | lock
  | test
  | unlockBreak
  | read
  | increment (i : Nat)
  | unlock (i : Nat)
  | call (i : Nat)
  | processing (i : Nat)
  | ended
  deriving DecidableEq

/-- `current_index` and `file_mutex` of `ThreadData`, the threads, and the calls so far. -/
structure JobsState (T : Type) where
  threads : T → JobsPc
  currentIndex : Nat
  fileMutex : Option T
  handed : List (T × Nat)

variable {T : Type}

namespace JobsState

/-- After a successful `process_job_directory`. -/
def init : JobsState T := ⟨fun _ => .lock, 0, none, []⟩

def goto [DecidableEq T] (s : JobsState T) (t : T) (pc : JobsPc) : JobsState T :=
  { s with threads := Function.update s.threads t pc }

end JobsState

/-- The next step of thread `t`; `none` when it waits or has ended. -/
def stepJobs [DecidableEq T] (count : Nat) (s : JobsState T) (t : T) : Option (JobsState T) :=
  match s.threads t with
  | .lock => if s.fileMutex = none then some { s.goto t .test with fileMutex := some t } else none
  | .test => some (s.goto t (if s.currentIndex ≥ count then .unlockBreak else .read))
  | .unlockBreak => some { s.goto t .ended with fileMutex := none }
  | .read => some (s.goto t (.increment s.currentIndex))
  | .increment i => some { s.goto t (.unlock i) with currentIndex := i + 1 }
  | .unlock i => some { s.goto t (.call i) with fileMutex := none }
  | .call i => some { s.goto t (.processing i) with handed := s.handed ++ [(t, i)] }
  | .processing _ => some (s.goto t .lock)
  | .ended => none

end Kvs.Server
