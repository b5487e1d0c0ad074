import Kvs.Lib.Dispenser
import Kvs.Lib.Mutex
import Kvs.Server.Jobs

/-!
# `Correctness.Jobs` — every job file is processed once

Whatever the number of worker threads and the order of their steps, the indices that reach
`process_job_file` are tickets of a dispenser: the write of `current_index + 1` takes one, the call uses
it. For that the mutex has to keep what a thread read of `current_index` from becoming stale, in the test
against `count` and in the increment.
-/

namespace Kvs.Server

/-- The thread holds `file_mutex`. -/
def JobsPc.inside : JobsPc → Bool
  | .test => true
  | .unlockBreak => true
  | .read => true
  | .increment _ => true
  | .unlock _ => true
  | _ => false

/-- The index that is the thread's alone, not yet handed to `process_job_file`. -/
def JobsPc.held : JobsPc → Option Nat
  | .unlock i => some i
  | .call i => some i
  | _ => none

/-- What a thread at this place has seen of `current_index` still holds. -/
def JobsPc.Fresh (count currentIndex : Nat) : JobsPc → Prop
  | .read => currentIndex < count
  | .increment i => i = currentIndex ∧ currentIndex < count
  | .unlockBreak => count ≤ currentIndex
  | .ended => count ≤ currentIndex
  | _ => True

variable {T : Type}

/-- The dispenser of the indices. -/
def JobsState.dispenser (s : JobsState T) : Dispenser T :=
  ⟨s.currentIndex, fun t => (s.threads t).held, s.handed.map Prod.snd⟩

/-- The invariant of the runs. -/
structure JobsInv (count : Nat) (s : JobsState T) : Prop where
  mutex : Mutex.Exclusive JobsPc.inside s.threads s.fileMutex
  fresh : ∀ t, (s.threads t).Fresh count s.currentIndex
  bounded : s.currentIndex ≤ count
  dispensed : s.dispenser.Inv

theorem jobsInv_init (count : Nat) : JobsInv count (JobsState.init (T := T)) where
  mutex _ := by simp [JobsState.init, JobsPc.inside]
  fresh _ := trivial
  bounded := Nat.zero_le _
  dispensed := Dispenser.inv_init

variable [DecidableEq T]

/-! ## What a step does to the threads and to the dispenser -/

/-- A thread at a fresh place leaves those of the others fresh, as long as `current_index` stays. -/
theorem JobsInv.fresh_goto {count : Nat} {s : JobsState T} (h : JobsInv count s) (t : T) {pc : JobsPc}
    (hpc : pc.Fresh count s.currentIndex) (u : T) :
    (Function.update s.threads t pc u).Fresh count s.currentIndex := by
  by_cases hu : u = t
  · subst hu
    rw [Function.update_self]
    exact hpc
  · rw [Function.update_of_ne hu]
    exact h.fresh u

/-- A thread outside the mutex knows nothing of `current_index` that its increment would make stale. -/
theorem JobsPc.fresh_succ {pc : JobsPc} {count currentIndex : Nat} (hout : pc.inside = false)
    (h : pc.Fresh count currentIndex) : pc.Fresh count (currentIndex + 1) := by
  cases pc with
  | lock => trivial
  | test => exact absurd hout (by simp [JobsPc.inside])
  | unlockBreak => exact absurd hout (by simp [JobsPc.inside])
  | read => exact absurd hout (by simp [JobsPc.inside])
  | increment i => exact absurd hout (by simp [JobsPc.inside])
  | unlock i => exact absurd hout (by simp [JobsPc.inside])
  | call i => trivial
  | processing i => trivial
  | ended => exact Nat.le_succ_of_le h

theorem held_update (threads : T → JobsPc) (t : T) (pc : JobsPc) :
    (fun u => (Function.update threads t pc u).held)
      = Function.update (fun u => (threads u).held) t pc.held := by
  funext u
  by_cases hu : u = t
  · subst hu
    rw [Function.update_self, Function.update_self]
  · rw [Function.update_of_ne hu, Function.update_of_ne hu]

/-- A move that keeps what the thread holds. -/
theorem held_goto {s : JobsState T} {t : T} {pc : JobsPc} (hheld : pc.held = (s.threads t).held) :
    (fun u => (Function.update s.threads t pc u).held) = fun u => (s.threads u).held := by
  rw [held_update, hheld]
  exact Function.update_eq_self t _

/-- A step that takes no index and uses none. -/
theorem JobsInv.goto {count : Nat} {s s' : JobsState T} (h : JobsInv count s) {t : T} {pc : JobsPc}
    (hthreads : s'.threads = Function.update s.threads t pc)
    (hfresh : pc.Fresh count s.currentIndex) (hheld : pc.held = (s.threads t).held)
    (hindex : s'.currentIndex = s.currentIndex) (hhanded : s'.handed = s.handed)
    (hmutex : Mutex.Exclusive JobsPc.inside s'.threads s'.fileMutex) : JobsInv count s' := by
  have hdispenser : s'.dispenser = s.dispenser := by
    unfold JobsState.dispenser
    rw [hthreads, hindex, hhanded, held_goto hheld]
  refine ⟨hmutex, ?_, ?_, ?_⟩
  · intro u
    rw [hthreads, hindex]
    exact h.fresh_goto t hfresh u
  · rw [hindex]
    exact h.bounded
  · rw [hdispenser]
    exact h.dispensed

/-- The write of the increment takes a ticket: the index is still the one that was read. -/
theorem JobsInv.increment {count : Nat} {s : JobsState T} (h : JobsInv count s) {t : T} {i : Nat}
    (hpc : s.threads t = .increment i) :
    JobsInv count { s.goto t (.unlock i) with currentIndex := i + 1 } := by
  have hfresh : (JobsPc.increment i).Fresh count s.currentIndex := hpc ▸ h.fresh t
  obtain ⟨rfl, hlt⟩ := hfresh
  have hin : (s.threads t).inside = true := by rw [hpc]; rfl
  refine ⟨?_, ?_, hlt, ?_⟩
  · exact h.mutex.move (by rw [hpc]; rfl)
  · intro u
    show (Function.update s.threads t (.unlock s.currentIndex) u).Fresh count (s.currentIndex + 1)
    by_cases hu : u = t
    · subst hu
      rw [Function.update_self]
      trivial
    · rw [Function.update_of_ne hu]
      have hout : (s.threads u).inside = false := by
        rw [Bool.eq_false_iff]
        intro hu'
        exact hu (h.mutex.alone hin hu')
      exact JobsPc.fresh_succ hout (h.fresh u)
  · have htake : JobsState.dispenser { s.goto t (.unlock s.currentIndex) with
        currentIndex := s.currentIndex + 1 } = s.dispenser.take t := by
      show Dispenser.mk _ (fun u => (Function.update s.threads t _ u).held) _ = _
      rw [held_update]
      rfl
    rw [htake]
    exact h.dispensed.take (by show (s.threads t).held = none; rw [hpc]; rfl)

/-- The call uses the ticket of the thread. -/
theorem JobsInv.call {count : Nat} {s : JobsState T} (h : JobsInv count s) {t : T} {i : Nat}
    (hpc : s.threads t = .call i) :
    JobsInv count { s.goto t (.processing i) with handed := s.handed ++ [(t, i)] } := by
  refine ⟨?_, h.fresh_goto t trivial, h.bounded, ?_⟩
  · exact h.mutex.move (by rw [hpc]; rfl)
  · have huse : JobsState.dispenser { s.goto t (.processing i) with handed := s.handed ++ [(t, i)] }
        = s.dispenser.use t i := by
      show Dispenser.mk _ (fun u => (Function.update s.threads t _ u).held)
        ((s.handed ++ [(t, i)]).map Prod.snd) = _
      rw [held_update, List.map_append]
      rfl
    rw [huse]
    exact h.dispensed.use (by show (s.threads t).held = some i; rw [hpc]; rfl)

theorem jobsInv_step {count : Nat} (s : JobsState T) (t : T) (s' : JobsState T) (h : JobsInv count s)
    (hs : stepJobs count s t = some s') : JobsInv count s' := by
  unfold stepJobs at hs
  have hfresh := h.fresh t
  cases hpc : s.threads t with
  | lock =>
      rw [hpc] at hs
      simp only [Option.ite_none_right_eq_some, Option.some.injEq] at hs
      obtain ⟨hfree, rfl⟩ := hs
      exact h.goto rfl trivial (hpc ▸ rfl) rfl rfl (h.mutex.lock hfree t rfl)
  | test =>
      rw [hpc] at hs
      obtain rfl := Option.some.inj hs
      by_cases hdone : s.currentIndex ≥ count
      · rw [if_pos hdone]
        exact h.goto rfl hdone (hpc ▸ rfl) rfl rfl (h.mutex.move (hpc ▸ rfl))
      · rw [if_neg hdone]
        exact h.goto rfl (Nat.lt_of_not_le hdone) (hpc ▸ rfl) rfl rfl (h.mutex.move (hpc ▸ rfl))
  | unlockBreak =>
      rw [hpc] at hs hfresh
      obtain rfl := Option.some.inj hs
      exact h.goto rfl hfresh (hpc ▸ rfl) rfl rfl (h.mutex.unlock (hpc ▸ rfl) rfl)
  | read =>
      rw [hpc] at hs hfresh
      obtain rfl := Option.some.inj hs
      exact h.goto rfl ⟨rfl, hfresh⟩ (hpc ▸ rfl) rfl rfl (h.mutex.move (hpc ▸ rfl))
  | increment i =>
      rw [hpc] at hs
      obtain rfl := Option.some.inj hs
      exact h.increment hpc
  | unlock i =>
      rw [hpc] at hs
      obtain rfl := Option.some.inj hs
      exact h.goto rfl trivial (hpc ▸ rfl) rfl rfl (h.mutex.unlock (hpc ▸ rfl) rfl)
  | call i =>
      rw [hpc] at hs
      obtain rfl := Option.some.inj hs
      exact h.call hpc
  | processing i =>
      rw [hpc] at hs
      obtain rfl := Option.some.inj hs
      exact h.goto rfl trivial (hpc ▸ rfl) rfl rfl (h.mutex.move (hpc ▸ rfl))
  | ended =>
      rw [hpc] at hs
      exact absurd hs (by simp)

theorem jobsInv_run {count : Nat} {schedule : List T} {s : JobsState T}
    (hrun : Transition.run (stepJobs count) schedule .init = some s) : JobsInv count s :=
  Transition.run_invariant (JobsInv count) jobsInv_step (jobsInv_init count) hrun

/-! ## Progress -/

/-- Only a thread that waits for the mutex, or has ended, makes no step. -/
theorem stepJobs_isSome (count : Nat) {s : JobsState T} {t : T} (hended : s.threads t ≠ .ended)
    (hlock : s.threads t = .lock → s.fileMutex = none) : (stepJobs count s t).isSome = true := by
  unfold stepJobs
  cases hpc : s.threads t with
  | lock =>
      show Option.isSome (if s.fileMutex = none then _ else _) = true
      rw [if_pos (hlock hpc)]
      rfl
  | ended => exact absurd hpc hended
  | _ => rfl

/-- **No deadlock.** In every run, as long as a thread has not ended, one can make a step. -/
theorem jobs_progress {count : Nat} {schedule : List T} {s : JobsState T}
    (hrun : Transition.run (stepJobs count) schedule .init = some s) {t : T}
    (ht : s.threads t ≠ .ended) : ∃ u, (stepJobs count s u).isSome = true := by
  have h := jobsInv_run hrun
  cases hmutex : s.fileMutex with
  | none => exact ⟨t, stepJobs_isSome count ht (fun _ => hmutex)⟩
  | some u =>
      -- the holder of the mutex stands at none of the places where a thread may have to stop
      have hin : (s.threads u).inside = true := (h.mutex u).mpr hmutex
      refine ⟨u, stepJobs_isSome count ?_ ?_⟩
      · intro hended
        rw [hended] at hin
        exact absurd hin (by simp [JobsPc.inside])
      · intro hlock
        rw [hlock] at hin
        exact absurd hin (by simp [JobsPc.inside])

/-! ## Every file once -/

/-- **Job files.** For any number of job files and of worker threads and any order of their steps: no
    file is handed to `process_job_file` twice and none that there is not, and once the threads have
    ended, if there is one, every file has been. -/
theorem jobs_handed_once (count : Nat) (schedule : List T) (s : JobsState T)
    (hrun : Transition.run (stepJobs count) schedule .init = some s) :
    (s.handed.map Prod.snd).Nodup ∧ (∀ i ∈ s.handed.map Prod.snd, i < count) ∧
      (Nonempty T → (∀ t, s.threads t = .ended) →
        (s.handed.map Prod.snd).Perm (List.range count)) := by
  have h := jobsInv_run hrun
  refine ⟨h.dispensed.usedOnce, ?_, ?_⟩
  · intro i hi
    exact Nat.lt_of_lt_of_le (h.dispensed.usedBelow i hi) h.bounded
  · intro hthread hended
    have hall : s.currentIndex = count := by
      obtain ⟨t⟩ := hthread
      have hfresh := h.fresh t
      rw [hended t] at hfresh
      exact Nat.le_antisymm h.bounded hfresh
    have hnone : ∀ t, s.dispenser.held t = none := by
      intro t
      show (s.threads t).held = none
      rw [hended t]
      rfl
    rw [← hall]
    exact h.dispensed.used_perm hnone

/-- Two threads and three files: the second thread takes its first file while the first processes one. -/
def threeJobs : List Bool :=
  List.replicate 6 false ++ List.replicate 7 true ++ List.replicate 8 false ++ List.replicate 3 true ++
    List.replicate 3 false

theorem threeJobs_run : (Transition.run (stepJobs 3) threeJobs .init).isSome = true := by
  decide +kernel

theorem threeJobs_ended :
    ∀ t, ((Transition.run (stepJobs 3) threeJobs .init).get threeJobs_run).threads t = .ended := by
  decide +kernel

theorem jobs_handed_once_three :
    ∃ s, Transition.run (stepJobs 3) threeJobs .init = some s ∧
      (s.handed.map Prod.snd).Nodup ∧ (∀ i ∈ s.handed.map Prod.snd, i < 3) ∧
        (s.handed.map Prod.snd).Perm (List.range 3) := by
  have hrun := (Option.some_get threeJobs_run).symm
  obtain ⟨honce, hbelow, hall⟩ := jobs_handed_once 3 threeJobs _ hrun
  exact ⟨_, hrun, honce, hbelow, hall ⟨false⟩ threeJobs_ended⟩

end Kvs.Server
