import Kvs.Correctness.Deadlock
import Kvs.Correctness.Pool
import Kvs.Lib.LockProgress

/-!
# `Correctness.PoolProgress` — the worker threads come to an end

Every step of the pool uses up one of a number of steps that the files and the threads account for
(`effort_run`), so no run goes on for ever, whatever the files hold (`pool_bounded`). Where a run stops,
all threads have ended when the commands take their locks in the order of a rank
(`pool_ended_of_ordered`); otherwise there may be a cycle of threads that wait for locks, which is never
left (`pool_stuck_of_firstOnly`, `deadlock_pool_run`).
-/

namespace Kvs.Server

open Locking

variable {T : Type} {K Op Cmd S Out : Type*}

/-! ## The steps that are left -/

/-- The steps a thread still makes in `thread_process_files`, drawing no further file. -/
def JobsPc.stage : JobsPc → Nat
  | .lock => 3
  | .test => 2
  | .unlockBreak => 1
  | .read => 1
  | .increment _ => 0
  | .unlock _ => 6
  | .call _ => 5
  | .processing _ => 4
  | .ended => 0

/-- The steps of the commands of file `i`. -/
def fileCost (M : Machine K Op Cmd S Out) (files : List (List Cmd)) (i : Nat) : Nat :=
  ((commandsOf files i).map M.cost).sum

/-- The steps the pool has left but for the commands of the files not handed out: seven for each file,
    and those of the threads. -/
def effort [Fintype T] (M : Machine K Op Cmd S Out) (files : List (List Cmd))
    (s : PoolState T K Op Cmd S Out) : Nat :=
  7 * (files.length - s.jobs.currentIndex) +
    (∑ t, (s.jobs.threads t).stage + ∑ t, M.onLines.left (s.commands.threads t))

/-- The steps of the commands of the files handed out. -/
def handedCost (M : Machine K Op Cmd S Out) (files : List (List Cmd))
    (s : PoolState T K Op Cmd S Out) : Nat :=
  (s.jobs.handed.map (fun h => fileCost M files h.2)).sum

variable [DecidableEq T] [DecidableEq K]

/-- A step of `thread_process_files` uses up one of the seven of a file, or one of those left to the
    thread. -/
theorem stepJobs_stage {count : Nat} {s s' : JobsState T} {t : T} (hI : JobsInv count s)
    (h : stepJobs count s t = some s') :
    7 * (count - s'.currentIndex) + (s'.threads t).stage + 1
      = 7 * (count - s.currentIndex) + (s.threads t).stage := by
  have hfresh := hI.fresh t
  unfold stepJobs at h
  cases hpc : s.threads t with
  | lock =>
      rw [hpc] at h
      simp only [Option.ite_none_right_eq_some, Option.some.injEq] at h
      obtain ⟨_, rfl⟩ := h
      simp [JobsState.goto, JobsPc.stage]
  | test =>
      rw [hpc] at h
      obtain rfl := Option.some.inj h
      simp only [JobsState.goto, Function.update_self]
      split_ifs <;> simp [JobsPc.stage]
  | increment i =>
      rw [hpc] at h hfresh
      obtain rfl := Option.some.inj h
      obtain ⟨rfl, hlt⟩ := hfresh
      simp only [JobsState.goto, Function.update_self, JobsPc.stage]
      omega
  | ended =>
      rw [hpc] at h
      exact absurd h (by simp)
  | _ =>
      rw [hpc] at h
      obtain rfl := Option.some.inj h
      simp [JobsState.goto, JobsPc.stage]

omit [DecidableEq K] in
/-- A thread that gets file `i` has the steps of its commands to make. -/
theorem left_assign (M : Machine K Op Cmd S Out) (files : List (List Cmd))
    (s : State T K Op (Line Cmd) S Out) (t u : T) (i : Nat) :
    M.onLines.left ((s.assign (handFile files t i)).threads u)
      = M.onLines.left (s.threads u) + if u = t then fileCost M files i else 0 := by
  unfold Machine.left State.assign handFile
  simp only [List.map_append, List.sum_append]
  split_ifs with hu
  · have hcost : (linesOf i (files.getD i [])).map M.onLines.cost
        = (commandsOf files i).map M.cost := by
      rw [← linesOf_cmds i (commandsOf files i), List.map_map]
      rfl
    rw [hcost, fileCost]
    omega
  · simp

/-- **One step, one less**: what the files handed out add to the steps left is what their commands
    take. -/
theorem effort_step [Fintype T] {M : Machine K Op Cmd S Out} {files : List (List Cmd)} {σ : S}
    {s s' : PoolState T K Op Cmd S Out} {t : T} (h : PoolInv M files σ s)
    (hs : stepPool M files s t = some s') :
    effort M files s' + 1 + handedCost M files s = effort M files s + handedCost M files s' := by
  -- a step of `thread_process_files`, whatever it does to the commands
  have hstage : ∀ jobs, stepJobs files.length s.jobs t = some jobs →
      7 * (files.length - jobs.currentIndex) + ∑ v, (jobs.threads v).stage + 1
        = 7 * (files.length - s.jobs.currentIndex) + ∑ v, (s.jobs.threads v).stage := by
    intro jobs hjobs
    have hself := stepJobs_stage h.jobs hjobs
    have hrest : ∑ v ∈ Finset.univ.erase t, (jobs.threads v).stage
        = ∑ v ∈ Finset.univ.erase t, (s.jobs.threads v).stage := by
      refine Finset.sum_congr rfl (fun v hv => ?_)
      rw [stepJobs_threads_ne hjobs (Finset.ne_of_mem_erase hv)]
    rw [← Finset.add_sum_erase _ (fun v => (jobs.threads v).stage) (Finset.mem_univ t),
      ← Finset.add_sum_erase _ (fun v => (s.jobs.threads v).stage) (Finset.mem_univ t), hrest]
    omega
  cases poolStep_of_step hs with
  | @hand i jobs hpc hjobs hhanded =>
      have hleft : ∑ v, M.onLines.left ((s.commands.assign (handFile files t i)).threads v)
          = ∑ v, M.onLines.left (s.commands.threads v) + fileCost M files i := by
        simp only [left_assign, Finset.sum_add_distrib]
        simp
      have hcost : handedCost M files ⟨jobs, s.commands.assign (handFile files t i)⟩
          = handedCost M files s + fileCost M files i := by
        show (jobs.handed.map _).sum = _
        rw [hhanded, List.map_append, List.sum_append]
        simp [handedCost]
      have hjobs' := hstage jobs hjobs
      rw [hcost]
      unfold effort
      simp only [hleft]
      omega
  | @command commands hpc hbusy hstep =>
      have hleft := instructions_step (step_inv hstep)
      show effort M files ⟨s.jobs, commands⟩ + 1 + handedCost M files s
        = effort M files s + handedCost M files s
      unfold effort
      simp only
      omega
  | @other jobs hjobs hhanded hidle =>
      have hjobs' := hstage jobs hjobs
      have hcost : handedCost M files ⟨jobs, s.commands⟩ = handedCost M files s := by
        show (jobs.handed.map _).sum = _
        rw [hhanded]
        rfl
      show effort M files ⟨jobs, s.commands⟩ + 1 + handedCost M files s
        = effort M files s + handedCost M files ⟨jobs, s.commands⟩
      rw [hcost]
      unfold effort
      simp only
      omega

/-- **A run uses up what it has.** -/
theorem effort_run [Fintype T] {M : Machine K Op Cmd S Out} {files : List (List Cmd)} {σ : S}
    {sched : List T} {s s' : PoolState T K Op Cmd S Out} (h : PoolInv M files σ s)
    (hrun : Transition.run (stepPool M files) sched s = some s') :
    sched.length + effort M files s' + handedCost M files s
      = effort M files s + handedCost M files s' := by
  induction sched generalizing s with
  | nil =>
      obtain rfl := Option.some.inj hrun
      simp
  | cons t sched ih =>
      obtain ⟨u, hu, hrest⟩ := Transition.run_cons_eq_some.mp hrun
      have hstep := effort_step h hu
      have hrest' := ih (poolInv_step s t u h hu) hrest
      rw [List.length_cons]
      omega

/-- All that the files and the threads account for. -/
def totalCost (T : Type) [Fintype T] (M : Machine K Op Cmd S Out) (files : List (List Cmd)) : Nat :=
  7 * files.length + 3 * Fintype.card T + ((List.range files.length).map (fileCost M files)).sum

omit [DecidableEq T] [DecidableEq K] in
/-- At the start: the files, and the way of each thread to its end. -/
theorem effort_init [Fintype T] (M : Machine K Op Cmd S Out) (files : List (List Cmd)) (σ : S) :
    effort (T := T) M files (.init σ) = 7 * files.length + 3 * Fintype.card T := by
  have hleft : ∀ t : T, M.onLines.left ((State.init σ (fun _ => []) : State T K Op (Line Cmd) S Out).threads t)
      = 0 := fun t => (left_eq_zero_iff _ _).mpr ⟨rfl, rfl⟩
  unfold effort PoolState.init
  simp only [hleft, JobsState.init, JobsPc.stage, Finset.sum_const, Finset.card_univ, smul_eq_mul]
  omega

section Bounds

variable [Fintype T] {M : Machine K Op Cmd S Out} {files : List (List Cmd)} {σ : S} {sched : List T}
  {s : PoolState T K Op Cmd S Out}

omit [Fintype T] in
/-- The files handed out are some of the files, once each. -/
theorem PoolInv.handed_sum_le (h : PoolInv M files σ s) (f : Nat → Nat) :
    (s.jobs.handed.map (fun h => f h.2)).sum ≤ ((List.range files.length).map f).sum := by
  have honce : (s.jobs.handed.map Prod.snd).Nodup := h.jobs.dispensed.usedOnce
  have hsub : (s.jobs.handed.map Prod.snd).Subperm (List.range files.length) := by
    refine honce.subperm (fun i hi => List.mem_range.mpr ?_)
    exact Nat.lt_of_lt_of_le (h.jobs.dispensed.usedBelow i hi) h.jobs.bounded
  have hfiles : (s.jobs.handed.map (fun h => f h.2)).sum = ((s.jobs.handed.map Prod.snd).map f).sum := by
    rw [List.map_map]
    rfl
  rw [hfiles]
  obtain ⟨l, hperm, hsublist⟩ := hsub
  rw [← (hperm.map f).sum_eq]
  exact (hsublist.map _).sum_le_sum (fun _ _ => Nat.zero_le _)

/-- **No run goes on for ever**, whatever the commands and the schedule. -/
theorem pool_bounded (hrun : Transition.run (stepPool M files) sched (.init σ) = some s) :
    sched.length ≤ totalCost T M files := by
  have hcount := effort_run (poolInv_init M files σ) hrun
  have hle : handedCost M files s ≤ _ := (poolInv_run hrun).handed_sum_le (fileCost M files)
  have hinit : handedCost M files (.init σ : PoolState T K Op Cmd S Out) = 0 := rfl
  rw [effort_init, hinit] at hcount
  unfold totalCost
  omega

end Bounds

/-! ## Who can go on -/

/-- When no thread can make a step and not all have ended, the commands in progress are stuck. -/
theorem commands_stuck {M : Machine K Op Cmd S Out} {files : List (List Cmd)} {σ : S}
    {s : PoolState T K Op Cmd S Out} (h : PoolInv M files σ s)
    (hstuck : ∀ t, stepPool M files s t = none) {t₀ : T} (ht₀ : s.jobs.threads t₀ ≠ .ended) :
    (∀ t, step M.onLines t s.commands = none) ∧ ∃ t, ¬ (s.commands.threads t).Idle := by
  -- a step of `thread_process_files` is one of the pool, but for a thread with commands to run
  have hjobs : ∀ t, (stepJobs files.length s.jobs t).isSome = true →
      (s.jobs.threads t).isProcessing = true ∧ ¬ (s.commands.threads t).Idle := by
    intro t hsome
    obtain ⟨jobs, hjobs⟩ := Option.isSome_iff_exists.mp hsome
    have hnone := hstuck t
    unfold stepPool at hnone
    split at hnone
    · exact absurd hnone (by simp [hjobs])
    · rename_i i hpc
      split_ifs at hnone with hidle
      · exact absurd hnone (by simp [hjobs])
      · exact ⟨by rw [hpc]; rfl, hidle⟩
    · exact absurd hnone (by simp [hjobs])
  have hfree : s.jobs.fileMutex = none := by
    cases hmutex : s.jobs.fileMutex with
    | none => rfl
    | some u =>
        have hin : (s.jobs.threads u).inside = true := (h.jobs.mutex u).mpr hmutex
        have hsome : (stepJobs files.length s.jobs u).isSome = true := by
          refine stepJobs_isSome files.length ?_ ?_
          · intro hended
            rw [hended] at hin
            exact absurd hin (by simp [JobsPc.inside])
          · intro hlock
            rw [hlock] at hin
            exact absurd hin (by simp [JobsPc.inside])
        obtain ⟨hprocessing, _⟩ := hjobs u hsome
        cases hpc : s.jobs.threads u <;> rw [hpc] at hin hprocessing <;>
          simp [JobsPc.inside, JobsPc.isProcessing] at hin hprocessing
  refine ⟨fun t => ?_, t₀, (hjobs t₀ (stepJobs_isSome files.length ht₀ (fun _ => hfree))).2⟩
  by_contra hsome
  obtain ⟨commands, hstep⟩ := Option.ne_none_iff_exists'.mp hsome
  have hbusy : ¬ (s.commands.threads t).Idle := by
    rintro ⟨htodo, hrunning⟩
    simp [step, htodo, hrunning] at hstep
  have hprocessing : (s.jobs.threads t).isProcessing = true := by
    by_contra hno
    exact hbusy (h.idle t (Bool.eq_false_iff.mpr hno))
  have hnone := hstuck t
  unfold stepPool at hnone
  cases hpc : s.jobs.threads t with
  | processing i =>
      rw [hpc] at hnone
      simp only [if_neg hbusy, hstep] at hnone
      exact absurd hnone (by simp)
  | _ =>
      rw [hpc] at hprocessing
      exact absurd hprocessing (by simp [JobsPc.isProcessing])

/-- **A pool that stops is at its end** when every command takes its locks in the order of a rank. -/
theorem pool_ended_of_ordered [Finite T] {M : Machine K Op Cmd S Out} {rank : K → Nat}
    {files : List (List Cmd)}
    (hordered : ∀ cs ∈ files, ∀ c ∈ cs, Ordered rank (fun _ => none) (M.code c)) {σ : S}
    {sched : List T} {s : PoolState T K Op Cmd S Out}
    (hrun : Transition.run (stepPool M files) sched (.init σ) = some s)
    (hstuck : ∀ t, stepPool M files s t = none) (t : T) : s.jobs.threads t = .ended := by
  by_contra ht
  have h := poolInv_run hrun
  obtain ⟨sched', hsched⟩ := h.reached
  obtain ⟨hnone, hbusy⟩ := commands_stuck h hstuck ht
  have hlines : ∀ u, ∀ line ∈ linesOfJobs (commandsOf files) (s.jobs.drawn u),
      Ordered rank (fun _ => none) (M.onLines.code line) := by
    intro u line hline
    obtain ⟨cs, hcs, hmem⟩ := h.cmd_of_drawn hline
    exact hordered cs hcs _ hmem
  obtain ⟨u, hu⟩ := progress_of_ordered hlines hsched hbusy
  rw [hnone u] at hu
  exact absurd hu (by simp)

/-- **A pool that stops before its end is in a deadlock**, on the locks that a command takes while it
    holds another one. -/
theorem pool_stuck_of_firstOnly [Finite T] {M : Machine K Op Cmd S Out} {ks : Set K}
    {files : List (List Cmd)}
    (hfirst : ∀ cs ∈ files, ∀ c ∈ cs, FirstOnly ks (fun _ => none) (M.code c)) {σ : S}
    {sched : List T} {s : PoolState T K Op Cmd S Out}
    (hrun : Transition.run (stepPool M files) sched (.init σ) = some s)
    (hstuck : ∀ t, stepPool M files s t = none) {t : T} (ht : s.jobs.threads t ≠ .ended) :
    Deadlock ks s.commands := by
  have h := poolInv_run hrun
  obtain ⟨sched', hsched⟩ := h.reached
  obtain ⟨hnone, hbusy⟩ := commands_stuck h hstuck ht
  refine deadlock_of_stuck (fun u line hline => ?_) hsched hnone hbusy
  obtain ⟨cs, hcs, hmem⟩ := h.cmd_of_drawn hline
  exact hfirst cs hcs _ hmem

/-- A deadlock of commands is for ever: the pool does not come to its end. -/
theorem deadlock_pool_run {M : Machine K Op Cmd S Out} {files : List (List Cmd)} {ks : Set K}
    {sched : List T} {s s' : PoolState T K Op Cmd S Out} (h : Deadlock ks s.commands)
    (hrun : Transition.run (stepPool M files) sched s = some s') : Deadlock ks s'.commands := by
  refine Transition.run_invariant (fun s => Deadlock ks s.commands) ?_ h hrun
  intro s t s' h hs
  cases poolStep_of_step hs with
  | hand hpc hjobs hhanded => exact h
  | command hpc hbusy hstep => exact h.step (step_inv hstep)
  | other hjobs hhanded hidle => exact h

/-- A thread in a deadlock is in `process_job_file`. -/
theorem PoolInv.not_ended_of_deadlock {M : Machine K Op Cmd S Out} {files : List (List Cmd)} {σ : S}
    {ks : Set K} {s : PoolState T K Op Cmd S Out} (hI : PoolInv M files σ s)
    (h : Deadlock ks s.commands) : ∃ t, s.jobs.threads t ≠ .ended := by
  obtain ⟨t, ht⟩ := h
  obtain ⟨u, ⟨k, _, m, m', ⟨c, p, os, hrun⟩, _⟩, _⟩ := Relation.TransGen.head'_iff.mp ht
  refine ⟨t, fun hended => ?_⟩
  have hidle := hI.idle t (by rw [hended]; rfl)
  rw [hidle.2] at hrun
  exact absurd hrun (by simp)

/-! ## The server -/

/-- Only the buckets are taken by a command that holds another lock. -/
theorem firstOnly_command (c : WorkerCmd) :
    FirstOnly (Set.range LockId.bucket) (fun _ => none) (worker.code c) := by
  have hbuckets : ∀ (locked : List (Fin TABLE_SIZE)) (m : Mode),
      ∀ k ∈ (locked.map (fun i => (LockId.bucket i, m))).map Prod.fst, k ∈ Set.range LockId.bucket := by
    intro locked m k hk
    rw [List.map_map] at hk
    obtain ⟨i, _, rfl⟩ := List.mem_map.mp hk
    exact ⟨i, rfl⟩
  have hbehind : ∀ {k : LockId} (locked : List (Fin TABLE_SIZE)) (m : Mode),
      k ∉ Set.range LockId.bucket → k ∉ (locked.map (fun i => (LockId.bucket i, m))).map Prod.fst :=
    fun locked m hk hmem => hk (hbuckets locked m _ hmem)
  cases c with
  | cmdWrite pairs mem =>
      exact firstOnly_phases_behind (hbehind _ _ (by simp)) (locked_buckets_nodup _ _) (hbuckets _ _)
        (List.perm_append_comm.trans ((releases_perm _ .exclusive).cons _))
  | cmdRead keys =>
      exact firstOnly_phases (locked_buckets_nodup _ _) (hbuckets _ _) (releases_perm _ .shared)
  | cmdDelete keys =>
      exact firstOnly_phases_behind (hbehind _ _ (by simp)) (locked_buckets_nodup _ _) (hbuckets _ _)
        (List.perm_append_comm.trans ((releases_perm _ .exclusive).cons _))
  | cmdShow => exact firstOnly_phases List.nodup_nil (by simp) (List.Perm.refl _)
  | cmdBackup =>
      refine firstOnly_phases_behind (hbehind _ _ (by simp)) ?_ (hbuckets _ _) ?_
      · rw [List.map_map]
        exact (List.nodup_finRange _).map (fun i j h => LockId.bucket.inj h)
      · rw [List.map_map]
        exact List.perm_append_comm

end Kvs.Server
