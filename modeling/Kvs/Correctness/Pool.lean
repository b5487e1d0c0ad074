import Kvs.Correctness.Jobs
import Kvs.Correctness.RoundTrip
import Kvs.Correctness.Serializable
import Kvs.Server.Pool

/-!
# `Correctness.Pool` — the worker threads do what one order of their commands does

A run of the worker threads is a run of `Lib.LockSystem` in which each thread has from the start the
lines of the files that it draws (`PoolInv`): a thread only gets a file when it has nothing left to do,
and commands that come later change nothing. With the dispenser of the files this makes a serial order of
all commands of all files (`pool_explained`), in which the lines of each file come once each, in the
order of the file, and which accounts for every byte of the output files and of the backups
(`pool_serializable`).
-/

namespace Kvs.Server

open Locking

variable {T : Type} {K Op Cmd S Out : Type*}

/-- The files that a thread has drawn. -/
def JobsState.drawn [DecidableEq T] (s : JobsState T) (t : T) : List Nat :=
  (s.handed.filter (fun h => h.1 = t)).map Prod.snd

/-- A thread of `thread_process_files` that is in `process_job_file`. -/
def JobsPc.isProcessing : JobsPc → Bool
  | .processing _ => true
  | _ => false

variable [DecidableEq T] [DecidableEq K]

/-- What one step does to the list of files handed out. -/
theorem stepJobs_handed {count : Nat} {s s' : JobsState T} {t : T} (h : stepJobs count s t = some s') :
    s'.handed = s.handed ++
      match s.threads t with
      | .call i => [(t, i)]
      | _ => [] := by
  unfold stepJobs at h
  cases hpc : s.threads t with
  | lock =>
      rw [hpc] at h
      simp only [Option.ite_none_right_eq_some, Option.some.injEq] at h
      obtain ⟨_, rfl⟩ := h
      simp [JobsState.goto]
  | ended =>
      rw [hpc] at h
      exact absurd h (by simp)
  | _ =>
      rw [hpc] at h
      obtain rfl := Option.some.inj h
      simp [JobsState.goto]

/-- Only the thread that steps moves. -/
theorem stepJobs_threads_ne {count : Nat} {s s' : JobsState T} {t u : T}
    (h : stepJobs count s t = some s') (hu : u ≠ t) : s'.threads u = s.threads u := by
  unfold stepJobs at h
  cases hpc : s.threads t with
  | lock =>
      rw [hpc] at h
      simp only [Option.ite_none_right_eq_some, Option.some.injEq] at h
      obtain ⟨_, rfl⟩ := h
      exact Function.update_of_ne hu _ _
  | ended =>
      rw [hpc] at h
      exact absurd h (by simp)
  | _ =>
      rw [hpc] at h
      obtain rfl := Option.some.inj h
      exact Function.update_of_ne hu _ _

theorem drawn_of_handed_eq {s s' : JobsState T} (h : s'.handed = s.handed) : s'.drawn = s.drawn := by
  unfold JobsState.drawn
  rw [h]

/-! ## What one step of the pool does -/

/-- A step hands out a file, or is one of the commands of a file, or is another step of
    `thread_process_files`. -/
inductive PoolStep (M : Machine K Op Cmd S Out) (files : List (List Cmd))
    (s : PoolState T K Op Cmd S Out) (t : T) : PoolState T K Op Cmd S Out → Prop where
  | hand {i : Nat} {jobs : JobsState T} (hpc : s.jobs.threads t = .call i)
      (hjobs : stepJobs files.length s.jobs t = some jobs) (hhanded : jobs.handed = s.jobs.handed ++ [(t, i)]) :
      PoolStep M files s t ⟨jobs, s.commands.assign (handFile files t i)⟩
  | command {commands : State T K Op (Line Cmd) S Out} (hpc : (s.jobs.threads t).isProcessing = true)
      (hbusy : ¬ (s.commands.threads t).Idle) (hstep : step M.onLines t s.commands = some commands) :
      PoolStep M files s t { s with commands := commands }
  | other {jobs : JobsState T} (hjobs : stepJobs files.length s.jobs t = some jobs)
      (hhanded : jobs.handed = s.jobs.handed)
      (hidle : (s.jobs.threads t).isProcessing = true → (s.commands.threads t).Idle) :
      PoolStep M files s t { s with jobs := jobs }

theorem poolStep_of_step {M : Machine K Op Cmd S Out} {files : List (List Cmd)}
    {s s' : PoolState T K Op Cmd S Out} {t : T} (h : stepPool M files s t = some s') :
    PoolStep M files s t s' := by
  unfold stepPool at h
  split at h
  · rename_i i hpc
    obtain ⟨jobs, hjobs, rfl⟩ := Option.map_eq_some_iff.mp h
    refine .hand hpc hjobs ?_
    rw [stepJobs_handed hjobs, hpc]
  · rename_i i hpc
    split_ifs at h with hidle
    · obtain ⟨jobs, hjobs, rfl⟩ := Option.map_eq_some_iff.mp h
      refine .other hjobs ?_ (fun _ => hidle)
      rw [stepJobs_handed hjobs, hpc, List.append_nil]
    · obtain ⟨commands, hstep, rfl⟩ := Option.map_eq_some_iff.mp h
      exact .command (by rw [hpc]; rfl) hidle hstep
  · rename_i hcall hprocessing
    obtain ⟨jobs, hjobs, rfl⟩ := Option.map_eq_some_iff.mp h
    refine .other hjobs ?_ (fun hpc => ?_)
    · rw [stepJobs_handed hjobs]
      cases hpc : s.jobs.threads t with
      | call i => exact absurd hpc (hcall i)
      | _ => simp
    · cases hpc' : s.jobs.threads t with
      | processing i => exact absurd hpc' (hprocessing i)
      | _ =>
          rw [hpc'] at hpc
          exact absurd hpc (by simp [JobsPc.isProcessing])

/-! ## The invariant -/

/-- The commands of file `i`. -/
def commandsOf (files : List (List Cmd)) (i : Nat) : List Cmd := files.getD i []

/-- The runs of the pool: the files are dispensed as in `Correctness.Jobs`, the commands are those of a
    run in which every thread had the lines of its files from the start, and a thread that is not in
    `process_job_file` has none left. -/
structure PoolInv (M : Machine K Op Cmd S Out) (files : List (List Cmd)) (σ : S)
    (s : PoolState T K Op Cmd S Out) : Prop where
  jobs : JobsInv files.length s.jobs
  reached : ∃ sched, run M.onLines sched
    (State.init σ (fun t => linesOfJobs (commandsOf files) (s.jobs.drawn t))) = some s.commands
  idle : ∀ t, (s.jobs.threads t).isProcessing = false → (s.commands.threads t).Idle

theorem poolInv_init (M : Machine K Op Cmd S Out) (files : List (List Cmd)) (σ : S) :
    PoolInv (T := T) M files σ (.init σ) where
  jobs := jobsInv_init files.length
  reached := ⟨[], rfl⟩
  idle _ _ := ⟨rfl, rfl⟩

/-- **Step lemma.** -/
theorem poolInv_step {M : Machine K Op Cmd S Out} {files : List (List Cmd)} {σ : S}
    (s : PoolState T K Op Cmd S Out) (t : T) (s' : PoolState T K Op Cmd S Out)
    (h : PoolInv M files σ s) (hs : stepPool M files s t = some s') : PoolInv M files σ s' := by
  obtain ⟨sched, hsched⟩ := h.reached
  cases poolStep_of_step hs with
  | @hand i jobs hpc hjobs hhanded =>
      refine ⟨jobsInv_step _ t _ h.jobs hjobs, ⟨sched, ?_⟩, ?_⟩
      · -- the lines of the file come at the end of those the thread has had
        have htodo : (fun u => linesOfJobs (commandsOf files) (jobs.drawn u)) = fun u =>
            linesOfJobs (commandsOf files) (s.jobs.drawn u) ++ handFile files t i u := by
          funext u
          unfold JobsState.drawn handFile
          rw [hhanded, List.filter_append, List.map_append]
          by_cases hu : u = t
          · subst hu
            simp [linesOfJobs, commandsOf]
          · have hne : t ≠ u := fun h => hu h.symm
            simp [hu, hne]
        rw [htodo, ← init_assign]
        exact run_assign _ hsched
      · intro u hu
        have hut : u ≠ t := by
          rintro rfl
          have hjobs' : jobs.threads u = .processing i := by
            have hstep := hjobs
            unfold stepJobs at hstep
            rw [hpc] at hstep
            obtain rfl := Option.some.inj hstep
            exact Function.update_self _ _ _
          rw [hjobs'] at hu
          exact absurd hu (by simp [JobsPc.isProcessing])
        rw [stepJobs_threads_ne hjobs hut] at hu
        obtain ⟨htodo, hrunning⟩ := h.idle u hu
        refine ⟨?_, hrunning⟩
        show (s.commands.threads u).todo ++ handFile files t i u = []
        rw [htodo, handFile, if_neg hut]
        rfl
  | @command commands hpc hbusy hstep =>
      refine ⟨h.jobs, ⟨sched ++ [t], ?_⟩, ?_⟩
      · rw [run_append, hsched]
        exact (run_singleton _ t _).trans hstep
      · intro u hu
        have hut : u ≠ t := by
          rintro rfl
          exact absurd (hpc.symm.trans hu) (by simp)
        have hsame : commands.threads u = s.commands.threads u := by
          cases step_inv hstep <;> exact setThread_ne _ _ _ hut
        show (commands.threads u).Idle
        rw [hsame]
        exact h.idle u hu
  | @other jobs hjobs hhanded hidle =>
      refine ⟨jobsInv_step _ t _ h.jobs hjobs, ⟨sched, ?_⟩, ?_⟩
      · show run M.onLines sched (State.init σ
          (fun u => linesOfJobs (commandsOf files) (jobs.drawn u))) = some s.commands
        rw [drawn_of_handed_eq hhanded]
        exact hsched
      · intro u hu
        by_cases hut : u = t
        · subst hut
          cases hpc : (s.jobs.threads u).isProcessing with
          | true => exact hidle hpc
          | false => exact h.idle u hpc
        · rw [stepJobs_threads_ne hjobs hut] at hu
          exact h.idle u hu

theorem poolInv_run {M : Machine K Op Cmd S Out} {files : List (List Cmd)} {σ : S} {sched : List T}
    {s : PoolState T K Op Cmd S Out}
    (hrun : Transition.run (stepPool M files) sched (.init σ) = some s) : PoolInv M files σ s :=
  Transition.run_invariant (PoolInv M files σ) poolInv_step (poolInv_init M files σ) hrun

/-! ## All files -/

/-- What it means for `order` to explain a run of the pool: it explains the run of the commands, the
    lines of each file come once each and in the order of the file, and the results of a file are those
    of its lines. -/
structure PoolExplains {L V : Type*} (M : Machine K Op Cmd (L → V) Out) (files : List (List Cmd))
    (σ₀ : L → V) (s : PoolState T K Op Cmd (L → V) Out) (order : List (Entry T (Line Cmd) Out)) :
    Prop where
  explains : Explains M.onLines σ₀ s.commands order
  only : ∀ e ∈ order, e.cmd.job < files.length
  lines : ∀ i < files.length,
    (order.filter (fun e => e.cmd.job = i)).map Entry.cmd = linesOf i (commandsOf files i)
  results : ∀ i < files.length,
    s.results i = (order.filter (fun e => e.cmd.job = i)).map (fun e => (e.cmd.cmd, e.outs))

section Ended

variable {M : Machine K Op Cmd S Out} {files : List (List Cmd)} {σ : S}
  {s : PoolState T K Op Cmd S Out}

/-- Once the threads have ended, every file has been handed to one of them. -/
theorem PoolInv.handed (h : PoolInv M files σ s) [Nonempty T]
    (hended : ∀ t, s.jobs.threads t = .ended) {i : Nat} (hi : i < files.length) :
    ∃ t, (t, i) ∈ s.jobs.handed := by
  obtain ⟨t₀⟩ := ‹Nonempty T›
  have hall : s.jobs.currentIndex = files.length := by
    have hfresh := h.jobs.fresh t₀
    rw [hended t₀] at hfresh
    exact Nat.le_antisymm h.jobs.bounded hfresh
  have hnone : ∀ t, s.jobs.dispenser.held t = none := by
    intro t
    show (s.jobs.threads t).held = none
    rw [hended t]
    rfl
  have hmem : i ∈ s.jobs.handed.map Prod.snd := by
    refine (h.jobs.dispensed.used_perm hnone).mem_iff.mpr (List.mem_range.mpr ?_)
    show i < s.jobs.currentIndex
    rw [hall]
    exact hi
  obtain ⟨⟨t, j⟩, hhanded, rfl⟩ := List.mem_map.mp hmem
  exact ⟨t, hhanded⟩

/-- A file is handed out once. -/
theorem PoolInv.handed_once (h : PoolInv M files σ s) {t : T} {i : Nat} (hi : (t, i) ∈ s.jobs.handed) :
    s.jobs.handed.filter (fun x => x.2 = i) = [(t, i)] := by
  have honce : (s.jobs.handed.map Prod.snd).Nodup := h.jobs.dispensed.usedOnce
  have hnd : s.jobs.handed.Nodup := List.Nodup.of_map Prod.snd honce
  apply List.perm_singleton.mp
  refine (List.perm_ext_iff_of_nodup (hnd.filter _) (List.nodup_singleton _)).mpr ?_
  rintro ⟨u, j⟩
  rw [List.mem_filter, List.mem_singleton]
  constructor
  · rintro ⟨hmem, hj⟩
    exact List.inj_on_of_nodup_map honce hmem hi (of_decide_eq_true hj)
  · intro heq
    rw [heq]
    exact ⟨hi, by simp⟩

omit [DecidableEq K] in
theorem mem_drawn {jobs : JobsState T} {t : T} {i : Nat} :
    i ∈ jobs.drawn t ↔ (t, i) ∈ jobs.handed := by
  constructor
  · intro h
    obtain ⟨⟨u, j⟩, hmem, rfl⟩ := List.mem_map.mp h
    obtain ⟨hmem, hu⟩ := List.mem_filter.mp hmem
    have hut : u = t := of_decide_eq_true hu
    exact hut ▸ hmem
  · intro h
    exact List.mem_map.mpr ⟨(t, i), List.mem_filter.mpr ⟨h, by simp⟩, rfl⟩

/-- A thread only draws files that there are. -/
theorem PoolInv.drawn_lt (h : PoolInv M files σ s) {t : T} {i : Nat} (hi : i ∈ s.jobs.drawn t) :
    i < files.length := by
  have hused : i ∈ s.jobs.dispenser.used := List.mem_map.mpr ⟨_, mem_drawn.mp hi, rfl⟩
  exact Nat.lt_of_lt_of_le (h.jobs.dispensed.usedBelow i hused) h.jobs.bounded

/-- What a thread has to run are commands of the files. -/
theorem PoolInv.cmd_of_drawn (h : PoolInv M files σ s) {t : T} {line : Line Cmd}
    (hline : line ∈ linesOfJobs (commandsOf files) (s.jobs.drawn t)) :
    ∃ cs ∈ files, line.cmd ∈ cs := by
  obtain ⟨i, hi, hmem⟩ := List.mem_flatMap.mp hline
  refine ⟨commandsOf files i, ?_, cmd_of_mem_linesOf hmem⟩
  rw [commandsOf, List.getD_eq_getElem _ _ (h.drawn_lt hi)]
  exact List.getElem_mem _

theorem PoolInv.drawn_nodup (h : PoolInv M files σ s) (t : T) : (s.jobs.drawn t).Nodup :=
  h.jobs.dispensed.usedOnce.sublist (List.filter_sublist.map _)

theorem PoolInv.drawn_unique (h : PoolInv M files σ s) {t u : T} {i : Nat} (ht : i ∈ s.jobs.drawn t)
    (hu : i ∈ s.jobs.drawn u) : u = t := by
  have hone := h.handed_once (mem_drawn.mp ht)
  have hmem : (u, i) ∈ s.jobs.handed.filter (fun x => x.2 = i) :=
    List.mem_filter.mpr ⟨mem_drawn.mp hu, by simp⟩
  rw [hone, List.mem_singleton] at hmem
  exact (Prod.mk.inj hmem).1

/-- Once the threads have ended, each has finished the lines of the files it has drawn. -/
theorem PoolInv.finished (h : PoolInv M files σ s) (hended : ∀ t, s.jobs.threads t = .ended) (t : T) :
    (s.commands.threads t).finished.map Prod.fst
      = linesOfJobs (commandsOf files) (s.jobs.drawn t) := by
  obtain ⟨sched, hsched⟩ := h.reached
  have hidle := h.idle t (by rw [hended t]; rfl)
  rw [hidle.program, program_run hsched]

/-- The results of a file are with the thread that has drawn it. -/
theorem PoolInv.results_eq (h : PoolInv M files σ s) {t : T} {i : Nat} (hi : i ∈ s.jobs.drawn t) :
    s.results i = ((s.commands.threads t).finished.filter (fun f => f.1.job = i)).map
      (fun f => (f.1.cmd, f.2)) := by
  rw [PoolState.results, h.handed_once (mem_drawn.mp hi), List.flatMap_singleton]

end Ended

/-- **The pool is explained by a serial order** of all lines of all files, once every run of the
    commands of the files is explained by one. -/
theorem pool_explained {L V : Type*} {M : Machine K Op Cmd (L → V) Out} {files : List (List Cmd)}
    {σ₀ : L → V} [Nonempty T] {sched : List T} {s : PoolState T K Op Cmd (L → V) Out}
    (hrun : Transition.run (stepPool M files) sched (.init σ₀) = some s)
    (hended : ∀ t, s.jobs.threads t = .ended)
    (hserial : ∀ (todo : T → List (Line Cmd)) (sched : List T) (u : State T K Op (Line Cmd) (L → V) Out),
      (∀ t, ∀ line ∈ todo t, ∃ cs ∈ files, line.cmd ∈ cs) →
      run M.onLines sched (State.init σ₀ todo) = some u → (∀ t, (u.threads t).running = none) →
      ∃ order, Explains M.onLines σ₀ u order) :
    ∃ order, PoolExplains M files σ₀ s order := by
  have h := poolInv_run hrun
  obtain ⟨sched', hsched⟩ := h.reached
  obtain ⟨order, hex⟩ := hserial _ sched' s.commands (fun _ _ => h.cmd_of_drawn) hsched
    (fun t => (h.idle t (by rw [hended t]; rfl)).2)
  refine ⟨order, hex, ?_, ?_, ?_⟩
  · intro e he
    have hline : e.cmd ∈ (s.commands.threads e.thread).finished.map Prod.fst :=
      List.mem_map.mpr ⟨_, List.mem_of_getElem? ((hex.entries e).mp he), rfl⟩
    rw [h.finished hended] at hline
    exact h.drawn_lt (job_of_mem_linesOfJobs hline)
  · intro i hi
    obtain ⟨t, ht⟩ := h.handed hended hi
    exact hex.lines_of_job (h.finished hended) (h.drawn_nodup t) (mem_drawn.mpr ht)
      (fun u hu => h.drawn_unique (mem_drawn.mpr ht) hu)
  · intro i hi
    obtain ⟨t, ht⟩ := h.handed hended hi
    rw [h.results_eq (mem_drawn.mpr ht), ← hex.of_job (h.finished hended)
      (fun u hu => h.drawn_unique (mem_drawn.mpr ht) hu), List.map_map]
    rfl

/-! ## The server -/

/-- **The worker threads are serializable.** For any job files whose strings start with a letter or a
    digit, without a `SHOW`, any number of worker threads and every order of their steps: once the threads
    have ended there is one order of all commands of all files, those of each file in its own order, that
    run one at a time leaves the same table, and writes the same bytes to every output file and to every
    backup. It respects what each thread did and real time. -/
theorem pool_serializable [Nonempty T] (stack : Nat → Nat → List Byte)
    (mem : Nat → Nat → Nat → Garbage) (files : List Stream) (cmds : List (List WorkerCmd))
    (hcmds : files.mapIdx (fun i file => jobCommands (stack i) (mem i) file) = cmds.map some)
    (hshow : ∀ cs ∈ cmds, ∀ c ∈ cs, c.isShow = false) (table : Buckets) (sched : List T)
    (s : PoolState T LockId StoreOp WorkerCmd Buckets StoreOut)
    (hrun : Transition.run (stepPool worker cmds) sched (.init table) = some s)
    (hended : ∀ t, s.jobs.threads t = .ended) :
    ∃ order, PoolExplains worker cmds table s order ∧
      s.commands.store = (serial worker (order.map (fun e => e.cmd.cmd)) table).1 ∧
      (serial worker (order.map (fun e => e.cmd.cmd)) table).2 = order.map Entry.outs ∧
      ∀ i < files.length,
        outFile s i = (order.filter (fun e => e.cmd.job = i)).flatMap
          (fun e => e.cmd.cmd.output e.outs) ∧
        backupFiles s i = (order.filter (fun e => e.cmd.job = i)).flatMap
          (fun e => (e.outs.filterMap StoreOut.copy).map showTable) := by
  obtain ⟨order, hex⟩ := pool_explained hrun hended (by
    intro todo sched' u htodo hrun' hquiet
    have hdisciplined : ∀ t, ∀ line ∈ todo t,
        Disciplined storeFootprint LockId.bucket (fun _ => none) (worker.onLines.code line) := by
      intro t line hline
      obtain ⟨cs, hcs, hmem⟩ := htodo t line hline
      exact disciplined_command (hshow cs hcs _ hmem)
    exact serializable_of_disciplined (M := worker.onLines) hdisciplined hrun' hquiet)
  have hlen : files.length = cmds.length := by
    have h := congrArg List.length hcmds
    rwa [List.length_mapIdx, List.length_map] at h
  have hserial := hex.explains.serial_eq
  rw [serial_onLines, List.map_map] at hserial
  refine ⟨order, hex, (congrArg Prod.fst hserial).symm, congrArg Prod.snd hserial, fun i hi => ?_⟩
  rw [outFile, backupFiles, hex.results i (hlen ▸ hi)]
  simp only [List.flatMap_map]
  exact ⟨trivial, trivial⟩

/-- The commands of a file, a round at a time. -/
theorem jobCommands_cons {stack : Nat → List Byte} {mem : Nat → Nat → Garbage} {file file' : Stream}
    {command : JobCmd} (h : jobRound (stack 0) file = some (command, file')) :
    jobCommands stack mem file = do
      let first ← command.toWorker (mem 0)
      let rest ← jobCommands (fun i => stack (i + 1)) (fun i => mem (i + 1)) file'
      return first.toList ++ rest := by
  rw [jobCommands, jobLoop_cons h]
  rfl

theorem jobCommands_nil (stack : Nat → List Byte) (mem : Nat → Nat → Garbage) :
    jobCommands stack mem [] = some [] := by
  rw [jobCommands, jobLoop_nil]
  rfl

/-- A file that writes a key and one that reads it. -/
def writeFileReadFile : List (List WorkerCmd) := [[writeOnes [keyA]], [.cmdRead [keyA]]]

/-- Two threads draw a file each; the second starts its `READ` in the middle of the `WRITE`. -/
def writeFileReadFileSteps : List Bool :=
  List.replicate 6 false ++ List.replicate 6 true ++ List.replicate 4 false ++ [true] ++
    List.replicate 7 false ++ List.replicate 8 true

theorem pool_serializable_writeRead :
    ∃ s : PoolState Bool LockId StoreOp WorkerCmd Buckets StoreOut,
      Transition.run (stepPool worker writeFileReadFile) writeFileReadFileSteps
        (.init createHashTable.table) = some s ∧
      ∃ order, PoolExplains worker writeFileReadFile createHashTable.table s order ∧
        s.commands.store
          = (serial worker (order.map (fun e => e.cmd.cmd)) createHashTable.table).1 ∧
        (serial worker (order.map (fun e => e.cmd.cmd)) createHashTable.table).2
          = order.map Entry.outs ∧
        ∀ i < 2,
          outFile s i = (order.filter (fun e => e.cmd.job = i)).flatMap
            (fun e => e.cmd.cmd.output e.outs) ∧
          backupFiles s i = (order.filter (fun e => e.cmd.job = i)).flatMap
            (fun e => (e.outs.filterMap StoreOut.copy).map showTable) := by
  have hends : (Transition.run (stepPool worker writeFileReadFile) writeFileReadFileSteps
      (.init createHashTable.table)).any
        (fun s => decide (∀ t, s.jobs.threads t = .ended)) = true := by
    decide +kernel
  obtain ⟨s, hrun, hended⟩ := (Option.any_eq_true _ _).mp hends
  have hwrite : jobRound [] (ascii "WRITE [(a,1)]\n")
      = some (.write [(⟨ascii "a", by decide⟩, ⟨ascii "1", by decide⟩)], []) := by
    decide +kernel
  have hread : jobRound [] (ascii "READ [a]\n") = some (.read [⟨ascii "a", by decide⟩], []) := by
    decide +kernel
  have hfirst : jobCommands (fun _ => []) (fun _ _ => Vector.replicate MAX_SESSION_COUNT 0)
      (ascii "WRITE [(a,1)]\n") = some [writeOnes [keyA]] := by
    refine (jobCommands_cons hwrite).trans ?_
    rw [jobCommands_nil]
    rfl
  have hsecond : jobCommands (fun _ => []) (fun _ _ => Vector.replicate MAX_SESSION_COUNT 0)
      (ascii "READ [a]\n") = some [.cmdRead [keyA]] := by
    refine (jobCommands_cons hread).trans ?_
    rw [jobCommands_nil]
    rfl
  refine ⟨s, hrun, pool_serializable (fun _ _ => [])
    (fun _ _ _ => Vector.replicate MAX_SESSION_COUNT 0)
    [ascii "WRITE [(a,1)]\n", ascii "READ [a]\n"] writeFileReadFile ?_ (by decide) _ _ s hrun
    (of_decide_eq_true hended)⟩
  rw [List.mapIdx_cons, List.mapIdx_cons, List.mapIdx_nil, hfirst, hsecond]
  rfl

end Kvs.Server
