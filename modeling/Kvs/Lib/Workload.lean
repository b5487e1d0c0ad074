import Kvs.Lib.TwoPhase

/-!
# `Lib.Workload` — what the threads are given to run

`State.init` gives every thread its commands at the start. Threads that are given more while they run do
nothing that they could not have done with all their commands from the start (`run_assign`), and however
far a run has come, what a thread has finished, what it is at and what it has to do are the commands it
was given, in order (`program_run`). For a run that is explained by a serial order, the part of the order
that belongs to a thread is what the thread has finished (`Explains.of_thread`).

`Line` is a command together with the job it comes from and its place there; `Machine.onLines` runs
lines as it runs their commands.
-/

namespace Locking

variable {T K Op Cmd S Out : Type*}

/-! ## Commands that come later -/

section Assign

/-- The state with more commands at the end of what each thread has to do. -/
def State.assign (s : State T K Op Cmd S Out) (more : T → List Cmd) : State T K Op Cmd S Out :=
  { s with threads := fun t => { s.threads t with todo := (s.threads t).todo ++ more t } }

theorem init_assign (σ : S) (todo more : T → List Cmd) :
    (State.init σ todo : State T K Op Cmd S Out).assign more
      = State.init σ (fun t => todo t ++ more t) := rfl

variable [DecidableEq T] [DecidableEq K] {M : Machine K Op Cmd S Out}

omit [DecidableEq K] in
/-- One thread moves, on both sides of the assignment. -/
theorem eq_assign {s u v : State T K Op Cmd S Out} {t : T} {th : Thread K Op Cmd Out}
    {more : T → List Cmd} (hu : u.threads = Function.update s.threads t th)
    (hv : v.threads = Function.update (s.assign more).threads t
      ⟨th.todo ++ more t, th.running, th.finished⟩)
    (hstore : v.store = u.store) (hlocks : v.locks = u.locks) (hlog : v.log = u.log) :
    v = u.assign more := by
  cases v
  simp only [State.assign, State.mk.injEq] at hstore hlocks hlog hv ⊢
  refine ⟨hstore, hlocks, ?_, hlog⟩
  rw [hv, hu]
  funext w
  by_cases hw : w = t
  · subst hw
    simp
  · simp [hw]

/-- A step does not depend on what its thread is to do later. -/
theorem step_assign {s u : State T K Op Cmd S Out} {t : T} (more : T → List Cmd)
    (h : step M t s = some u) : step M t (s.assign more) = some (u.assign more) := by
  cases step_inv h with
  | @start c cs hrun htodo =>
      have htodo' : ((s.assign more).threads t).todo = c :: (cs ++ more t) := by
        show (s.threads t).todo ++ more t = c :: (cs ++ more t)
        rw [htodo]
        rfl
      have hstep : Step M t (s.assign more) _ := Step.start hrun htodo'
      exact hstep.step_eq.trans (congrArg some (eq_assign rfl rfl rfl rfl rfl))
  | @finish c os hrun =>
      have hstep : Step M t (s.assign more) _ := Step.finish hrun
      exact hstep.step_eq.trans (congrArg some (eq_assign rfl rfl rfl rfl rfl))
  | @acquire c k m p os hrun hfree =>
      have hstep : Step M t (s.assign more) _ := Step.acquire hrun hfree
      exact hstep.step_eq.trans (congrArg some (eq_assign rfl rfl rfl rfl rfl))
  | @perform c o p os hrun =>
      have hstep : Step M t (s.assign more) _ := Step.perform hrun
      exact hstep.step_eq.trans (congrArg some (eq_assign rfl rfl rfl rfl rfl))
  | @release c k p os hrun =>
      have hstep : Step M t (s.assign more) _ := Step.release hrun
      exact hstep.step_eq.trans (congrArg some (eq_assign rfl rfl rfl rfl rfl))

/-- **Later commands change nothing**: a run is a run of the same threads given more to do. -/
theorem run_assign {sched : List T} {s u : State T K Op Cmd S Out} (more : T → List Cmd)
    (h : run M sched s = some u) : run M sched (s.assign more) = some (u.assign more) := by
  induction sched generalizing s with
  | nil => exact congrArg (fun v => some (v.assign more)) (Option.some.inj h)
  | cons t sched ih =>
      obtain ⟨v, hv, hrest⟩ := run_cons_eq_some.mp h
      exact run_cons_eq_some.mpr ⟨_, step_assign more hv, ih hrest⟩

end Assign

/-! ## The commands of a thread -/

section Program

/-- What a thread has finished, is at, and has to do. -/
def Thread.program (th : Thread K Op Cmd Out) : List Cmd :=
  th.finished.map Prod.fst ++ (th.running.toList.map Running.cmd ++ th.todo)

/-- The thread has nothing left. -/
def Thread.Idle (th : Thread K Op Cmd Out) : Prop := th.todo = [] ∧ th.running = none

instance (th : Thread K Op Cmd Out) : Decidable th.Idle :=
  decidable_of_iff (th.todo.isEmpty = true ∧ th.running.isNone = true) (by
    rw [List.isEmpty_iff, Option.isNone_iff_eq_none, Thread.Idle])

theorem Thread.Idle.program {th : Thread K Op Cmd Out} (h : th.Idle) :
    th.finished.map Prod.fst = th.program := by
  rw [Thread.program, h.1, h.2]
  simp

variable [DecidableEq T] [DecidableEq K] {M : Machine K Op Cmd S Out}

theorem program_step {s u : State T K Op Cmd S Out} {t : T} (h : Step M t s u) (v : T) :
    (u.threads v).program = (s.threads v).program := by
  by_cases hv : v = t
  · subst hv
    cases h with
    | start hrun htodo => simp [Thread.program, hrun, htodo]
    | finish hrun => simp [Thread.program, hrun]
    | acquire hrun hfree => simp [Thread.program, hrun]
    | perform hrun =>
        show ((State.setThread _ _ _).threads v).program = _
        simp [Thread.program, hrun]
    | release hrun => simp [Thread.program, hrun]
  · cases h <;> exact congrArg Thread.program (setThread_ne _ _ _ hv)

/-- **Nothing is lost or run twice**: the commands of a thread stay those it was given, in order. -/
theorem program_run {σ : S} {todo : T → List Cmd} {sched : List T} {s : State T K Op Cmd S Out}
    (h : run M sched (State.init σ todo) = some s) (t : T) : (s.threads t).program = todo t := by
  refine run_invariant (fun s => (s.threads t).program = todo t) ?_ ?_ h
  · intro u v v' hv hstep
    rw [program_step hstep, hv]
  · simp [State.init, Thread.program]

end Program

/-! ## The part of a serial order that belongs to a thread -/

section Order

variable {L V : Type*} [DecidableEq T] {M : Machine K Op Cmd (L → V) Out} {σ₀ : L → V}
  {s : State T K Op Cmd (L → V) Out} {order : List (Entry T Cmd Out)}

/-- Numbers in increasing order that are all those below `n`. -/
theorem eq_range_of_increasing {l : List Nat} {n : Nat} (hl : l.Pairwise (· < ·))
    (hmem : ∀ i, i ∈ l ↔ i < n) : l = List.range n := by
  have hperm : l.Perm (List.range n) := by
    refine (List.perm_ext_iff_of_nodup (hl.imp Nat.ne_of_lt) List.nodup_range).mpr (fun i => ?_)
    rw [hmem, List.mem_range]
  exact hperm.eq_of_pairwise (fun a b _ _ hab hba => absurd (hab.trans hba) (Nat.lt_irrefl a)) hl
    List.pairwise_lt_range

/-- One list of commands after the other. -/
theorem serial_append {S : Type*} (M : Machine K Op Cmd S Out) (cs ds : List Cmd) (σ : S) :
    serial M (cs ++ ds) σ
      = ((serial M ds (serial M cs σ).1).1, (serial M cs σ).2 ++ (serial M ds (serial M cs σ).1).2) := by
  induction cs generalizing σ with
  | nil => rfl
  | cons c cs ih => simp [serial, ih]

theorem serial_length {S : Type*} (M : Machine K Op Cmd S Out) (cs : List Cmd) (σ : S) :
    (serial M cs σ).2.length = cs.length := by
  induction cs generalizing σ with
  | nil => rfl
  | cons c cs ih => simp [serial, ih]

/-- **An entry in its place**: its outputs are those of its command, run alone on the store that the
    commands before it leave. -/
theorem outs_of_serial {S : Type*} {M : Machine K Op Cmd S Out} {σ : S} {A : Type*} {cmd : A → Cmd}
    {outs : A → List Out} {order : List A} (h : (serial M (order.map cmd) σ).2 = order.map outs)
    {pre post : List A} {e : A} (heq : order = pre ++ e :: post) :
    outs e = (runCode M (M.code (cmd e)) (serial M (pre.map cmd) σ).1).2 := by
  subst heq
  rw [List.map_append, List.map_append, serial_append] at h
  have hrest := (List.append_inj h (by rw [serial_length, List.length_map, List.length_map])).2
  exact (List.cons.inj hrest).1.symm

/-- **The entries of a thread** are what it has finished, in order. -/
theorem Explains.of_thread (hex : Explains M σ₀ s order) (t : T) :
    (order.filter (fun e => e.thread = t)).map (fun e => (e.cmd, e.outs)) = (s.threads t).finished := by
  have hmem : ∀ e ∈ order.filter (fun e => e.thread = t),
      (s.threads t).finished[e.index]? = some (e.cmd, e.outs) := by
    intro e he
    obtain ⟨he, ht⟩ := List.mem_filter.mp he
    have hentry := (hex.entries e).mp he
    rw [of_decide_eq_true ht] at hentry
    exact hentry
  have hincreasing : ((order.filter (fun e => e.thread = t)).map Entry.index).Pairwise (· < ·) := by
    rw [List.pairwise_map]
    refine (hex.program.filter _).imp_of_mem (fun hx hy hlt => hlt ?_)
    rw [of_decide_eq_true (List.mem_filter.mp hx).2, of_decide_eq_true (List.mem_filter.mp hy).2]
  have hrange : (order.filter (fun e => e.thread = t)).map Entry.index
      = List.range (s.threads t).finished.length := by
    apply eq_range_of_increasing hincreasing
    intro i
    constructor
    · intro hi
      obtain ⟨e, he, rfl⟩ := List.mem_map.mp hi
      exact (List.getElem?_eq_some_iff.mp (hmem e he)).1
    · intro hi
      refine List.mem_map.mpr ⟨⟨t, i, (s.threads t).finished[i].1, (s.threads t).finished[i].2⟩, ?_, rfl⟩
      refine List.mem_filter.mpr ⟨(hex.entries _).mpr ?_, by simp⟩
      exact List.getElem?_eq_getElem hi
  -- entry by entry, each is what the thread has finished under its number
  apply List.ext_getElem?
  intro n
  rw [List.getElem?_map]
  cases hn : (order.filter (fun e => e.thread = t))[n]? with
  | none =>
      rw [List.getElem?_eq_none_iff] at hn
      have hlen := congrArg List.length hrange
      rw [List.length_map, List.length_range] at hlen
      exact (List.getElem?_eq_none (hlen ▸ hn)).symm
  | some e =>
      have hindex : e.index = n := by
        have h := congrArg (fun l => l[n]?) hrange
        simp only [List.getElem?_map, hn, Option.map_some] at h
        obtain ⟨_, heq⟩ := List.getElem?_eq_some_iff.mp h.symm
        rw [List.getElem_range] at heq
        exact heq.symm
      rw [Option.map_some, ← hmem e (List.mem_of_getElem? hn), hindex]

end Order

/-! ## Jobs -/

section Lines

/-- A command with the job it comes from and its number there. -/
structure Line (Cmd : Type*) where
  job : Nat
  number : Nat
  cmd : Cmd

/-- The machine that runs lines as it runs their commands. -/
def Machine.onLines (M : Machine K Op Cmd S Out) : Machine K Op (Line Cmd) S Out where
  code line := M.code line.cmd
  exec := M.exec

/-- Alone, lines do what their commands do. -/
theorem serial_onLines (M : Machine K Op Cmd S Out) (lines : List (Line Cmd)) (σ : S) :
    serial M.onLines lines σ = serial M (lines.map Line.cmd) σ := by
  have hcode : ∀ (p : List (Instr K Op)) (σ : S), runCode M.onLines p σ = runCode M p σ := by
    intro p
    induction p with
    | nil => exact fun _ => rfl
    | cons i p ih =>
        intro σ
        cases i with
        | acquire k m => exact ih σ
        | perform o =>
            simp only [runCode, ih]
            rfl
        | release k => exact ih σ
  induction lines generalizing σ with
  | nil => rfl
  | cons line lines ih =>
      simp only [serial, List.map_cons, hcode, ih]
      rfl

/-- The lines of a job. -/
def linesOf (job : Nat) (cmds : List Cmd) : List (Line Cmd) := cmds.mapIdx (fun i c => ⟨job, i, c⟩)

theorem linesOf_cmds (job : Nat) (cmds : List Cmd) : (linesOf job cmds).map Line.cmd = cmds := by
  apply List.ext_getElem?
  intro i
  rw [linesOf, List.getElem?_map, List.getElem?_mapIdx, Option.map_map]
  exact Option.map_id_apply

theorem job_of_mem_linesOf {job : Nat} {cmds : List Cmd} {line : Line Cmd}
    (h : line ∈ linesOf job cmds) : line.job = job := by
  obtain ⟨i, hi, rfl⟩ := List.mem_mapIdx.mp h
  rfl

theorem cmd_of_mem_linesOf {job : Nat} {cmds : List Cmd} {line : Line Cmd}
    (h : line ∈ linesOf job cmds) : line.cmd ∈ cmds := by
  obtain ⟨i, hi, rfl⟩ := List.mem_mapIdx.mp h
  exact List.getElem_mem hi

/-- The lines of some jobs, one job after the other. -/
def linesOfJobs (files : Nat → List Cmd) (jobs : List Nat) : List (Line Cmd) :=
  jobs.flatMap (fun i => linesOf i (files i))

theorem job_of_mem_linesOfJobs {files : Nat → List Cmd} {jobs : List Nat} {line : Line Cmd}
    (h : line ∈ linesOfJobs files jobs) : line.job ∈ jobs := by
  obtain ⟨i, hi, hline⟩ := List.mem_flatMap.mp h
  rw [job_of_mem_linesOf hline]
  exact hi

theorem filter_linesOf (files : Nat → List Cmd) (i job : Nat) :
    (linesOf i (files i)).filter (fun line => line.job = job)
      = if i = job then linesOf job (files job) else [] := by
  split_ifs with h
  · subst h
    exact List.filter_eq_self.mpr (fun line hline => by simp [job_of_mem_linesOf hline])
  · exact List.filter_eq_nil_iff.mpr (fun line hline => by simp [job_of_mem_linesOf hline, h])

/-- Among jobs that are all different, the lines of one of them. -/
theorem filter_linesOfJobs {files : Nat → List Cmd} {jobs : List Nat} (hnd : jobs.Nodup) {job : Nat}
    (hjob : job ∈ jobs) :
    (linesOfJobs files jobs).filter (fun line => line.job = job) = linesOf job (files job) := by
  induction jobs with
  | nil => exact absurd hjob (by simp)
  | cons i jobs ih =>
      rw [List.nodup_cons] at hnd
      simp only [linesOfJobs, List.flatMap_cons, List.filter_append, filter_linesOf]
      rcases List.mem_cons.mp hjob with rfl | hmem
      · rw [if_pos rfl, List.append_right_eq_self, List.filter_eq_nil_iff]
        intro line hline
        have hne : line.job ≠ job := by
          rintro rfl
          exact hnd.1 (job_of_mem_linesOfJobs hline)
        simpa using hne
      · have hne : i ≠ job := by
          rintro rfl
          exact hnd.1 hmem
        rw [if_neg hne, List.nil_append]
        exact ih hnd.2 hmem

variable {L V : Type*} [DecidableEq T] {M : Machine K Op Cmd (L → V) Out} {σ₀ : L → V}
  {s : State T K Op (Line Cmd) (L → V) Out} {order : List (Entry T (Line Cmd) Out)}

/-- **The entries of a job** are those of the one thread that has it. -/
theorem Explains.of_job (hex : Explains M.onLines σ₀ s order) {files : Nat → List Cmd}
    {drawn : T → List Nat}
    (hfinished : ∀ t, (s.threads t).finished.map Prod.fst = linesOfJobs files (drawn t))
    {t : T} {job : Nat} (honly : ∀ u, job ∈ drawn u → u = t) :
    (order.filter (fun e => e.cmd.job = job)).map (fun e => (e.cmd, e.outs))
      = (s.threads t).finished.filter (fun f => f.1.job = job) := by
  have hthread : order.filter (fun e => e.cmd.job = job)
      = (order.filter (fun e => e.thread = t)).filter (fun e => e.cmd.job = job) := by
    rw [List.filter_filter]
    refine List.filter_congr (fun e he => ?_)
    -- whoever has finished a line of the job has drawn it
    have hdrawn : e.cmd.job ∈ drawn e.thread := by
      have hline : e.cmd ∈ (s.threads e.thread).finished.map Prod.fst :=
        List.mem_map.mpr ⟨_, List.mem_of_getElem? ((hex.entries e).mp he), rfl⟩
      rw [hfinished] at hline
      exact job_of_mem_linesOfJobs hline
    by_cases hjob : e.cmd.job = job
    · simp [hjob, honly e.thread (hjob ▸ hdrawn)]
    · simp [hjob]
  rw [hthread, ← hex.of_thread t, List.filter_map]
  rfl

/-- In a serial order the lines of a job come once each, in the order of the job. -/
theorem Explains.lines_of_job (hex : Explains M.onLines σ₀ s order) {files : Nat → List Cmd}
    {drawn : T → List Nat}
    (hfinished : ∀ t, (s.threads t).finished.map Prod.fst = linesOfJobs files (drawn t))
    {t : T} (hnd : (drawn t).Nodup) {job : Nat} (hjob : job ∈ drawn t)
    (honly : ∀ u, job ∈ drawn u → u = t) :
    (order.filter (fun e => e.cmd.job = job)).map Entry.cmd = linesOf job (files job) := by
  have hfirst : (order.filter (fun e => e.cmd.job = job)).map Entry.cmd
      = ((order.filter (fun e => e.cmd.job = job)).map (fun e => (e.cmd, e.outs))).map Prod.fst := by
    rw [List.map_map]
    rfl
  have hfilter : ((s.threads t).finished.filter (fun f => f.1.job = job)).map Prod.fst
      = ((s.threads t).finished.map Prod.fst).filter (fun line => line.job = job) := by
    rw [List.filter_map]
    rfl
  rw [hfirst, hex.of_job hfinished honly, hfilter, hfinished, filter_linesOfJobs hnd hjob]

end Lines

end Locking
