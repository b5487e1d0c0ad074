import Kvs.Correctness.Frames
import Kvs.Correctness.PoolProgress
import Kvs.Server.PoolBackups

/-!
# `Correctness.PoolBackups` — the server comes to its end, its children and buffers included

A run of the threads with their children is a run of the pool, with at most two more steps for each of its
own (`poolBackups_run`), and a thread that waits for a child does not wait for ever: as long as there is a
child that runs, it can exit. So where nothing can happen any more the pool has stopped
(`pool_stopped`), and `Correctness.PoolProgress` says where it does. Nothing undefined happens on the way
when every pair, as long as it may get, fits a record and the files hold no more than `INT_MAX` `BACKUP`s
(`records_stay_short`, `ForksInv`).

With these, the server processes all its files when their keys are in the order of the buckets
(`pool_completes`), and otherwise hangs on nothing but its buckets (`pool_hangs_only_on_buckets`).
-/

namespace Kvs.Server

open Locking

variable {T : Type} [DecidableEq T] {maxBackups : Int} {files : List (List WorkerCmd)}
  {s s' : BackupPool T}

/-! ## Runs are runs of the pool -/

/-- What a run may still do before the pool has to make a step: children exit, a thread passes the test,
    or something undefined happens. -/
def BackupPool.spare (s : BackupPool T) : Nat :=
  s.running + (if s.tested then 0 else 1) + (if s.undefined then 0 else 1)

omit [DecidableEq T] in
theorem forked_cases (s : BackupPool T) (pool : PoolState T LockId StoreOp WorkerCmd Buckets StoreOut)
    (children : Nat) :
    INT_MAX ≤ s.activeBackups ∧ forked s pool children = { s with undefined := true } ∨
      forked s pool children = { s with
        pool := pool, activeBackups := s.activeBackups + 1, running := s.running + children } := by
  unfold forked
  split
  · exact Or.inr rfl
  · rename_i hmax
    exact Or.inl ⟨Int.not_lt.mp hmax, rfl⟩

omit [DecidableEq T] in
/-- Only the instruction in front of the rest matters. -/
theorem afterInstr_cases (s : BackupPool T) (pool : PoolState T LockId StoreOp WorkerCmd Buckets StoreOut)
    (rest : List (Instr LockId StoreOp)) :
    rest.head? = some (.perform .fork) ∧ afterInstr s pool rest = forked s pool 1 ∨
      ∃ tested, afterInstr s pool rest = { s with pool := pool, tested := tested } := by
  unfold afterInstr
  split
  · exact Or.inl ⟨rfl, rfl⟩
  · exact Or.inr ⟨false, rfl⟩
  · exact Or.inr ⟨s.tested, rfl⟩

omit [DecidableEq T] in
theorem spare_forked {pool : PoolState T LockId StoreOp WorkerCmd Buckets StoreOut} {children : Nat}
    (hdefined : s.undefined = false) (hone : children ≤ 1) :
    (forked s pool children).pool = s.pool ∧ (forked s pool children).spare + 1 ≤ s.spare ∨
      (forked s pool children).pool = pool ∧ (forked s pool children).spare ≤ s.spare + 1 := by
  rcases forked_cases s pool children with ⟨_, heq⟩ | heq
  · refine Or.inl ⟨by rw [heq], ?_⟩
    rw [heq]
    simp [BackupPool.spare, hdefined]
  · refine Or.inr ⟨by rw [heq], ?_⟩
    rw [heq]
    simp only [BackupPool.spare, hdefined]
    omega

/-- **Step lemma.** A step is one of the pool, or takes from what there is to spare. -/
theorem spare_step {e : PoolEvent T} (h : stepPoolBackups maxBackups files s e = some s') :
    s'.pool = s.pool ∧ s'.spare + 1 ≤ s.spare ∨
      ∃ t, stepPool worker files s.pool t = some s'.pool ∧ s'.spare ≤ s.spare + 1 := by
  obtain ⟨hdefined, hstep⟩ := poolBackupsStep_of_step h
  cases hstep with
  | passes hrest hnew htest =>
      rcases testLimit_cases htest with rfl | ⟨_, rfl⟩
      · exact Or.inl ⟨rfl, by simp [BackupPool.spare, hnew]⟩
      · exact Or.inl ⟨rfl, by simp [BackupPool.spare, hnew]⟩
  | overflows hover => exact Or.inl ⟨rfl, by simp [BackupPool.spare, hdefined]⟩
  | @instr t pool hpool =>
      rcases afterInstr_cases s pool (s.pool.rest t) with ⟨_, heq⟩ | ⟨tested, heq⟩
      · rw [heq]
        rcases spare_forked hdefined (Nat.le_refl 1) with hsame | ⟨hmoved, hspare⟩
        · exact Or.inl hsame
        · exact Or.inr ⟨t, hpool.trans (congrArg some hmoved.symm), hspare⟩
      · rw [heq]
        refine Or.inr ⟨t, hpool, ?_⟩
        simp only [BackupPool.spare, hdefined]
        split_ifs <;> omega
  | @forkFails t pool hfork hpool =>
      rcases spare_forked hdefined (Nat.zero_le 1) with hsame | ⟨hmoved, hspare⟩
      · exact Or.inl hsame
      · exact Or.inr ⟨t, hpool.trans (congrArg some hmoved.symm), hspare⟩
  | childExits hrunning =>
      refine Or.inl ⟨rfl, ?_⟩
      simp only [BackupPool.spare]
      omega

/-- **A run is a run of the pool**, and its length is bounded by that of the pool's. -/
theorem poolBackups_run {events : List (PoolEvent T)}
    (hrun : Transition.run (stepPoolBackups maxBackups files) events s = some s') :
    ∃ sched, Transition.run (stepPool worker files) sched s.pool = some s'.pool ∧
      events.length + s'.spare ≤ 2 * sched.length + s.spare := by
  induction events generalizing s with
  | nil =>
      obtain rfl := Option.some.inj hrun
      exact ⟨[], rfl, by simp⟩
  | cons e events ih =>
      obtain ⟨u, hu, hrest⟩ := Transition.run_cons_eq_some.mp hrun
      obtain ⟨sched, hsched, hlength⟩ := ih hrest
      rw [List.length_cons]
      rcases spare_step hu with ⟨hsame, hspare⟩ | ⟨t, ht, hspare⟩
      · exact ⟨sched, hsame ▸ hsched, by omega⟩
      · refine ⟨t :: sched, Transition.run_cons_eq_some.mpr ⟨u.pool, ht, hsched⟩, ?_⟩
        rw [List.length_cons]
        omega

/-- **No run goes on for ever.** -/
theorem poolBackups_bounded [Fintype T] {table : Buckets} {events : List (PoolEvent T)}
    (hrun : Transition.run (stepPoolBackups maxBackups files) events (.init table) = some s) :
    events.length ≤ 2 * totalCost T worker files + 2 := by
  obtain ⟨sched, hsched, hlength⟩ := poolBackups_run hrun
  have hpool := pool_bounded hsched
  have hspare : (BackupPool.init table : BackupPool T).spare = 2 := rfl
  rw [hspare] at hlength
  omega

/-! ## Where nothing can happen -/

omit [DecidableEq T] in
/-- A thread that waits in `wait(NULL)` waits for a child that runs. -/
theorem testLimit_isSome (maxBackups : Int) (h : s.running = 0) :
    (testLimit maxBackups s).isSome = true := by
  unfold testLimit
  split_ifs with hlimit hexited hrunning
  · rfl
  · rw [h] at hrunning
    exact absurd hrunning (Nat.lt_irrefl 0)
  · rfl
  · rfl

/-- **The pool has stopped** where nothing can happen, unless something undefined has happened. -/
theorem pool_stopped (hdefined : s.undefined = false)
    (hstuck : Halted maxBackups files s) (t : T) : stepPool worker files s.pool t = none := by
  have hworker : ∀ t, stepWorker maxBackups files s t = none := by
    intro t
    have hnone := hstuck (.next t)
    simpa [stepPoolBackups, hdefined] using hnone
  have hrunning : s.running = 0 := by
    have hnone := hstuck .childExits
    simpa [stepPoolBackups, hdefined] using hnone
  have hnone := hworker t
  unfold stepWorker at hnone
  split at hnone
  · have hsome := testLimit_isSome maxBackups hrunning
    rw [hnone] at hsome
    exact absurd hsome (by simp)
  · split at hnone
    · exact absurd hnone (by simp)
    · exact Option.map_eq_none_iff.mp hnone

/-! ## Records that fit -/

/-- Every key with its value fits a record. -/
def PairsShort (table : Buckets) : Prop :=
  ∀ i, ∀ n ∈ table i, n.key.bytes.length + n.value.bytes.length ≤ 36

/-- What the operation writes fits a record, and so does what it may report of its key. -/
def StoreOp.Short : StoreOp → Prop
  | .pair (.write k value _) => k.str.bytes.length + value.bytes.length ≤ 36
  | .pair (.read k) => k.str.bytes.length ≤ 28
  | .pair (.delete k) => k.str.bytes.length ≤ 26
  | .fork => True
  | .showBucket _ => True

/-- The strings of a command leave room for what a record has around them: each pair of a `WRITE` for the
    brackets and the comma, each key of a `READ` for `KVSERROR` too, each key of a `DELETE` for
    `KVSMISSING`. -/
def WorkerCmd.Short : WorkerCmd → Prop
  | .cmdWrite pairs _ => ∀ p ∈ pairs, p.1.str.bytes.length + p.2.bytes.length ≤ 36
  | .cmdRead keys => ∀ k ∈ keys, k.str.bytes.length ≤ 28
  | .cmdDelete keys => ∀ k ∈ keys, k.str.bytes.length ≤ 26
  | .cmdShow => True
  | .cmdBackup => True

instance (c : WorkerCmd) : Decidable c.Short :=
  match c with
  | .cmdWrite pairs _ =>
      inferInstanceAs (Decidable (∀ p ∈ pairs, p.1.str.bytes.length + p.2.bytes.length ≤ 36))
  | .cmdRead keys => inferInstanceAs (Decidable (∀ k ∈ keys, k.str.bytes.length ≤ 28))
  | .cmdDelete keys => inferInstanceAs (Decidable (∀ k ∈ keys, k.str.bytes.length ≤ 26))
  | .cmdShow => isTrue trivial
  | .cmdBackup => isTrue trivial

theorem pairsShort_create : PairsShort createHashTable.table := by
  intro i n hn
  exact absurd hn List.not_mem_nil

theorem mem_writeBucket {key value : CStr} {mem : Garbage} {bucket : List KeyNode} {n : KeyNode}
    (h : n ∈ writeBucket key value mem bucket) : n ∈ bucket ∨ n.key = key ∧ n.value = value := by
  unfold writeBucket at h
  split at h
  · rw [overwriteNode_eq] at h
    rcases Assoc.mem_overwrite h with hold | ⟨m, _, hkey, rfl⟩
    · exact Or.inl hold
    · exact Or.inr ⟨hkey, rfl⟩
  · rcases List.mem_cons.mp h with rfl | hold
    · exact Or.inr ⟨rfl, rfl⟩
    · exact Or.inl hold

/-- An operation on short pairs leaves short pairs. -/
theorem PairsShort.exec {table : Buckets} (h : PairsShort table) {op : StoreOp} (hop : op.Short) :
    PairsShort (op.exec table).1 := by
  -- only one bucket changes
  have hset : ∀ (j : Fin TABLE_SIZE) (bucket : List KeyNode),
      (∀ n ∈ bucket, n.key.bytes.length + n.value.bytes.length ≤ 36) →
      PairsShort (HashTable.set ⟨table⟩ j bucket).table := by
    intro j bucket hbucket i n hn
    by_cases hi : i = j
    · subst hi
      rw [HashTable.set_self] at hn
      exact hbucket n hn
    · rw [HashTable.set_ne _ hi] at hn
      exact h i n hn
  cases op with
  | pair op =>
      cases op with
      | write k value mem =>
          refine hset k.bucket _ (fun n hn => ?_)
          rcases mem_writeBucket hn with hold | ⟨hkey, hvalue⟩
          · exact h k.bucket n hold
          · rw [hkey, hvalue]
            exact hop
      | read k => exact hset k.bucket _ (h k.bucket)
      | delete k =>
          refine hset k.bucket _ (fun n hn => ?_)
          exact h k.bucket n ((deleteBucket_sublist k.str _).subset hn)
  | fork => exact h
  | showBucket i => exact h

/-- A short operation formats a record that fits. -/
theorem record_fits {table : Buckets} (h : PairsShort table) {op : StoreOp} (hop : op.Short)
    {record : List Byte} (hrecord : op.record (op.exec table).2 = some record) :
    Sequential.FitsBuffer record := by
  cases op with
  | pair op =>
      cases op with
      | write k value mem => exact absurd hrecord (by simp [StoreOp.record])
      | read k =>
          obtain rfl := Option.some.inj hrecord
          rw [fitsBuffer_readKey_iff]
          cases hnode : HashTable.node ⟨table⟩ k.str with
          | none => exact (Sequential.readFits_none hnode).mpr hop
          | some n =>
              rw [Sequential.readFits_some hnode]
              rw [node_key] at hnode
              obtain ⟨hmem, hkey⟩ := searchNode_some hnode
              rw [← hkey]
              exact h k.bucket n hmem
      | delete k =>
          simp only [StoreOp.record, Option.ite_none_right_eq_some] at hrecord
          obtain rfl := Option.some.inj hrecord.2
          exact (Sequential.fitsBuffer_missing_iff k.str).mpr hop
  | fork => exact absurd hrecord (by simp [StoreOp.record])
  | showBucket i => exact absurd hrecord (by simp [StoreOp.record])

/-- What a command performs, between the locks it takes and gives back. -/
theorem performed_worker (c : WorkerCmd) :
    performed (worker.code c) =
      match c with
      | .cmdWrite pairs mem => (writeCalls (sortPairs pairs) mem).map .pair
      | .cmdRead keys => ((sortKeys keys).map PairOp.read).map .pair
      | .cmdDelete keys => ((sortKeys keys).map PairOp.delete).map .pair
      | .cmdShow => (List.finRange TABLE_SIZE).map .showBucket
      | .cmdBackup => [.fork] := by
  cases c <;> exact performed_phases

/-- A short command performs short operations. -/
theorem WorkerCmd.Short.performed {c : WorkerCmd} (h : c.Short) :
    ∀ op ∈ performed (worker.code c), op.Short := by
  intro op hop
  rw [performed_worker] at hop
  cases c with
  | cmdWrite pairs mem =>
      obtain ⟨call, hcall, rfl⟩ := List.mem_map.mp hop
      obtain ⟨i, hi, rfl⟩ := List.mem_mapIdx.mp hcall
      exact h _ ((sortRows_perm pairs).mem_iff.mp (List.getElem_mem hi))
  | cmdRead keys =>
      obtain ⟨call, hcall, rfl⟩ := List.mem_map.mp hop
      obtain ⟨k, hk, rfl⟩ := List.mem_map.mp hcall
      exact h k ((sortKeys_perm keys).mem_iff.mp hk)
  | cmdDelete keys =>
      obtain ⟨call, hcall, rfl⟩ := List.mem_map.mp hop
      obtain ⟨k, hk, rfl⟩ := List.mem_map.mp hcall
      exact h k ((sortKeys_perm keys).mem_iff.mp hk)
  | cmdShow =>
      obtain ⟨i, _, rfl⟩ := List.mem_map.mp hop
      exact trivial
  | cmdBackup =>
      obtain rfl := List.mem_singleton.mp hop
      exact trivial

/-- **No record overflows** in any state of a pool whose commands and table are short. -/
theorem PoolInv.overflows_eq_false {table : Buckets}
    {p : PoolState T LockId StoreOp WorkerCmd Buckets StoreOut} (h : PoolInv worker files table p)
    (hshort : ∀ cs ∈ files, ∀ c ∈ cs, c.Short) (htable : PairsShort table) (t : T) :
    overflows p.commands.store (p.rest t) = false := by
  obtain ⟨sched, hsched⟩ := h.reached
  have hlines : ∀ u, ∀ line ∈ linesOfJobs (commandsOf files) (p.jobs.drawn u),
      ∀ op ∈ performed (worker.onLines.code line), op.Short := by
    intro u line hline
    obtain ⟨cs, hcs, hmem⟩ := h.cmd_of_drawn hline
    exact (hshort cs hcs _ hmem).performed
  obtain ⟨hstore, hleft⟩ := operations_run (M := worker.onLines) (P := StoreOp.Short) (Q := PairsShort)
    (fun op table hop htable => htable.exec hop) htable hlines hsched
  unfold overflows
  split
  · rename_i op rest hrest
    have hop : op.Short := by
      refine hleft t op (List.mem_append_left _ ?_)
      rw [← PoolState.rest, hrest]
      exact List.mem_cons_self
    rw [Bool.eq_false_iff]
    intro hover
    obtain ⟨record, hrecord, hbig⟩ := (Option.any_eq_true _ _).mp hover
    exact of_decide_eq_true hbig (record_fits hstore hop hrecord)
  · rfl

/-! ## The number of children -/

def WorkerCmd.isBackup : WorkerCmd → Bool
  | .cmdBackup => true
  | _ => false

/-- The `BACKUP`s in the files. -/
def backupCount (files : List (List WorkerCmd)) : Nat := files.flatten.countP WorkerCmd.isBackup

/-- The `BACKUP`s in the files handed out. -/
def handedForks (files : List (List WorkerCmd))
    (p : PoolState T LockId StoreOp WorkerCmd Buckets StoreOut) : Nat :=
  (p.jobs.handed.map (fun h => (commandsOf files h.2).countP WorkerCmd.isBackup)).sum

/-- The forks that the threads have left. -/
def forksLeft [Fintype T] (p : PoolState T LockId StoreOp WorkerCmd Buckets StoreOut) : Nat :=
  ∑ t, (worker.onLines.operations (p.commands.threads t)).count .fork

/-- Only a `BACKUP` forks, and it does so once. -/
theorem count_fork_code (c : WorkerCmd) :
    (performed (worker.code c)).count .fork = if c.isBackup then 1 else 0 := by
  rw [performed_worker]
  cases c with
  | cmdBackup => rfl
  | cmdWrite | cmdRead | cmdDelete | cmdShow => exact List.count_eq_zero.mpr (by simp)

theorem count_fork_commands (cs : List WorkerCmd) :
    (cs.flatMap (fun c => performed (worker.code c))).count .fork = cs.countP WorkerCmd.isBackup := by
  induction cs with
  | nil => rfl
  | cons c cs ih =>
      rw [List.flatMap_cons, List.count_append, List.countP_cons, ih, count_fork_code]
      omega

theorem count_fork_lines (i : Nat) (cs : List WorkerCmd) :
    ((linesOf i cs).flatMap (fun line => performed (worker.onLines.code line))).count .fork
      = cs.countP WorkerCmd.isBackup := by
  have hcmds := count_fork_commands ((linesOf i cs).map Line.cmd)
  rw [List.flatMap_map, linesOf_cmds] at hcmds
  exact hcmds

/-- A thread that gets file `i` has its forks to make. -/
theorem count_fork_assign (commands : State T LockId StoreOp (Line WorkerCmd) Buckets StoreOut)
    (t u : T) (i : Nat) :
    (worker.onLines.operations ((commands.assign (handFile files t i)).threads u)).count .fork
      = (worker.onLines.operations (commands.threads u)).count .fork
        + if u = t then (commandsOf files i).countP WorkerCmd.isBackup else 0 := by
  unfold Machine.operations State.assign handFile Thread.rest
  simp only [List.flatMap_append, List.count_append]
  split_ifs with hu
  · rw [count_fork_lines, commandsOf]
    omega
  · simp

/-- A step of the pool, and the fork it may make. -/
theorem forksLeft_step [Fintype T] {table : Buckets}
    {p p' : PoolState T LockId StoreOp WorkerCmd Buckets StoreOut} {t : T}
    (h : PoolInv worker files table p) (hs : stepPool worker files p t = some p') :
    forksLeft p' + (p.commands.threads t).nextOperation.toList.count .fork + handedForks files p
      = forksLeft p + handedForks files p' := by
  have hidle : (p.commands.threads t).Idle → (p.commands.threads t).nextOperation = none := by
    rintro ⟨_, hrunning⟩
    rw [Thread.nextOperation, Thread.rest, hrunning]
    rfl
  cases poolStep_of_step hs with
  | @hand i jobs hpc hjobs hhanded =>
      have hhanded' : handedForks files ⟨jobs, p.commands.assign (handFile files t i)⟩
          = handedForks files p + (commandsOf files i).countP WorkerCmd.isBackup := by
        show (jobs.handed.map _).sum = _
        rw [hhanded, List.map_append, List.sum_append]
        simp [handedForks]
      have hleft : forksLeft ⟨jobs, p.commands.assign (handFile files t i)⟩
          = forksLeft p + (commandsOf files i).countP WorkerCmd.isBackup := by
        simp only [forksLeft, count_fork_assign, Finset.sum_add_distrib]
        simp
      rw [hhanded', hleft, hidle (h.idle t (by rw [hpc]; rfl)), Option.toList_none, List.count_nil]
      omega
  | @command commands hpc hbusy hstep =>
      have hop := (operations_step (step_inv hstep)).1
      have hself : (worker.onLines.operations (commands.threads t)).count .fork
          + (p.commands.threads t).nextOperation.toList.count .fork
          = (worker.onLines.operations (p.commands.threads t)).count .fork := by
        rw [hop, List.count_append]
        omega
      have hleft : forksLeft { p with commands := commands }
          + (p.commands.threads t).nextOperation.toList.count .fork = forksLeft p :=
        sum_step hself (fun v hv => by rw [operations_step_ne (step_inv hstep) hv])
      have hhanded : handedForks files { p with commands := commands } = handedForks files p := rfl
      omega
  | @other jobs hjobs hhanded hidle' =>
      have hnone : (p.commands.threads t).nextOperation = none := by
        cases hpc : (p.jobs.threads t).isProcessing with
        | true => exact hidle (hidle' hpc)
        | false => exact hidle (h.idle t hpc)
      have hhanded' : handedForks files { p with jobs := jobs } = handedForks files p := by
        show (jobs.handed.map _).sum = _
        rw [hhanded]
        rfl
      have hleft : forksLeft { p with jobs := jobs } = forksLeft p := rfl
      rw [hnone, hhanded', hleft, Option.toList_none, List.count_nil, Nat.add_zero]

/-- The files handed out hold no more `BACKUP`s than all files. -/
theorem PoolInv.handedForks_le {table : Buckets}
    {p : PoolState T LockId StoreOp WorkerCmd Buckets StoreOut} (h : PoolInv worker files table p) :
    handedForks files p ≤ backupCount files := by
  have hsum := h.handed_sum_le (fun i => (commandsOf files i).countP WorkerCmd.isBackup)
  have hfiles : (List.range files.length).map (commandsOf files) = files := by
    apply List.ext_getElem
    · rw [List.length_map, List.length_range]
    · intro i _ hi
      rw [List.getElem_map, List.getElem_range, commandsOf, List.getD_eq_getElem _ _ hi]
  have hall : ((List.range files.length).map
      (fun i => (commandsOf files i).countP WorkerCmd.isBackup)).sum = backupCount files := by
    rw [backupCount, List.countP_flatten]
    conv_rhs => rw [← hfiles]
    rw [List.map_map]
    rfl
  exact hall ▸ hsum

/-! ## Nothing undefined -/

/-- What holds in every run of short commands: the pool is as `Correctness.Pool` says, every unit of
    `active_backups` is one of the forks that the threads have had to make and have made, and nothing
    undefined has happened. -/
structure BackupsInv [Fintype T] (files : List (List WorkerCmd)) (table : Buckets) (s : BackupPool T) :
    Prop where
  pool : PoolInv worker files table s.pool
  forks : s.activeBackups + forksLeft s.pool ≤ handedForks files s.pool
  defined : s.undefined = false

theorem backupsInv_init [Fintype T] (files : List (List WorkerCmd)) (table : Buckets) :
    BackupsInv files table (.init table : BackupPool T) where
  pool := poolInv_init worker files table
  forks := by
    have hleft : forksLeft (PoolState.init table : PoolState T LockId StoreOp WorkerCmd Buckets StoreOut)
        = 0 := Finset.sum_eq_zero (fun t _ => rfl)
    show (0 : Int) + forksLeft (PoolState.init table) ≤ _
    rw [hleft]
    exact Int.natCast_nonneg _
  defined := rfl

section Forks

variable [Fintype T] {table : Buckets} {t : T}
  {pool : PoolState T LockId StoreOp WorkerCmd Buckets StoreOut}

/-- A step of the pool that makes no fork, or one that is counted. -/
theorem BackupsInv.forks_step (h : BackupsInv files table s)
    (hpool : stepPool worker files s.pool t = some pool) :
    s.activeBackups + (s.pool.commands.threads t).nextOperation.toList.count .fork + forksLeft pool
      ≤ handedForks files pool := by
  have hstep := forksLeft_step h.pool hpool
  have hforks := h.forks
  omega

/-- There are no more forks than `BACKUP`s, so that `active_backups` stays in its range. -/
theorem BackupsInv.forked (h : BackupsInv files table s) (hbackups : backupCount files ≤ INT_MAX)
    (hpool : stepPool worker files s.pool t = some pool)
    (hfork : (s.pool.rest t).head? = some (.perform .fork)) (children : Nat) :
    BackupsInv files table (forked s pool children) := by
  have hpool' : PoolInv worker files table pool := poolInv_step _ t _ h.pool hpool
  have hforks := h.forks_step hpool
  have hnext : (s.pool.commands.threads t).nextOperation = some .fork := by
    rw [Thread.nextOperation, ← PoolState.rest, hfork]
    rfl
  rw [hnext, Option.toList_some, List.count_singleton_self] at hforks
  have hle := hpool'.handedForks_le
  rcases forked_cases s pool children with ⟨hmax, _⟩ | heq
  · exact absurd hmax (by omega)
  · rw [heq]
    refine ⟨hpool', ?_, h.defined⟩
    show s.activeBackups + 1 + forksLeft pool ≤ handedForks files pool
    omega

/-- **Step lemma.** -/
theorem backupsInv_step (hshort : ∀ cs ∈ files, ∀ c ∈ cs, c.Short) (htable : PairsShort table)
    (hbackups : backupCount files ≤ INT_MAX) (s : BackupPool T) (e : PoolEvent T) (s' : BackupPool T)
    (h : BackupsInv files table s) (hs : stepPoolBackups maxBackups files s e = some s') :
    BackupsInv files table s' := by
  cases (poolBackupsStep_of_step hs).2 with
  | passes hrest hnew htest =>
      have hforks := h.forks
      rcases testLimit_cases htest with rfl | ⟨_, rfl⟩
      · exact ⟨h.pool, hforks, h.defined⟩
      · refine ⟨h.pool, ?_, h.defined⟩
        show s.activeBackups - 1 + forksLeft s.pool ≤ handedForks files s.pool
        omega
  | @overflows t hover =>
      rw [h.pool.overflows_eq_false hshort htable t] at hover
      exact absurd hover (by simp)
  | @instr t pool hpool =>
      rcases afterInstr_cases s pool (s.pool.rest t) with ⟨hfork, heq⟩ | ⟨tested, heq⟩
      · rw [heq]
        exact h.forked hbackups hpool hfork 1
      · rw [heq]
        have hforks := h.forks_step hpool
        refine ⟨poolInv_step _ t _ h.pool hpool, ?_, h.defined⟩
        show s.activeBackups + forksLeft pool ≤ handedForks files pool
        omega
  | forkFails hfork hpool => exact h.forked hbackups hpool hfork 0
  | childExits hrunning => exact ⟨h.pool, h.forks, h.defined⟩

end Forks

/-! ## The server -/

/-- **The server processes all its files** when the keys of every command meet the condition of
    `Correctness.Deadlock`, its strings fit a record and there are no more than `INT_MAX` `BACKUP`s.
    Whatever the threads, their children and their forks have done so far, nothing undefined has
    happened, no more can happen than the files account for, and where nothing can happen any more all
    threads have ended; so they can always go on until they have. -/
theorem pool_completes [Fintype T] [Nonempty T] (maxBackups : Int) (cmds : List (List WorkerCmd))
    (hordered : ∀ cs ∈ cmds, ∀ c ∈ cs, c.BucketOrdered) (hshort : ∀ cs ∈ cmds, ∀ c ∈ cs, c.Short)
    (hbackups : backupCount cmds ≤ INT_MAX) (table : Buckets) (htable : PairsShort table)
    (events : List (PoolEvent T)) (s : BackupPool T)
    (hrun : Transition.run (stepPoolBackups maxBackups cmds) events (.init table) = some s) :
    s.undefined = false ∧ events.length ≤ 2 * totalCost T worker cmds + 2 ∧
      (Halted maxBackups cmds s → ∀ t, s.pool.jobs.threads t = .ended) ∧
      ∃ rest s', Transition.run (stepPoolBackups maxBackups cmds) rest s = some s' ∧
        ∀ t, s'.pool.jobs.threads t = .ended := by
  -- what is said of `s` is said of every state that is reached
  have hreached : ∀ events s,
      Transition.run (stepPoolBackups maxBackups cmds) events (.init table) = some s →
      s.undefined = false ∧ (Halted maxBackups cmds s → ∀ t : T, s.pool.jobs.threads t = .ended) := by
    intro events s hrun
    have h := Transition.run_invariant (BackupsInv cmds table)
      (backupsInv_step hshort htable hbackups) (backupsInv_init cmds table) hrun
    refine ⟨h.defined, fun hhalted => ?_⟩
    obtain ⟨sched, hsched, _⟩ := poolBackups_run hrun
    exact pool_ended_of_ordered (fun cs hcs c hc => ordered_command (hordered cs hcs c hc)) hsched
      (pool_stopped h.defined hhalted)
  obtain ⟨hdefined, hends⟩ := hreached events s hrun
  refine ⟨hdefined, poolBackups_bounded hrun, hends, ?_⟩
  obtain ⟨rest, s', hrest, hhalted⟩ :=
    Transition.run_stops_of_bounded (fun _ _ hrun => poolBackups_bounded hrun) hrun
  have hall : Transition.run (stepPoolBackups maxBackups cmds) (events ++ rest) (.init table)
      = some s' := by
    rw [Transition.run_append, hrun]
    exact hrest
  exact ⟨rest, s', hrest, (hreached _ _ hall).2 hhalted⟩

/-- A file with two `BACKUP`s behind a `WRITE`. -/
def backupsFile : List (List WorkerCmd) := [[writeOnes [keyA], .cmdBackup, .cmdBackup]]

/-- With one backup allowed, the second `BACKUP` waits for the child of the first. -/
theorem pool_completes_waiting :
    ∃ s : BackupPool Bool,
      Transition.run (stepPoolBackups 1 backupsFile) (List.replicate 73 (.next false))
        (.init createHashTable.table) = some s ∧
      s.running = 1 ∧ (stepPoolBackups 1 backupsFile s (.next false)).isNone = true ∧
      s.undefined = false ∧ 73 ≤ 2 * totalCost Bool worker backupsFile + 2 ∧
        (Halted 1 backupsFile s → ∀ t, s.pool.jobs.threads t = .ended) ∧
        ∃ rest s', Transition.run (stepPoolBackups 1 backupsFile) rest s = some s' ∧
          ∀ t, s'.pool.jobs.threads t = .ended := by
  have hsteps : (Transition.run (stepPoolBackups 1 backupsFile) (List.replicate 73 (.next false))
      (.init createHashTable.table)).any
        (fun s => decide (s.running = 1) &&
          (stepPoolBackups 1 backupsFile s (.next false)).isNone) = true := by
    decide +kernel
  obtain ⟨s, hrun, hs⟩ := (Option.any_eq_true _ _).mp hsteps
  obtain ⟨hrunning, hwaits⟩ := Bool.and_eq_true_iff.mp hs
  have hcompletes := pool_completes 1 backupsFile (by decide +kernel) (by decide +kernel)
    (by decide +kernel) _ pairsShort_create _ s hrun
  exact ⟨s, hrun, of_decide_eq_true hrunning, hwaits, hcompletes⟩

/-- **The server only hangs on its buckets.** For any files, any number of threads, and any order of the
    steps that they and their children make: where nothing can happen any more, all threads have ended,
    or there is a cycle of threads that wait for bucket locks, or something undefined has happened; and
    such a cycle is never left again. -/
theorem pool_hangs_only_on_buckets [Fintype T] (maxBackups : Int) (cmds : List (List WorkerCmd))
    (table : Buckets) (events : List (PoolEvent T)) (s : BackupPool T)
    (hrun : Transition.run (stepPoolBackups maxBackups cmds) events (.init table) = some s) :
    events.length ≤ 2 * totalCost T worker cmds + 2 ∧
      (Halted maxBackups cmds s → s.undefined = true ∨ (∀ t, s.pool.jobs.threads t = .ended) ∨
        Deadlock (Set.range LockId.bucket) s.pool.commands) ∧
      (Deadlock (Set.range LockId.bucket) s.pool.commands →
        ∀ rest s', Transition.run (stepPoolBackups maxBackups cmds) rest s = some s' →
          ∃ t, s'.pool.jobs.threads t ≠ .ended) := by
  obtain ⟨sched, hsched, _⟩ := poolBackups_run hrun
  refine ⟨poolBackups_bounded hrun, ?_, ?_⟩
  · intro hhalted
    cases hdefined : s.undefined with
    | true => exact Or.inl rfl
    | false =>
        have hstuck := pool_stopped hdefined hhalted
        by_cases hended : ∀ t, s.pool.jobs.threads t = .ended
        · exact Or.inr (Or.inl hended)
        · obtain ⟨t, ht⟩ := not_forall.mp hended
          exact Or.inr (Or.inr
            (pool_stuck_of_firstOnly (fun _ _ c _ => firstOnly_command c) hsched hstuck ht))
  · intro hdead rest s' hrest
    obtain ⟨sched', hsched', _⟩ := poolBackups_run hrest
    have hall : Transition.run (stepPool worker cmds) (sched ++ sched') (.init table)
        = some s'.pool := by
      rw [Transition.run_append, show Transition.run (stepPool worker cmds) sched (.init table)
        = some s.pool from hsched]
      exact hsched'
    exact (poolInv_run hall).not_ended_of_deadlock (deadlock_pool_run hdead hsched')

/-- Two files whose keys differ in case. -/
def crossingFiles : List (List WorkerCmd) :=
  [[writeOnes [keyUpperB, keyA]], [writeOnes [keyUpperA, keyB]]]

/-- Each thread takes its first bucket and then waits for that of the other. -/
def crossingEvents : List (PoolEvent Bool) :=
  List.replicate 9 (.next false) ++ List.replicate 9 (.next true)

theorem pool_hangs_only_on_buckets_crossing :
    ∃ s : BackupPool Bool,
      Transition.run (stepPoolBackups 1 crossingFiles) crossingEvents (.init createHashTable.table)
        = some s ∧
      Deadlock (Set.range LockId.bucket) s.pool.commands ∧
      ∀ rest s', Transition.run (stepPoolBackups 1 crossingFiles) rest s = some s' →
        ∃ t, s'.pool.jobs.threads t ≠ .ended := by
  have hsteps : (Transition.run (stepPoolBackups 1 crossingFiles) crossingEvents
      (.init createHashTable.table)).any
        (fun s => decide (Halted 1 crossingFiles s) && decide (s.undefined = false) &&
          decide (s.pool.jobs.threads true ≠ .ended)) = true := by
    decide +kernel
  obtain ⟨s, hrun, hs⟩ := (Option.any_eq_true _ _).mp hsteps
  simp only [Bool.and_eq_true, decide_eq_true_eq] at hs
  obtain ⟨⟨hhalted, hdefined⟩, hbusy⟩ := hs
  obtain ⟨_, hhangs, hforever⟩ := pool_hangs_only_on_buckets 1 crossingFiles _ _ s hrun
  have hdead : Deadlock (Set.range LockId.bucket) s.pool.commands := by
    rcases hhangs hhalted with hundefined | hended | hdead
    · exact absurd (hundefined.symm.trans hdefined) (by simp)
    · exact absurd (hended true) hbusy
    · exact hdead
  exact ⟨s, hrun, hdead, hforever hdead⟩

end Kvs.Server
