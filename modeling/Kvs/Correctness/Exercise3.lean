import Kvs.Correctness.Pool
import Kvs.Exercise3.Operations
import Kvs.Lib.Gate

/-!
# `Correctness.Exercise3` — with the global lock, `SHOW` is serializable too

In exercise 3 `rwlock` is a gate before the locks of the buckets in the sense of `Lib.Gate`: `WRITE` and
`DELETE`, the only commands that take a bucket exclusively, hold it shared from before the first bucket
to after the last, and `SHOW` takes it alone. So a `SHOW` is as good as one that takes all the buckets
shared, and every run of any commands in any files on any number of threads has a serial order, in which
each `SHOW` and each `BACKUP` prints the table that the commands before it leave (`pool_with_show`).
`Correctness.Show` finds that to fail for the server, where `SHOW` takes no lock.
-/

namespace Kvs.Exercise3

open Locking
open Server (Key TABLE_SIZE LockId lockLoop unlockLoop lockLoop_mem releases_perm locked_buckets_nodup
  sortKeys commandsOf PoolState PoolExplains pool_explained stepPool)

/-! ## Footprints -/

/-- The mode in which a pair operation uses its bucket. -/
def PairOp.mode : PairOp → Mode
  | .write _ _ => .exclusive
  | .read _ => .shared
  | .delete _ => .exclusive

/-- The buckets a step uses. -/
def StoreOp.access : StoreOp → Fin TABLE_SIZE → Option Mode
  | .pair op, i => if i = op.key.bucket then some op.mode else none
  | .fork, _ => some .shared
  | .showBucket j, i => if i = j then some .shared else none

/-- A pair operation in shared mode changes nothing. -/
theorem onBucket_shared {op : PairOp} (h : op.mode ≠ .exclusive) (bucket : List Exercise1.KeyNode) :
    (op.onBucket bucket).1 = bucket := by
  cases op with
  | write k value => exact absurd rfl h
  | read k => rfl
  | delete k => exact absurd rfl h

/-- What the steps use and change. -/
def storeFootprint : Footprint worker.exec where
  access := StoreOp.access
  frame o table i hacc := by
    cases o with
    | pair op =>
        show Function.update table op.key.bucket (op.onBucket (table op.key.bucket)).1 i = table i
        by_cases hi : i = op.key.bucket
        · subst hi
          rw [Function.update_self]
          apply onBucket_shared
          intro hx
          exact hacc (by simp [StoreOp.access, hx])
        · exact Function.update_of_ne hi _ _
    | fork => rfl
    | showBucket j => rfl
  out_eq o table table' hag := by
    cases o with
    | pair op =>
        have h := hag op.key.bucket (by simp [StoreOp.access])
        simp only [worker, StoreOp.exec, h]
    | fork =>
        have h : table = table' := funext (fun i => hag i (by simp [StoreOp.access]))
        rw [h]
    | showBucket j =>
        have h := hag j (by simp [StoreOp.access])
        simp only [worker, StoreOp.exec, h]
  eq_on o table table' hag i hacc := by
    cases o with
    | pair op =>
        have hi : i = op.key.bucket := by
          by_contra hne
          exact hacc (by simp [StoreOp.access, hne])
        subst hi
        simp only [worker, StoreOp.exec, Function.update_self, hag _ hacc]
    | fork => exact hag i hacc
    | showBucket j => exact hag i hacc

/-- A pair operation on one of the keys is covered by the lock of its bucket. -/
theorem pair_covered {op : PairOp} {keys : List Key} {m : Mode} (hkey : op.key ∈ keys)
    (hmode : op.mode = .exclusive → m = .exclusive) {i : Fin TABLE_SIZE} {m' : Mode}
    (hacc : StoreOp.access (.pair op) i = some m') :
    ∃ m'', (LockId.bucket i, m'') ∈ (lockLoop (fun _ => false) keys).1.map
      (fun i => (LockId.bucket i, m)) ∧ (m' = .exclusive → m'' = .exclusive) := by
  have hi : i = op.key.bucket := by
    by_contra hne
    simp [StoreOp.access, hne] at hacc
  subst hi
  have hm : op.mode = m' := by simpa [StoreOp.access] using hacc
  refine ⟨m, List.mem_map_of_mem (f := fun i => (LockId.bucket i, m)) ?_, fun h => hmode (hm.trans h)⟩
  exact (lockLoop_mem keys _ _).mpr ⟨rfl, List.mem_map_of_mem hkey⟩

/-! ## The gate -/

/-- `rwlock` before the locks of the buckets; `SHOW` is alone behind it. -/
def rwlockGate : Gate LockId StoreOp WorkerCmd where
  lock := .rwlock
  inner := (List.finRange TABLE_SIZE).map .bucket
  whole
    | .cmdShow => some ((List.finRange TABLE_SIZE).map .showBucket)
    | _ => none
  outside := by simp

theorem code_alone {c : WorkerCmd} {ops : List StoreOp} (h : rwlockGate.whole c = some ops) :
    worker.code c = rwlockGate.alone ops := by
  cases c with
  | cmdShow =>
      obtain rfl := Option.some.inj h
      rfl
  | _ => exact absurd h (by simp [rwlockGate])

theorem buckets_nodup (locked : List (Fin TABLE_SIZE)) (h : locked.Nodup) (m : Mode) :
    ((locked.map (fun i => (LockId.bucket i, m))).map Prod.fst).Nodup := by
  rw [List.map_map]
  exact h.map (fun _ _ h => LockId.bucket.inj h)

theorem rwlock_notMem_buckets (locked : List (Fin TABLE_SIZE)) (m : Mode) :
    LockId.rwlock ∉ (locked.map (fun i => (LockId.bucket i, m))).map Prod.fst := by
  simp

/-- Every other command goes through the gate. -/
theorem gated_command {c : WorkerCmd} (hc : rwlockGate.whole c = none) :
    rwlockGate.Gated (fun _ => none) (worker.code c) := by
  cases c with
  | cmdWrite pairs =>
      exact gated_phases_behind (locked_buckets_nodup _ .exclusive) (rwlock_notMem_buckets _ _)
        (releases_perm _ .exclusive)
  | cmdRead keys =>
      exact gated_phases_shared (locked_buckets_nodup _ .shared) (rwlock_notMem_buckets _ _)
        (by simp) (releases_perm _ .shared)
  | cmdDelete keys =>
      exact gated_phases_behind (locked_buckets_nodup _ .exclusive) (rwlock_notMem_buckets _ _)
        (releases_perm _ .exclusive)
  | cmdShow => exact absurd hc (by simp [rwlockGate])
  | cmdBackup =>
      refine gated_phases_shared ?_ ?_ ?_ ?_
      · rw [List.map_cons, List.nodup_cons]
        exact ⟨by simp, buckets_nodup _ (List.nodup_finRange _) .shared⟩
      · rw [List.map_cons, List.mem_cons, not_or]
        exact ⟨by simp [rwlockGate], rwlock_notMem_buckets _ _⟩
      · simp [rwlockGate]
      · rw [List.map_cons, List.map_map]
        exact List.perm_append_comm

/-- The pair operations of `kvs_write` and `kvs_delete`: the global lock first, given back last. -/
theorem disciplined_underRwlock {keys : List Key} {ops : List PairOp}
    (hops : ∀ op ∈ ops, op.key ∈ keys) :
    Disciplined storeFootprint LockId.bucket (fun _ => none)
      (phases ((LockId.rwlock, Mode.shared) ::
          (lockLoop (fun _ => false) keys).1.map (fun i => (.bucket i, .exclusive)))
        (ops.map StoreOp.pair)
        ((unlockLoop (lockLoop (fun _ => false) keys).2).map .bucket ++ [.rwlock])) := by
  apply disciplined_phases
  · rw [List.map_cons, List.nodup_cons]
    exact ⟨by simp, locked_buckets_nodup keys .exclusive⟩
  · exact List.perm_append_comm.trans ((releases_perm keys .exclusive).cons _)
  · intro o ho i m hacc
    obtain ⟨op, hop, rfl⟩ := List.mem_map.mp ho
    obtain ⟨m', hmem, hx⟩ := pair_covered (hops op hop) (fun _ => rfl) hacc
    exact ⟨m', List.mem_cons_of_mem _ hmem, hx⟩

/-- A lock before all the buckets in shared mode covers whatever only looks at the table. -/
theorem disciplined_allShared {k : LockId} (hk : ∀ i, k ≠ .bucket i) {ops : List StoreOp}
    (hops : ∀ o ∈ ops, ∀ i, o.access i ≠ some .exclusive) :
    Disciplined storeFootprint LockId.bucket (fun _ => none)
      (phases ((k, .exclusive) :: (List.finRange TABLE_SIZE).map (fun i => (.bucket i, .shared))) ops
        ((List.finRange TABLE_SIZE).map .bucket ++ [k])) := by
  apply disciplined_phases
  · rw [List.map_cons, List.nodup_cons]
    refine ⟨?_, buckets_nodup _ (List.nodup_finRange _) .shared⟩
    intro hmem
    simp only [List.map_map, List.mem_map, Function.comp_apply] at hmem
    obtain ⟨i, _, heq⟩ := hmem
    exact hk i heq.symm
  · rw [List.map_cons, List.map_map]
    exact List.perm_append_comm
  · intro o ho i m hacc
    refine ⟨.shared, List.mem_cons_of_mem _ (List.mem_map_of_mem (List.mem_finRange i)), fun h => ?_⟩
    rw [h] at hacc
    exact absurd hacc (hops o ho i)

/-- **Every command is disciplined once `SHOW` takes the buckets.** -/
theorem disciplined_wide (c : WorkerCmd) :
    Disciplined storeFootprint LockId.bucket (fun _ => none) ((worker.widen rwlockGate).code c) := by
  cases c with
  | cmdWrite pairs =>
      refine disciplined_underRwlock (fun op hop => ?_)
      obtain ⟨p, hp, rfl⟩ := List.mem_map.mp hop
      exact List.mem_map_of_mem hp
  | cmdRead keys =>
      refine disciplined_phases (locked_buckets_nodup _ .shared) (releases_perm _ .shared) ?_
      intro o ho i m hacc
      obtain ⟨op, hop, rfl⟩ := List.mem_map.mp ho
      obtain ⟨k, hk, rfl⟩ := List.mem_map.mp hop
      exact pair_covered hk (fun h => absurd h (by simp [PairOp.mode])) hacc
  | cmdDelete keys =>
      refine disciplined_underRwlock (fun op hop => ?_)
      obtain ⟨k, hk, rfl⟩ := List.mem_map.mp hop
      exact hk
  | cmdShow =>
      have hwide : (worker.widen rwlockGate).code .cmdShow
          = phases ((.rwlock, .exclusive) ::
              (List.finRange TABLE_SIZE).map (fun i => (.bucket i, .shared)))
            ((List.finRange TABLE_SIZE).map .showBucket)
            ((List.finRange TABLE_SIZE).map .bucket ++ [.rwlock]) := by
        show rwlockGate.wide _ = _
        rw [Gate.wide]
        simp only [rwlockGate, List.map_map]
        rfl
      rw [hwide]
      refine disciplined_allShared (by simp) (fun o ho i => ?_)
      obtain ⟨j, _, rfl⟩ := List.mem_map.mp ho
      simp only [StoreOp.access]
      split_ifs <;> simp
  | cmdBackup =>
      refine disciplined_allShared (by simp) (fun o ho i => ?_)
      obtain rfl := List.mem_singleton.mp ho
      simp [StoreOp.access]

/-! ## The threads -/

/-- The same gate for the commands of the files. -/
def lineGate : Gate LockId StoreOp (Line WorkerCmd) where
  lock := rwlockGate.lock
  inner := rwlockGate.inner
  whole line := rwlockGate.whole line.cmd
  outside := rwlockGate.outside

theorem gated_line {line : Line WorkerCmd} (h : lineGate.whole line = none) :
    lineGate.Gated (fun _ => none) (worker.onLines.code line) := by
  apply gated_congr (G := rwlockGate)
  · rfl
  · rfl
  · exact gated_command h

/-- What a `SHOW` and a `BACKUP` return, run alone. -/
theorem runCode_looks {c : WorkerCmd} (table : Buckets) :
    (c = .cmdShow → c.output (runCode worker (worker.code c) table).2 = kvsShowBackup table) ∧
      (c = .cmdBackup → (runCode worker (worker.code c) table).2.filterMap StoreOut.copy = [table]) := by
  constructor
  · rintro rfl
    have hreadonly : ∀ o ∈ (List.finRange TABLE_SIZE).map StoreOp.showBucket,
        ∀ table, (worker.exec o table).1 = table := by
      intro o ho table
      obtain ⟨i, _, rfl⟩ := List.mem_map.mp ho
      rfl
    show WorkerCmd.output .cmdShow (runCode worker kvsShow table).2 = _
    rw [kvsShow, runCode_phases, runCode_readonly hreadonly, WorkerCmd.output, List.flatMap_map,
      List.flatMap_map]
    rfl
  · rintro rfl
    show (runCode worker kvsBackup table).2.filterMap StoreOut.copy = _
    rw [kvsBackup, runCode_phases]
    rfl

variable {T : Type} [DecidableEq T]

/-- **Exercise 3 is serializable, `SHOW` included.** For any commands in any number of files, any number
    of worker threads and every order of their steps: once the threads have ended there is one order of
    all commands, those of each file in its own order, that run one at a time leaves the same table and
    writes the same bytes to every output file and every backup; and each `SHOW` and each `BACKUP` prints
    the table as the commands before it in that order leave it. -/
theorem pool_with_show [Nonempty T] (cmds : List (List WorkerCmd)) (table : Buckets) (sched : List T)
    (s : PoolState T LockId StoreOp WorkerCmd Buckets StoreOut)
    (hrun : Transition.run (stepPool worker cmds) sched (.init table) = some s)
    (hended : ∀ t, s.jobs.threads t = .ended) :
    ∃ order, PoolExplains worker cmds table s order ∧
      s.commands.store = (serial worker (order.map (fun e => e.cmd.cmd)) table).1 ∧
      (serial worker (order.map (fun e => e.cmd.cmd)) table).2 = order.map Entry.outs ∧
      (∀ i < cmds.length,
        outFile s i = (order.filter (fun e => e.cmd.job = i)).flatMap
          (fun e => e.cmd.cmd.output e.outs) ∧
        backupFiles s i = (order.filter (fun e => e.cmd.job = i)).flatMap
          (fun e => (e.outs.filterMap StoreOut.copy).map kvsShowBackup)) ∧
      ∀ pre e post, order = pre ++ e :: post →
        (e.cmd.cmd = .cmdShow → e.cmd.cmd.output e.outs
          = kvsShowBackup (serial worker (pre.map (fun e => e.cmd.cmd)) table).1) ∧
        (e.cmd.cmd = .cmdBackup → e.outs.filterMap StoreOut.copy
          = [(serial worker (pre.map (fun e => e.cmd.cmd)) table).1]) := by
  obtain ⟨order, hex⟩ := pool_explained hrun hended (by
    intro todo sched' u _ hrun' hquiet
    exact serializable_of_gated (M := worker.onLines) (G := lineGate)
      (fun line ops h => code_alone (c := line.cmd) h)
      (fun _ _ _ h => gated_line h)
      (fun _ line _ => disciplined_wide line.cmd) hrun' hquiet)
  have hserial := hex.explains.serial_eq
  rw [serial_onLines, List.map_map] at hserial
  refine ⟨order, hex, (congrArg Prod.fst hserial).symm, congrArg Prod.snd hserial, fun i hi => ?_, ?_⟩
  · rw [outFile, backupFiles, hex.results i hi]
    simp only [List.flatMap_map]
    exact ⟨trivial, trivial⟩
  · intro pre e post heq
    have houts := outs_of_serial (congrArg Prod.snd hserial) heq
    obtain ⟨hshow, hbackup⟩ := runCode_looks (c := e.cmd.cmd)
      (serial worker (pre.map (fun e => e.cmd.cmd)) table).1
    rw [houts]
    exact ⟨hshow, hbackup⟩

/-- A file that writes two keys and one that shows the table and copies it. -/
def writeFileShowFile : List (List WorkerCmd) :=
  [[.cmdWrite [(Server.keyA, CStr.ofBuffer (ascii "1")), (Server.keyB, CStr.ofBuffer (ascii "2"))]],
    [.cmdShow, .cmdBackup]]

/-- The `SHOW` starts while the `WRITE` holds the gate, and takes it when the `WRITE` has left. -/
def writeFileShowFileSteps : List Bool :=
  List.replicate 6 false ++ List.replicate 6 true ++ List.replicate 5 false ++ [true] ++
    List.replicate 4 false ++ List.replicate 29 true ++ List.replicate 5 false ++
    List.replicate 61 true

theorem pool_with_show_writeShow :
    ∃ s : PoolState Bool LockId StoreOp WorkerCmd Buckets StoreOut,
      Transition.run (stepPool worker writeFileShowFile) writeFileShowFileSteps
        (.init (fun _ => [])) = some s ∧
      ∃ order, PoolExplains worker writeFileShowFile (fun _ => []) s order ∧
        s.commands.store = (serial worker (order.map (fun e => e.cmd.cmd)) (fun _ => [])).1 ∧
        (serial worker (order.map (fun e => e.cmd.cmd)) (fun _ => [])).2 = order.map Entry.outs ∧
        (∀ i < 2,
          outFile s i = (order.filter (fun e => e.cmd.job = i)).flatMap
            (fun e => e.cmd.cmd.output e.outs) ∧
          backupFiles s i = (order.filter (fun e => e.cmd.job = i)).flatMap
            (fun e => (e.outs.filterMap StoreOut.copy).map kvsShowBackup)) ∧
        ∀ pre e post, order = pre ++ e :: post →
          (e.cmd.cmd = .cmdShow → e.cmd.cmd.output e.outs
            = kvsShowBackup (serial worker (pre.map (fun e => e.cmd.cmd)) (fun _ => [])).1) ∧
          (e.cmd.cmd = .cmdBackup → e.outs.filterMap StoreOut.copy
            = [(serial worker (pre.map (fun e => e.cmd.cmd)) (fun _ => [])).1]) := by
  have hends : (Transition.run (stepPool worker writeFileShowFile) writeFileShowFileSteps
      (.init (fun _ => []))).any (fun s => decide (∀ t, s.jobs.threads t = .ended)) = true := by
    decide +kernel
  obtain ⟨s, hrun, hended⟩ := (Option.any_eq_true _ _).mp hends
  exact ⟨s, hrun, pool_with_show writeFileShowFile _ _ s hrun (of_decide_eq_true hended)⟩

end Kvs.Exercise3
