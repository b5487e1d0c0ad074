import Kvs.Server.Operations

/-!
# `Correctness.Serializable` — the locking commands are serializable

`WRITE`, `READ`, `DELETE` and `BACKUP` take all their locks before the first pair operation and cover
every operation with the lock of its bucket, in exclusive mode where it changes the bucket
(`disciplined_command`). `Lib.TwoPhase` then gives a serial order for every run of any number of threads
(`commands_serializable`). `SHOW` takes no lock at all and is left out.
-/

namespace Kvs.Server

open Locking

/-! ## Footprints -/

/-- The mode in which a pair operation uses its bucket. -/
def PairOp.mode : PairOp → Mode
  | .write _ _ _ => .exclusive
  | .read _ => .shared
  | .delete _ => .exclusive

/-- The buckets a step uses. -/
def StoreOp.access : StoreOp → Fin TABLE_SIZE → Option Mode
  | .pair op, i => if i = op.key.bucket then some op.mode else none
  | .fork, _ => some .shared
  | .showBucket j, i => if i = j then some .shared else none

theorem apply_table_self (op : PairOp) (ht : HashTable) :
    (op.apply ht).1.table op.key.bucket = (op.onBucket (ht.table op.key.bucket)).1 := by
  simp [PairOp.apply]

theorem apply_table_ne (op : PairOp) (ht : HashTable) {i : Fin TABLE_SIZE} (h : i ≠ op.key.bucket) :
    (op.apply ht).1.table i = ht.table i := by
  simp [PairOp.apply, HashTable.set_ne _ h]

/-- A pair operation in shared mode changes nothing. -/
theorem onBucket_shared {op : PairOp} (h : op.mode ≠ .exclusive) (bucket : List KeyNode) :
    (op.onBucket bucket).1 = bucket := by
  cases op with
  | write k value mem => exact absurd rfl h
  | read k => rfl
  | delete k => exact absurd rfl h

/-- What the steps use and change. -/
def storeFootprint : Footprint worker.exec where
  access := StoreOp.access
  frame o table i hacc := by
    cases o with
    | pair op =>
        show (op.apply ⟨table⟩).1.table i = table i
        by_cases hi : i = op.key.bucket
        · subst hi
          rw [apply_table_self]
          apply onBucket_shared
          intro hx
          exact hacc (by simp [StoreOp.access, hx])
        · exact apply_table_ne op ⟨table⟩ hi
    | fork => rfl
    | showBucket j => rfl
  out_eq o table table' hag := by
    cases o with
    | pair op =>
        have h := hag op.key.bucket (by simp [StoreOp.access])
        simp only [worker, StoreOp.exec, PairOp.apply, h]
    | fork =>
        have h : table = table' := funext (fun i => hag i (by simp [StoreOp.access]))
        rw [h]
    | showBucket j =>
        have h := hag j (by simp [StoreOp.access])
        simp only [worker, StoreOp.exec, h]
  eq_on o table table' hag i hacc := by
    cases o with
    | pair op =>
        have hi : i = op.key.bucket := by
          by_contra hne
          exact hacc (by simp [StoreOp.access, hne])
        subst hi
        show (op.apply ⟨table⟩).1.table _ = (op.apply ⟨table'⟩).1.table _
        rw [apply_table_self, apply_table_self]
        exact congrArg (fun b => (op.onBucket b).1) (hag _ hacc)
    | fork => exact hag i hacc
    | showBucket j => exact hag i hacc

/-! ## The discipline -/

/-- The locks of the buckets of the keys, and the global lock before them, come back at the end. -/
theorem releases_perm (keys : List Key) (m : Mode) :
    ((unlockLoop (lockLoop (fun _ => false) keys).2).map LockId.bucket).Perm
      (((lockLoop (fun _ => false) keys).1.map (fun i => (LockId.bucket i, m))).map Prod.fst) := by
  rw [List.map_map]
  exact (unlockLoop_perm keys).map _

theorem locked_buckets_nodup (keys : List Key) (m : Mode) :
    (((lockLoop (fun _ => false) keys).1.map (fun i => (LockId.bucket i, m))).map
      Prod.fst).Nodup := by
  rw [List.map_map]
  exact (lockLoop_nodup keys _).map (fun _ _ h => LockId.bucket.inj h)

/-- A pair operation on one of the keys is covered by the lock of its bucket. -/
theorem pair_covered {op : PairOp} {keys : List Key} {m : Mode} (hkey : op.key ∈ keys)
    (hmode : op.mode = .exclusive → m = .exclusive) {i : Fin TABLE_SIZE} {m' : Mode}
    (hacc : StoreOp.access (.pair op) i = some m') :
    ∃ m'', (LockId.bucket i, m'') ∈ (lockLoop (fun _ => false) keys).1.map
      (fun i => (LockId.bucket i, m)) ∧ (m' = .exclusive → m'' = .exclusive) := by
  have hi : i = op.key.bucket := by
    by_contra hne
    simp [StoreOp.access, hne] at hacc
  subst hi
  have hm : op.mode = m' := by simpa [StoreOp.access] using hacc
  refine ⟨m, List.mem_map_of_mem (f := fun i => (LockId.bucket i, m)) ?_, fun h => hmode (hm.trans h)⟩
  exact (lockLoop_mem keys _ _).mpr ⟨rfl, List.mem_map_of_mem hkey⟩

theorem key_mem_writeCalls {pairs : List (Key × CStr)} {mem : Nat → Garbage} {op : PairOp}
    (h : op ∈ writeCalls pairs mem) : op.key ∈ pairs.map Prod.fst := by
  obtain ⟨n, hn, rfl⟩ := List.mem_mapIdx.mp h
  exact List.mem_map_of_mem (List.getElem_mem hn)

/-- The pair operations of `kvs_write` and `kvs_delete`: the global lock first, given back last. -/
theorem disciplined_underRwlock {keys : List Key} {ops : List PairOp}
    (hops : ∀ op ∈ ops, op.key ∈ keys) :
    Disciplined storeFootprint LockId.bucket (fun _ => none)
      (phases ((LockId.rwlock, Mode.shared) ::
          (lockLoop (fun _ => false) keys).1.map (fun i => (.bucket i, .exclusive)))
        (ops.map StoreOp.pair)
        ((unlockLoop (lockLoop (fun _ => false) keys).2).map .bucket ++ [.rwlock])) := by
  apply disciplined_phases
  · rw [List.map_cons, List.nodup_cons]
    exact ⟨by simp, locked_buckets_nodup keys .exclusive⟩
  · exact List.perm_append_comm.trans ((releases_perm keys .exclusive).cons _)
  · intro o ho i m hacc
    obtain ⟨op, hop, rfl⟩ := List.mem_map.mp ho
    obtain ⟨m', hmem, hx⟩ := pair_covered (hops op hop) (fun _ => rfl) hacc
    exact ⟨m', List.mem_cons_of_mem _ hmem, hx⟩

theorem disciplined_kvsWrite (pairs : List (Key × CStr)) (mem : Nat → Garbage) :
    Disciplined storeFootprint LockId.bucket (fun _ => none) (kvsWrite pairs mem) :=
  disciplined_underRwlock (fun _ hop => key_mem_writeCalls hop)

theorem disciplined_kvsDelete (keys : List Key) :
    Disciplined storeFootprint LockId.bucket (fun _ => none) (kvsDelete keys) := by
  apply disciplined_underRwlock
  intro op hop
  obtain ⟨k, hk, rfl⟩ := List.mem_map.mp hop
  exact hk

theorem disciplined_kvsRead (keys : List Key) :
    Disciplined storeFootprint LockId.bucket (fun _ => none) (kvsRead keys) := by
  apply disciplined_phases
  · exact locked_buckets_nodup keys .shared
  · exact releases_perm keys .shared
  · intro o ho i m hacc
    obtain ⟨op, hop, rfl⟩ := List.mem_map.mp ho
    obtain ⟨k, hk, rfl⟩ := List.mem_map.mp hop
    exact pair_covered hk (fun h => absurd h (by simp [PairOp.mode])) hacc

theorem disciplined_kvsBackup :
    Disciplined storeFootprint LockId.bucket (fun _ => none) kvsBackup := by
  apply disciplined_phases
  · rw [List.map_cons, List.nodup_cons, List.map_map]
    refine ⟨by simp, (List.nodup_finRange _).map (fun _ _ h => LockId.bucket.inj h)⟩
  · rw [List.map_cons, List.map_map]
    exact List.perm_append_comm
  · intro o ho i m hacc
    obtain rfl := List.mem_singleton.mp ho
    refine ⟨.shared, ?_, fun h => ?_⟩
    · exact List.mem_cons_of_mem _ (List.mem_map_of_mem (List.mem_finRange i))
    · have hm : Mode.shared = m := Option.some.inj hacc
      exact absurd (hm.trans h) (by simp)

/-- **Every command but `SHOW` follows the locking discipline.** -/
theorem disciplined_command {c : WorkerCmd} (hc : c.isShow = false) :
    Disciplined storeFootprint LockId.bucket (fun _ => none) (worker.code c) := by
  cases c with
  | cmdWrite pairs mem => exact disciplined_kvsWrite _ mem
  | cmdRead keys => exact disciplined_kvsRead _
  | cmdDelete keys => exact disciplined_kvsDelete _
  | cmdShow => exact absurd hc (by simp [WorkerCmd.isShow])
  | cmdBackup => exact disciplined_kvsBackup

/-! ## Serializability -/

variable {T : Type*} [DecidableEq T]

/-- **The commands are serializable.** For any number of threads and every interleaving after which all
    started commands have completed, some order of the completed commands, consistent with each thread's
    own order and with real time, gives one at a time the same table, the same results of every step,
    and so the same bytes in the output files and the same copy in every backup. -/
theorem commands_serializable (table : Buckets) (todo : T → List WorkerCmd)
    (htodo : ∀ t, ∀ c ∈ todo t, c.isShow = false) (sched : List T)
    (s : State T LockId StoreOp WorkerCmd Buckets StoreOut)
    (hrun : run worker sched (State.init table todo) = some s)
    (hquiet : ∀ t, (s.threads t).running = none) :
    ∃ order : List (Entry T WorkerCmd StoreOut), Explains worker table s order ∧
      List.zipWith WorkerCmd.output (order.map Entry.cmd)
          (serial worker (order.map Entry.cmd) table).2
        = order.map (fun e => e.cmd.output e.outs) ∧
      (serial worker (order.map Entry.cmd) table).2.map (List.filterMap StoreOut.copy)
        = order.map (fun e => e.outs.filterMap StoreOut.copy) := by
  obtain ⟨order, hex⟩ := serializable_of_disciplined
    (fun t c hc => disciplined_command (htodo t c hc)) hrun hquiet
  refine ⟨order, hex, ?_, ?_⟩
  · rw [hex.serial_eq]
    simp [List.zipWith_map]
  · rw [hex.serial_eq]
    simp

/-- Two threads on one key: a `WRITE` and then a `READ`, against a `DELETE`. -/
def writeReadDelete : Fin 2 → List WorkerCmd :=
  twoThreads [writeOnes [keyA], .cmdRead [keyA]] [.cmdDelete [keyB, keyA]]

/-- The `DELETE` starts while the `WRITE` holds the bucket, and waits for it. -/
theorem commands_serializable_writeReadDelete :
    ∃ s, run worker [0, 1, 0, 1, 0, 0, 0, 0, 0, 1, 1, 1, 1, 1, 1, 1, 1, 0, 0, 0, 0, 0]
        (State.init createHashTable.table writeReadDelete) = some s ∧
      ∃ order : List (Entry (Fin 2) WorkerCmd StoreOut), Explains worker createHashTable.table s order ∧
        List.zipWith WorkerCmd.output (order.map Entry.cmd)
            (serial worker (order.map Entry.cmd) createHashTable.table).2
          = order.map (fun e => e.cmd.output e.outs) ∧
        (serial worker (order.map Entry.cmd) createHashTable.table).2.map
            (List.filterMap StoreOut.copy)
          = order.map (fun e => e.outs.filterMap StoreOut.copy) := by
  have hends : (run worker [0, 1, 0, 1, 0, 0, 0, 0, 0, 1, 1, 1, 1, 1, 1, 1, 1, 0, 0, 0, 0, 0]
      (State.init createHashTable.table writeReadDelete)).any
        (fun s => decide (∀ t, (s.threads t).running.isNone = true)) = true := by
    decide +kernel
  obtain ⟨s, hrun, hquiet⟩ := (Option.any_eq_true _ _).mp hends
  have hquiet' : ∀ t, (s.threads t).running = none := by
    intro t
    exact Option.isNone_iff_eq_none.mp (of_decide_eq_true hquiet t)
  exact ⟨s, hrun, commands_serializable _ _ (by decide) _ s hrun hquiet'⟩

end Kvs.Server
