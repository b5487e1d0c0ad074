import Kvs.Correctness.Serializable
import Kvs.Lib.LockTrace

/-!
# `Correctness.Locks` — the locks `kvs_write`, `kvs_read` and `kvs_delete` take

The three functions have a loop that takes locks, a loop of pair operations and a loop that gives locks
back, linked by the flags `hashed[]` alone. `lockLoop_mem` and `unlockLoop_perm` tie the flags to the
keys; `LocksBuckets` says what follows for the trace of the whole function, prefix by prefix.

By `Lib.LockTrace` the prefixes speak of the running system: a thread about to run a pair operation
holds the lock of its bucket in every state of every run (`pair_under_lock`), so that two threads are
never at one bucket unless both only read it (`pairs_exclude`). The code is that of `Server.Operations`;
`Correctness.Frames` says when it is what runs.
-/

namespace Kvs.Server

open Locking

/-- Whether a lock is one of `rwlock_array`. -/
def LockId.isBucket : LockId → Bool
  | .backupMutex => false
  | .rwlock => false
  | .bucket _ => true

/-- **What one of the three functions does with the locks**, read off its code: the locks it takes apart
    from those of the buckets (`global`), the buckets it locks, in mode `m`, and its pair operations
    (`calls`), in order. -/
structure LocksBuckets (global : List (LockId × Mode)) (m : Mode) (keys : List Key)
    (calls : List PairOp) (code : List (Instr LockId StoreOp)) : Prop where
  /-- Each distinct bucket of the keys is locked exactly once, and no other bucket. -/
  buckets : ∀ i, ((acquired code).map Prod.fst).count (.bucket i)
    = if i ∈ keys.map Key.bucket then 1 else 0
  modes : ∀ i m', (.bucket i, m') ∈ acquired code → m' = m
  others : (acquired code).filter (fun a => !a.1.isBucket) = global
  operations : performed code = calls.map .pair
  /-- Every pair operation runs while the lock of its bucket is held in the mode it needs. -/
  covered : ∀ pre op post, code = pre ++ .perform (.pair op) :: post →
    heldAfter (fun _ => none) pre (.bucket op.key.bucket) = some op.mode
  /-- Nothing is taken after the first operation, and nothing given back before the last. -/
  growing : ∀ pre o post, code = pre ++ .perform o :: post → acquired post = []
  shrinking : ∀ pre o post, code = pre ++ .perform o :: post → released pre = []
  /-- What is given back is what was taken, and nothing is held on return. -/
  returned : (released code).Perm ((acquired code).map Prod.fst)
  settled : heldAfter (fun _ => none) code = fun _ => none

/-! ## The three functions -/

/-- The locks the first loop takes, in mode `m`. -/
def bucketLocks (keys : List Key) (m : Mode) : List (LockId × Mode) :=
  (lockLoop (fun _ => false) keys).1.map (fun i => (.bucket i, m))

/-- The buckets locked are those of the keys. -/
theorem bucket_mem_locks {global : List (LockId × Mode)}
    (hglobal : ∀ a ∈ global, a.1.isBucket = false) (keys : List Key) (m : Mode)
    (i : Fin TABLE_SIZE) :
    LockId.bucket i ∈ (global ++ bucketLocks keys m).map Prod.fst ↔ i ∈ keys.map Key.bucket := by
  have hnot : LockId.bucket i ∉ global.map Prod.fst := by
    intro hmem
    obtain ⟨a, ha, hai⟩ := List.mem_map.mp hmem
    have hbucket := hglobal a ha
    rw [hai] at hbucket
    exact absurd hbucket (by simp [LockId.isBucket])
  rw [List.map_append, List.mem_append, or_iff_right hnot, bucketLocks, List.map_map]
  constructor
  · intro hmem
    obtain ⟨j, hj, hji⟩ := List.mem_map.mp hmem
    obtain rfl := LockId.bucket.inj hji
    exact ((lockLoop_mem keys _ j).mp hj).2
  · intro hmem
    exact List.mem_map_of_mem ((lockLoop_mem keys _ i).mpr ⟨rfl, hmem⟩)

/-- A lock loop behind the global locks, the pair operations, and a release loop that leaves nothing
    held. -/
theorem locksBuckets_phases {global : List (LockId × Mode)} {m : Mode} {keys : List Key}
    {calls : List PairOp} {rels : List LockId}
    (hglobal : ∀ a ∈ global, a.1.isBucket = false)
    (hcalls : ∀ op ∈ calls, op.key ∈ keys ∧ op.mode = m)
    (hnd : ((global ++ bucketLocks keys m).map Prod.fst).Nodup)
    (hrels : rels.Perm ((global ++ bucketLocks keys m).map Prod.fst))
    (hbal : Balanced (fun _ => none)
      (phases (global ++ bucketLocks keys m) (calls.map StoreOp.pair) rels)) :
    LocksBuckets global m keys calls
      (phases (global ++ bucketLocks keys m) (calls.map StoreOp.pair) rels) where
  buckets i := by
    rw [acquired_phases, hnd.count]
    simp only [bucket_mem_locks hglobal]
  modes i m' hmem := by
    rw [acquired_phases, List.mem_append] at hmem
    rcases hmem with hmem | hmem
    · exact absurd (hglobal _ hmem) (by simp [LockId.isBucket])
    · obtain ⟨j, _, hj⟩ := List.mem_map.mp hmem
      exact (Prod.mk.inj hj).2.symm
  others := by
    rw [acquired_phases, List.filter_append, List.filter_eq_self.mpr, List.filter_eq_nil_iff.mpr,
      List.append_nil]
    · intro a ha
      obtain ⟨i, _, rfl⟩ := List.mem_map.mp ha
      simp [LockId.isBucket]
    · intro a ha
      simp [hglobal a ha]
  operations := performed_phases
  covered pre op post heq := by
    obtain ⟨before, after, hops, rfl, _⟩ := phases_split heq
    rw [heldAfter_phases]
    -- the operation is one of the calls, so the first loop has passed its key
    have hop : op ∈ calls := by
      have hmem : StoreOp.pair op ∈ calls.map StoreOp.pair := by
        rw [hops]
        simp
      obtain ⟨op', hop', heq'⟩ := List.mem_map.mp hmem
      exact StoreOp.pair.inj heq' ▸ hop'
    obtain ⟨hkey, rfl⟩ := hcalls op hop
    apply holding_of_mem hnd
    apply List.mem_append_right
    apply List.mem_map_of_mem (f := fun i => (LockId.bucket i, op.mode))
    exact (lockLoop_mem keys _ _).mpr ⟨rfl, List.mem_map_of_mem hkey⟩
  growing pre o post heq := by
    obtain ⟨before, after, _, _, rfl⟩ := phases_split heq
    exact acquired_phases
  shrinking pre o post heq := by
    obtain ⟨before, after, _, rfl, _⟩ := phases_split heq
    exact released_phases
  returned := by
    rw [acquired_phases, released_phases]
    exact hrels
  settled := hbal.heldAfter_eq

/-- `kvs_write` and `kvs_delete`: the global lock is taken first, in shared mode, and given back last. -/
theorem locksBuckets_underRwlock {keys : List Key} {calls : List PairOp}
    (hcalls : ∀ op ∈ calls, op.key ∈ keys ∧ op.mode = .exclusive) :
    LocksBuckets [(.rwlock, .shared)] .exclusive keys calls
      (phases ((LockId.rwlock, Mode.shared) :: bucketLocks keys .exclusive) (calls.map StoreOp.pair)
        ((unlockLoop (lockLoop (fun _ => false) keys).2).map .bucket ++ [.rwlock])) := by
  apply locksBuckets_phases _ hcalls
  · rw [List.singleton_append, List.map_cons, List.nodup_cons]
    refine ⟨?_, locked_buckets_nodup keys .exclusive⟩
    simp [bucketLocks]
  · exact List.perm_append_comm.trans ((releases_perm keys .exclusive).cons _)
  · exact (disciplined_underRwlock (fun op hop => (hcalls op hop).1)).balanced
  · intro a ha
    obtain rfl := List.mem_singleton.mp ha
    rfl

theorem locksBuckets_kvsWrite (pairs : List (Key × CStr)) (mem : Nat → Garbage) :
    LocksBuckets [(.rwlock, .shared)] .exclusive (pairs.map Prod.fst) (writeCalls pairs mem)
      (kvsWrite pairs mem) := by
  apply locksBuckets_underRwlock
  intro op hop
  refine ⟨key_mem_writeCalls hop, ?_⟩
  obtain ⟨n, _, rfl⟩ := List.mem_mapIdx.mp hop
  rfl

theorem locksBuckets_kvsDelete (keys : List Key) :
    LocksBuckets [(.rwlock, .shared)] .exclusive keys (keys.map .delete) (kvsDelete keys) := by
  apply locksBuckets_underRwlock
  intro op hop
  obtain ⟨k, hk, rfl⟩ := List.mem_map.mp hop
  exact ⟨hk, rfl⟩

/-- `kvs_read` takes no global lock. -/
theorem locksBuckets_kvsRead (keys : List Key) :
    LocksBuckets [] .shared keys (keys.map .read) (kvsRead keys) := by
  apply locksBuckets_phases (m := .shared)
  · intro a ha
    exact absurd ha (by simp)
  · intro op hop
    obtain ⟨k, hk, rfl⟩ := List.mem_map.mp hop
    exact ⟨hk, rfl⟩
  · exact locked_buckets_nodup keys .shared
  · exact releases_perm keys .shared
  · exact (disciplined_kvsRead keys).balanced

/-- Keys that differ in case share a lock, which is taken and given back once. -/
example :
    acquired (kvsDelete [keyB, keyA, keyUpperB])
        = [(.rwlock, .shared), (.bucket keyB.bucket, .exclusive), (.bucket keyA.bucket, .exclusive)] ∧
      released (kvsDelete [keyB, keyA, keyUpperB])
        = [.bucket keyA.bucket, .bucket keyB.bucket, .rwlock] := by
  decide

/-! ## In the running system -/

theorem balanced_command (c : WorkerCmd) : Balanced (fun _ => none) (worker.code c) := by
  cases c with
  | cmdWrite pairs mem => exact (disciplined_kvsWrite _ mem).balanced
  | cmdRead keys => exact (disciplined_kvsRead _).balanced
  | cmdDelete keys => exact (disciplined_kvsDelete _).balanced
  | cmdShow =>
      have hshow : processCommand .cmdShow
          = ((List.finRange TABLE_SIZE).map StoreOp.showBucket).map Instr.perform := by
        simp [processCommand, kvsShow, phases]
      show Balanced (fun _ => none) (processCommand .cmdShow)
      rw [hshow]
      exact balanced_performs _
  | cmdBackup => exact disciplined_kvsBackup.balanced

/-- A pair operation of any command stands where the lock of its bucket is held in its mode. -/
theorem heldAfter_pair (c : WorkerCmd) {pre post : List (Instr LockId StoreOp)} {op : PairOp}
    (h : worker.code c = pre ++ .perform (.pair op) :: post) :
    heldAfter (fun _ => none) pre (.bucket op.key.bucket) = some op.mode := by
  cases c with
  | cmdWrite pairs mem => exact (locksBuckets_kvsWrite _ mem).covered pre op post h
  | cmdRead keys => exact (locksBuckets_kvsRead _).covered pre op post h
  | cmdDelete keys => exact (locksBuckets_kvsDelete _).covered pre op post h
  | cmdShow =>
      obtain ⟨before, after, hops, _, _⟩ := phases_split h
      have hmem : StoreOp.pair op ∈ (List.finRange TABLE_SIZE).map StoreOp.showBucket := by
        rw [hops]
        simp
      exact absurd hmem (by simp)
  | cmdBackup =>
      obtain ⟨before, after, hops, _, _⟩ := phases_split h
      have hmem : StoreOp.pair op ∈ [StoreOp.fork] := by
        rw [hops]
        simp
      exact absurd hmem (by simp)

section Runs

variable {T : Type*} [DecidableEq T] {s : State T LockId StoreOp WorkerCmd Buckets StoreOut}

/-- The pair operation a thread is about to run. -/
def AboutTo (s : State T LockId StoreOp WorkerCmd Buckets StoreOut) (t : T) (op : PairOp) : Prop :=
  ∃ c rest outs, (s.threads t).running = some ⟨c, .perform (.pair op) :: rest, outs⟩

theorem held_of_aboutTo (hF : Follows worker (Traced worker) s) {t : T} {op : PairOp}
    (ht : AboutTo s t op) : s.held t (.bucket op.key.bucket) = some op.mode := by
  obtain ⟨c, rest, outs, hr⟩ := ht
  obtain ⟨pre, hcode, hheld⟩ := hF.held_eq_heldAfter hr
  rw [hheld]
  exact heldAfter_pair c hcode

/-- **Pair operations run under their locks**, in every state of every run of any number of threads with
    any commands, `SHOW` and `BACKUP` among them. -/
theorem pair_under_lock (table : Buckets) (todo : T → List WorkerCmd) (sched : List T)
    (hrun : run worker sched (State.init table todo) = some s) (t : T) (op : PairOp)
    (ht : AboutTo s t op) : s.held t (.bucket op.key.bucket) = some op.mode :=
  held_of_aboutTo (follows_traced (fun _ c _ => balanced_command c) hrun) ht

/-- While another thread holds the bucket, in any mode, a pair operation there only reads. -/
theorem shared_of_aboutTo (hF : Follows worker (Traced worker) s) {t u : T} (hne : u ≠ t)
    {op : PairOp} (ht : AboutTo s t op) {m : Mode}
    (hu : s.held u (.bucket op.key.bucket) = some m) : op.mode = .shared := by
  have hheld := held_of_aboutTo hF ht
  cases hm : op.mode with
  | shared => rfl
  | exclusive =>
      rw [hm] at hheld
      exact absurd (hF.locks.exclusion hheld hu) hne

/-- **Pair operations on one bucket exclude each other**, unless both only read. -/
theorem pairs_exclude (table : Buckets) (todo : T → List WorkerCmd) (sched : List T)
    (hrun : run worker sched (State.init table todo) = some s) {t u : T} (hne : u ≠ t)
    {op op' : PairOp} (ht : AboutTo s t op) (hu : AboutTo s u op')
    (hbucket : op.key.bucket = op'.key.bucket) : op.mode = .shared ∧ op'.mode = .shared := by
  have hF := follows_traced (fun _ c _ => balanced_command c) hrun
  have hheld := held_of_aboutTo hF ht
  have hheld' := held_of_aboutTo hF hu
  rw [hbucket] at hheld
  rw [← hbucket] at hheld'
  exact ⟨shared_of_aboutTo hF hne ht hheld', shared_of_aboutTo hF hne.symm hu hheld⟩

end Runs

end Kvs.Server
