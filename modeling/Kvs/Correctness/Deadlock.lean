import Kvs.Correctness.Serializable
import Kvs.Lib.LockOrder

/-!
# `Correctness.Deadlock` — when the bucket locks cannot deadlock

A command takes its bucket locks in the `strcmp` order of its keys, and `BACKUP` takes them in the order
of the buckets. The two orders differ: `hash` folds case and sends digits onto the buckets of letters, so
`B` comes before `a` though its bucket comes after. Two commands then wait for each other
(`write_write_deadlock`). When the least key of each bucket that a command names comes in the order of
the buckets (`WorkerCmd.BucketOrdered`), the command takes its locks in that order, and no run of such
commands, on any number of threads, reaches a cycle of waiting threads (`no_bucket_deadlock`).
-/

namespace Kvs.Server

open Locking

/-! ## The order in which the locks are taken -/

/-- The mutex before the global lock before the buckets, these in their own order. -/
def LockId.rank : LockId → Nat
  | .backupMutex => 0
  | .rwlock => 1
  | .bucket i => 2 + i.val

theorem sortKeys_perm (keys : List Key) : (sortKeys keys).Perm keys := sortRows_keys_perm keys

theorem sortRows_keys_sorted {ν : Type*} [Inhabited ν] (l : List (Key × ν)) :
    ((sortRows (fun j k => strcmp j.str k.str) l).map Prod.fst).Pairwise
      (fun j k => strcmp j.str k.str ≤ 0) := by
  rw [List.pairwise_map]
  exact @sortRows_sorted Key ν (fun j k => strcmp j.str k.str) _ _
    (fun j k => strcmp_le_total j.str k.str) (fun _ _ _ => strcmp_le_trans) l

/-- **The condition on a command.** Where it names a key whose bucket comes below the bucket of another
    of its keys, it names a key of the lower bucket that comes before that other one under `strcmp`. -/
def WorkerCmd.BucketOrdered (c : WorkerCmd) : Prop :=
  ∀ j ∈ c.keys, ∀ k ∈ c.keys, k.bucket < j.bucket →
    ∃ i ∈ c.keys, i.bucket = k.bucket ∧ strcmp i.str j.str < 0

/-- Sorted keys of a command that meets the condition have their locks taken in the order of the
    buckets. -/
theorem lockLoop_sorted_of_bucketOrdered {c : WorkerCmd} (hc : c.BucketOrdered) {keys : List Key}
    (hperm : keys.Perm c.keys) (hsorted : keys.Pairwise (fun j k => strcmp j.str k.str ≤ 0)) :
    (lockLoop (fun _ => false) keys).1.Pairwise (· < ·) := by
  apply lockLoop_sorted
  intro pre k post heq j hj hlt
  have hmem : ∀ i, i ∈ pre ++ k :: post → i ∈ c.keys := by
    intro i hi
    rw [← heq] at hi
    exact hperm.mem_iff.mp hi
  obtain ⟨i, hi, hbucket, hbefore⟩ := hc k (hmem k (by simp)) j (hmem j (by simp [hj])) hlt
  rw [← hperm.mem_iff, heq, List.mem_append, List.mem_cons] at hi
  rw [heq, List.pairwise_append, List.pairwise_cons] at hsorted
  rcases hi with hi | rfl | hi
  · exact Or.inr (hbucket ▸ List.mem_map_of_mem hi)
  · -- the key itself is not in a lower bucket
    rw [hbucket] at hlt
    exact absurd hlt (lt_irrefl _)
  · -- a key after `k` does not come before it
    have hle := hsorted.2.1.1 i hi
    rw [strcmp_swap i.str k.str] at hle
    omega

theorem bucket_ranks_sorted {locked : List (Fin TABLE_SIZE)} {m : Mode}
    (h : locked.Pairwise (· < ·)) :
    ((locked.map (fun i => (LockId.bucket i, m))).map Prod.fst).Pairwise
      (fun j k => j.rank < k.rank) := by
  rw [List.map_map, List.pairwise_map]
  exact h.imp (fun hlt => Nat.add_lt_add_left hlt 2)

theorem rank_lt_bucket {l : LockId} (hl : l.rank < 2) {locked : List (Fin TABLE_SIZE)} {m : Mode} :
    ∀ k ∈ (locked.map (fun i => (LockId.bucket i, m))).map Prod.fst, l.rank < k.rank := by
  intro k hk
  simp only [List.map_map, List.mem_map, Function.comp_apply] at hk
  obtain ⟨i, _, rfl⟩ := hk
  show l.rank < 2 + i.val
  omega

/-- The locks of `kvs_write` and `kvs_delete`. -/
theorem ordered_underRwlock {keys : List Key} {ops : List PairOp}
    (hkeys : (lockLoop (fun _ => false) keys).1.Pairwise (· < ·)) :
    Ordered LockId.rank (fun _ => none)
      (phases ((LockId.rwlock, Mode.shared) ::
          (lockLoop (fun _ => false) keys).1.map (fun i => (.bucket i, .exclusive)))
        (ops.map StoreOp.pair)
        ((unlockLoop (lockLoop (fun _ => false) keys).2).map .bucket ++ [.rwlock])) := by
  apply ordered_phases
  · rw [List.map_cons, List.pairwise_cons]
    exact ⟨rank_lt_bucket (by decide), bucket_ranks_sorted hkeys⟩
  · exact List.perm_append_comm.trans ((releases_perm keys .exclusive).cons _)

theorem ordered_kvsRead {keys : List Key}
    (hkeys : (lockLoop (fun _ => false) keys).1.Pairwise (· < ·)) :
    Ordered LockId.rank (fun _ => none) (kvsRead keys) :=
  ordered_phases (bucket_ranks_sorted hkeys) (releases_perm keys .shared)

theorem ordered_kvsBackup : Ordered LockId.rank (fun _ => none) kvsBackup := by
  apply ordered_phases
  · rw [List.map_cons, List.pairwise_cons]
    exact ⟨rank_lt_bucket (by decide), bucket_ranks_sorted (List.pairwise_lt_finRange _)⟩
  · rw [List.map_cons, List.map_map]
    exact List.perm_append_comm

/-- A command that meets the condition takes its locks in the order of their ranks. -/
theorem ordered_command {c : WorkerCmd} (hc : c.BucketOrdered) :
    Ordered LockId.rank (fun _ => none) (worker.code c) := by
  cases c with
  | cmdWrite pairs mem =>
      exact ordered_underRwlock (lockLoop_sorted_of_bucketOrdered hc
        ((sortRows_perm pairs).map Prod.fst) (sortRows_keys_sorted pairs))
  | cmdRead keys =>
      exact ordered_kvsRead (lockLoop_sorted_of_bucketOrdered hc (sortKeys_perm keys)
        (sortRows_keys_sorted _))
  | cmdDelete keys =>
      exact ordered_underRwlock (lockLoop_sorted_of_bucketOrdered hc (sortKeys_perm keys)
        (sortRows_keys_sorted _))
  | cmdShow => exact ordered_phases List.Pairwise.nil (List.Perm.refl _)
  | cmdBackup => exact ordered_kvsBackup

/-! ## Deadlock -/

variable {T : Type*} [DecidableEq T]

/-- **No deadlock on the bucket locks**, for any number of threads and any interleaving, when every
    command meets the condition; `BACKUP` always does. -/
theorem no_bucket_deadlock (table : Buckets) (todo : T → List WorkerCmd)
    (htodo : ∀ t, ∀ c ∈ todo t, c.BucketOrdered) (sched : List T)
    (s : State T LockId StoreOp WorkerCmd Buckets StoreOut)
    (hrun : run worker sched (State.init table todo) = some s) :
    ¬ Deadlock (Set.range LockId.bucket) s :=
  no_deadlock_of_ordered (fun t c hc => ordered_command (htodo t c hc)) hrun _

instance (c : WorkerCmd) : Decidable c.BucketOrdered :=
  inferInstanceAs (Decidable (∀ j ∈ c.keys, ∀ k ∈ c.keys, k.bucket < j.bucket →
    ∃ i ∈ c.keys, i.bucket = k.bucket ∧ strcmp i.str j.str < 0))

/-- Two writers of the same two buckets in one case, and a `BACKUP`. -/
def sameCase : Fin 2 → List WorkerCmd :=
  twoThreads [writeOnes [keyB, keyA]] [writeOnes [keyA, keyB], .cmdBackup]

/-- Both want bucket 0 first: the one that comes second waits, in no cycle. -/
theorem no_bucket_deadlock_sameCase :
    ∃ s, run worker [0, 0, 0, 1, 1] (State.init createHashTable.table sameCase) = some s ∧
      ¬ Deadlock (Set.range LockId.bucket) s := by
  have hends : (run worker [0, 0, 0, 1, 1]
      (State.init createHashTable.table sameCase)).isSome = true := by
    decide +kernel
  obtain ⟨s, hrun⟩ := Option.isSome_iff_exists.mp hends
  exact ⟨s, hrun, no_bucket_deadlock _ _ (by decide +kernel) _ s hrun⟩

/-- `WRITE [(B,1)(a,1)]` takes bucket 1 and then wants bucket 0, `WRITE [(A,1)(b,1)]` takes bucket 0 and
    then wants bucket 1. -/
def crossing : Fin 2 → List WorkerCmd :=
  twoThreads [writeOnes [keyUpperB, keyA]] [writeOnes [keyUpperA, keyB]]

/-- **Mixed cases deadlock.** Each of the two writers starts, takes the global lock shared and its first
    bucket, and then neither can go on. -/
theorem write_write_deadlock :
    ∃ s, run worker [0, 0, 0, 1, 1, 1] (State.init createHashTable.table crossing) = some s ∧
      Deadlock (Set.range LockId.bucket) s := by
  have hends : (run worker [0, 0, 0, 1, 1, 1] (State.init createHashTable.table crossing)).any
      (fun s => decide (s.request 0 = some (.bucket 0, .exclusive) ∧
        s.request 1 = some (.bucket 1, .exclusive) ∧
        ((0 : Fin 2), Mode.exclusive) ∈ s.locks (.bucket 1) ∧
        ((1 : Fin 2), Mode.exclusive) ∈ s.locks (.bucket 0))) = true := by
    decide +kernel
  obtain ⟨s, hrun, hs⟩ := (Option.any_eq_true _ _).mp hends
  obtain ⟨hwant₀, hwant₁, hheld₀, hheld₁⟩ := of_decide_eq_true hs
  -- each waits for the lock the other holds
  have hwaits₀ : WaitsOn s (.bucket 0) 0 1 := ⟨_, _, wants_of_request hwant₀, hheld₁, Or.inl rfl⟩
  have hwaits₁ : WaitsOn s (.bucket 1) 1 0 := ⟨_, _, wants_of_request hwant₁, hheld₀, Or.inl rfl⟩
  exact ⟨s, hrun, deadlock_of_pair ⟨0, rfl⟩ ⟨1, rfl⟩ hwaits₀ hwaits₁⟩

end Kvs.Server
