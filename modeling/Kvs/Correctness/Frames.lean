import Kvs.Correctness.Locks
import Kvs.Correctness.Records
import Kvs.Server.Frames

/-!
# `Correctness.Frames` — the locks of a command whose records fit

`Correctness.Locks` reads the laws of the locks off the code of the three functions. That code is what runs
as long as nothing is stored over the flags between the loop that takes the locks and the one that gives
them back, and in `kvs_read` and `kvs_delete` there is an unbounded `sprintf` between them. So the laws
hold exactly when every record fits its array (`locks_taken_once_iff`).
-/

namespace Kvs.Server

open Locking Kvs.Server.Sequential

/-! ## The loops over the keys -/

/-- The records of a `READ` fit, each on the table that its operation finds. -/
def ReadsFit (tables : Nat → Buckets) (keys : List Key) : Prop :=
  ∀ i k, keys[i]? = some k → ReadFits ⟨tables i⟩ k.str

/-- The keys that a `DELETE` finds missing, each on the table that its operation finds, leave room for
    what is around them. -/
def DeletesFit (tables : Nat → Buckets) (keys : List Key) : Prop :=
  ∀ i k, keys[i]? = some k → HashTable.node ⟨tables i⟩ k.str = none → k.str.bytes.length ≤ 26

/-- What is said of every key and its index: of the first one, and of the others. -/
theorem forall_getElem?_cons {α : Type} {P : Nat → α → Prop} {a : α} {l : List α} :
    (∀ i x, (a :: l)[i]? = some x → P i x) ↔ P 0 a ∧ ∀ i x, l[i]? = some x → P (i + 1) x := by
  constructor
  · intro h
    exact ⟨h 0 a rfl, fun i x hx => h (i + 1) x hx⟩
  · rintro ⟨hfirst, hrest⟩ i x hx
    cases i with
    | zero => exact Option.some.inj hx ▸ hfirst
    | succ i => exact hrest i x hx

theorem Frame.sprintf_fits {f : Frame} (hbuffer : f.buffer.length = MAX_STRING_SIZE) {record : List Byte}
    (h : FitsBuffer record) :
    ∃ f', f.sprintf record = some f' ∧ f'.hashed = f.hashed ∧ f'.buffer.length = MAX_STRING_SIZE := by
  obtain ⟨buffer, hrun, hlen⟩ := Sequential.sprintf_fits hbuffer h
  exact ⟨{ f with buffer := buffer }, by rw [Frame.sprintf, hrun]; rfl, rfl, hlen⟩

theorem Frame.sprintf_overflows {f : Frame} (hbuffer : f.buffer.length = MAX_STRING_SIZE)
    {record : List Byte} (h : ¬ FitsBuffer record) : f.sprintf record = none := by
  rw [Frame.sprintf, Sequential.sprintf_overflows hbuffer h]
  rfl

/-- The record of a key is the one of its node. -/
theorem fitsBuffer_readKey_iff (table : Buckets) (k : Key) :
    FitsBuffer (Server.readRecord k (StoreOp.exec (.pair (.read k)) table).2.readValue) ↔
      ReadFits ⟨table⟩ k.str := by
  rw [← fitsBuffer_read_iff, node_key]
  exact Iff.rfl

theorem readKeys_fits {tables : Nat → Buckets} {keys : List Key} (h : ReadsFit tables keys) {f : Frame}
    (hbuffer : f.buffer.length = MAX_STRING_SIZE) :
    ∃ f', readKeys tables keys f = some ((keys.map PairOp.read).map .pair, f') ∧
      f'.hashed = f.hashed := by
  induction keys generalizing tables f with
  | nil => exact ⟨f, rfl, rfl⟩
  | cons k keys ih =>
      obtain ⟨hfirst, hrest⟩ := forall_getElem?_cons.mp h
      obtain ⟨f₁, hrun₁, hhashed₁, hbuffer₁⟩ :=
        Frame.sprintf_fits hbuffer ((fitsBuffer_readKey_iff (tables 0) k).mpr hfirst)
      obtain ⟨f₂, hrun₂, hhashed₂⟩ := @ih (fun i => tables (i + 1)) hrest f₁ hbuffer₁
      refine ⟨f₂, ?_, hhashed₂.trans hhashed₁⟩
      simp only [readKeys, hrun₁, hrun₂, Option.bind_eq_bind, Option.bind_some]
      rfl

theorem readKeys_overflows {tables : Nat → Buckets} {keys : List Key} (h : ¬ ReadsFit tables keys)
    {f : Frame} (hbuffer : f.buffer.length = MAX_STRING_SIZE) : readKeys tables keys f = none := by
  induction keys generalizing tables f with
  | nil => exact absurd (fun i k hk => absurd hk (by simp)) h
  | cons k keys ih =>
      by_cases hfirst : ReadFits ⟨tables 0⟩ k.str
      · have hrest : ¬ ReadsFit (fun i => tables (i + 1)) keys :=
          fun hrest => h (forall_getElem?_cons.mpr ⟨hfirst, hrest⟩)
        obtain ⟨f₁, hrun₁, -, hbuffer₁⟩ :=
          Frame.sprintf_fits hbuffer ((fitsBuffer_readKey_iff (tables 0) k).mpr hfirst)
        simp only [readKeys, hrun₁, ih hrest hbuffer₁, Option.bind_eq_bind, Option.bind_some,
          Option.bind_none]
      · have hnone := Frame.sprintf_overflows hbuffer (mt (fitsBuffer_readKey_iff (tables 0) k).mp hfirst)
        simp only [readKeys, hnone, Option.bind_eq_bind, Option.bind_none]

/-- Only a key that is not there gets a record, and it fits when it has at most 26 bytes. -/
theorem reportMissing_cases (table : Buckets) (k : Key) {f : Frame}
    (hbuffer : f.buffer.length = MAX_STRING_SIZE) :
    ((HashTable.node ⟨table⟩ k.str = none → k.str.bytes.length ≤ 26) ∧
        ∃ f', f.reportMissing k (StoreOp.exec (.pair (.delete k)) table).2.ret = some f' ∧
          f'.hashed = f.hashed ∧ f'.buffer.length = MAX_STRING_SIZE) ∨
      (¬ (HashTable.node ⟨table⟩ k.str = none → k.str.bytes.length ≤ 26) ∧
        f.reportMissing k (StoreOp.exec (.pair (.delete k)) table).2.ret = none) := by
  have hret : (StoreOp.exec (.pair (.delete k)) table).2.ret
      = if (HashTable.node ⟨table⟩ k.str).isSome then 0 else 1 := by
    rw [node_key, ← deleteBucket_ret]
    rfl
  rw [hret]
  cases hnode : HashTable.node ⟨table⟩ k.str with
  | some n => exact Or.inl ⟨fun h => absurd h (by simp), f, rfl, rfl, hbuffer⟩
  | none =>
      have hreport : f.reportMissing k (if (none : Option KeyNode).isSome then 0 else 1)
          = f.sprintf (Server.missingRecord k) := rfl
      have hfits : FitsBuffer (Server.missingRecord k) ↔ k.str.bytes.length ≤ 26 :=
        fitsBuffer_missing_iff k.str
      rw [hreport]
      by_cases hlen : k.str.bytes.length ≤ 26
      · exact Or.inl ⟨fun _ => hlen, Frame.sprintf_fits hbuffer (hfits.mpr hlen)⟩
      · exact Or.inr ⟨fun h => hlen (h rfl), Frame.sprintf_overflows hbuffer (mt hfits.mp hlen)⟩

theorem deleteKeys_fits {tables : Nat → Buckets} {keys : List Key} (h : DeletesFit tables keys)
    {f : Frame} (hbuffer : f.buffer.length = MAX_STRING_SIZE) :
    ∃ f', deleteKeys tables keys f = some ((keys.map PairOp.delete).map .pair, f') ∧
      f'.hashed = f.hashed := by
  induction keys generalizing tables f with
  | nil => exact ⟨f, rfl, rfl⟩
  | cons k keys ih =>
      obtain ⟨hfirst, hrest⟩ := forall_getElem?_cons.mp h
      rcases reportMissing_cases (tables 0) k hbuffer with
        ⟨-, f₁, hrun₁, hhashed₁, hbuffer₁⟩ | ⟨hnot, -⟩
      · obtain ⟨f₂, hrun₂, hhashed₂⟩ := @ih (fun i => tables (i + 1)) hrest f₁ hbuffer₁
        refine ⟨f₂, ?_, hhashed₂.trans hhashed₁⟩
        simp only [deleteKeys, hrun₁, hrun₂, Option.bind_eq_bind, Option.bind_some]
        rfl
      · exact absurd hfirst hnot

theorem deleteKeys_overflows {tables : Nat → Buckets} {keys : List Key} (h : ¬ DeletesFit tables keys)
    {f : Frame} (hbuffer : f.buffer.length = MAX_STRING_SIZE) : deleteKeys tables keys f = none := by
  induction keys generalizing tables f with
  | nil => exact absurd (fun i k hk => absurd hk (by simp)) h
  | cons k keys ih =>
      rcases reportMissing_cases (tables 0) k hbuffer with ⟨hfirst, f₁, hrun₁, -, hbuffer₁⟩ | ⟨-, hnone⟩
      · have hrest : ¬ DeletesFit (fun i => tables (i + 1)) keys :=
          fun hrest => h (forall_getElem?_cons.mpr ⟨hfirst, hrest⟩)
        simp only [deleteKeys, hrun₁, ih hrest hbuffer₁, Option.bind_eq_bind, Option.bind_some,
          Option.bind_none]
      · simp only [deleteKeys, hnone, Option.bind_eq_bind, Option.bind_none]

/-! ## The functions -/

/-- `kvs_read` runs the code of `Server.Operations` when its records fit. -/
theorem kvsReadRun_fits {tables : Nat → Buckets} {keys : List Key} (h : ReadsFit tables keys)
    (buffer : Vector Byte MAX_STRING_SIZE) : kvsReadRun tables buffer keys = some (kvsRead keys) := by
  obtain ⟨f, hrun, hhashed⟩ := @readKeys_fits tables keys h
    ⟨(lockLoop (fun _ => false) keys).2, buffer.toList⟩ (by simp)
  simp only [kvsReadRun, hrun, hhashed, Option.bind_eq_bind, Option.bind_some]
  rfl

theorem kvsDeleteRun_fits {tables : Nat → Buckets} {keys : List Key} (h : DeletesFit tables keys)
    (buffer : Vector Byte MAX_STRING_SIZE) : kvsDeleteRun tables buffer keys = some (kvsDelete keys) := by
  obtain ⟨f, hrun, hhashed⟩ := @deleteKeys_fits tables keys h
    ⟨(lockLoop (fun _ => false) keys).2, buffer.toList⟩ (by simp)
  simp only [kvsDeleteRun, hrun, hhashed, Option.bind_eq_bind, Option.bind_some]
  rfl

/-- The function runs to its end, and does with the locks what it should. -/
def LocksRight (global : List (LockId × Mode)) (m : Mode) (keys : List Key) (calls : List PairOp)
    (run : Option (List (Instr LockId StoreOp))) : Prop :=
  ∃ code, run = some code ∧ LocksBuckets global m keys calls code

/-- **The locks of `kvs_write`, `kvs_read` and `kvs_delete`**, for all keys, whatever the operations find
    and the arrays hold: every distinct bucket is locked once, in write mode for `WRITE` and `DELETE`, which
    also hold the global lock; each pair operation runs under the lock of its bucket; the three loops do
    not mix; and exactly the locks taken are given back. For `kvs_write` this is always so, for the other
    two exactly when every record fits its array. -/
theorem locks_taken_once_iff (pairs : List (Key × CStr)) (mem : Nat → Garbage) (keys : List Key)
    (tables : Nat → Buckets) (buffer : Vector Byte MAX_STRING_SIZE) :
    LocksBuckets [(.rwlock, .shared)] .exclusive (pairs.map Prod.fst) (writeCalls pairs mem)
        (kvsWrite pairs mem) ∧
      (LocksRight [] .shared keys (keys.map .read) (kvsReadRun tables buffer keys) ↔
        ReadsFit tables keys) ∧
      (LocksRight [(.rwlock, .shared)] .exclusive keys (keys.map .delete)
          (kvsDeleteRun tables buffer keys) ↔
        DeletesFit tables keys) := by
  refine ⟨locksBuckets_kvsWrite pairs mem, ⟨?_, ?_⟩, ⟨?_, ?_⟩⟩
  · rintro ⟨code, hrun, -⟩
    by_contra hfits
    have hnone := @readKeys_overflows tables keys hfits
      ⟨(lockLoop (fun _ => false) keys).2, buffer.toList⟩ (by simp)
    simp only [kvsReadRun, hnone, Option.bind_eq_bind, Option.bind_none] at hrun
    exact absurd hrun (by simp)
  · intro hfits
    exact ⟨kvsRead keys, kvsReadRun_fits hfits buffer, locksBuckets_kvsRead keys⟩
  · rintro ⟨code, hrun, -⟩
    by_contra hfits
    have hnone := @deleteKeys_overflows tables keys hfits
      ⟨(lockLoop (fun _ => false) keys).2, buffer.toList⟩ (by simp)
    simp only [kvsDeleteRun, hnone, Option.bind_eq_bind, Option.bind_none] at hrun
    exact absurd hrun (by simp)
  · intro hfits
    exact ⟨kvsDelete keys, kvsDeleteRun_fits hfits buffer, locksBuckets_kvsDelete keys⟩

/-- The key of 39 letters. -/
def keyLong : Key := ⟨longKey, by decide +kernel⟩

/-- **A `READ` of 39 letters that are not there** has a record of 51 bytes with its NUL: it reaches what is
    stored behind the array before the locks are given back. -/
theorem read_absent_overflows :
    ¬ LocksRight [] .shared [keyLong] [.read keyLong]
      (kvsReadRun (fun _ => createHashTable.table) (Vector.replicate MAX_STRING_SIZE 0) [keyLong]) := by
  have hnone : (kvsReadRun (fun _ => createHashTable.table) (Vector.replicate MAX_STRING_SIZE 0)
      [keyLong]).isNone = true := by decide +kernel
  rintro ⟨code, hrun, -⟩
  rw [hrun] at hnone
  exact absurd hnone (by simp)

end Kvs.Server
