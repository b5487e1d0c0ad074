import Kvs.Correctness.TableMap
import Kvs.Server.Sequential

/-!
# `Correctness.ShowOrder` — the order in which `kvs_show` prints

`kvs_show` walks the buckets in ascending order and each bucket from its head, and `write_pair` puts new
nodes at the head. So a bucket is printed in the reverse order of creation. `createdAt` says which call of
a history created a key that is there now, and `StampInv` that every bucket is ordered by it: overwriting
leaves the nodes where they stand, unlinking leaves the others in their order, and a key that is deleted
and written again is created by the later call.
-/

namespace Kvs.Server

/-! ## Creation -/

/-- What a call, the `t`-th of its history, does to the positions at which the keys were created. -/
def PairOp.stamp (t : Nat) (created : CStr → Option Nat) : PairOp → CStr → Option Nat
  | .write k _ _ => Function.update created k.str (some ((created k.str).getD t))
  | .read _ => created
  | .delete k => Function.update created k.str none

def stamps : Nat → List PairOp → (CStr → Option Nat) → CStr → Option Nat
  | _, [], created => created
  | t, op :: ops, created => stamps (t + 1) ops (op.stamp t created)

/-- The position in the history of the write that created `key`: the first since it was last deleted. -/
def createdAt (key : CStr) (ops : List PairOp) : Option Nat := stamps 0 ops (fun _ => none) key

/-- `x` was created later than `y`. -/
def Newer (created : CStr → Option Nat) (x y : CStr) : Prop :=
  ∃ a b, created x = some a ∧ created y = some b ∧ b < a

/-! ## The invariant -/

/-- The keys of a bucket, from its head. -/
def HashTable.keys (ht : HashTable) (i : Fin TABLE_SIZE) : List CStr := (ht.table i).map KeyNode.key

/-- Before the `t`-th call, every key in the table has its stamp, every bucket is ordered by them, and no
    other key has one. -/
structure StampInv (t : Nat) (created : CStr → Option Nat) (ht : HashTable) : Prop where
  table : TableInv ht
  absent : ∀ k : Key, k.str ∉ ht.keys k.bucket → created k.str = none
  stamped : ∀ i, ∀ key ∈ ht.keys i, ∃ a, created key = some a ∧ a < t
  ordered : ∀ i, (ht.keys i).Pairwise (Newer created)

theorem stampInv_create : StampInv 0 (fun _ => none) createHashTable where
  table := tableInv_create
  absent _ _ := rfl
  stamped _ _ hkey := absurd hkey List.not_mem_nil
  ordered _ := List.Pairwise.nil

/-- A key is in its own bucket or in none. -/
theorem TableInv.notMem_keys {ht : HashTable} (hI : TableInv ht) {k : Key}
    (h : k.str ∉ ht.keys k.bucket) (i : Fin TABLE_SIZE) : k.str ∉ ht.keys i := by
  intro hmem
  obtain ⟨n, hn, hkey⟩ := List.mem_map.mp hmem
  have hplaced := hI.placed i n hn
  rw [hkey, subscript_hash] at hplaced
  exact h (Option.some.inj hplaced ▸ hmem)

theorem keys_set (ht : HashTable) (i : Fin TABLE_SIZE) (bucket : List KeyNode) :
    (ht.set i bucket).keys = Function.update ht.keys i (bucket.map KeyNode.key) := by
  funext j
  unfold HashTable.keys
  by_cases hj : j = i
  · subst hj
    rw [HashTable.set_self, Function.update_self]
  · rw [HashTable.set_ne _ hj, Function.update_of_ne hj]

theorem notMem_keys_iff (ht : HashTable) (k : Key) :
    k.str ∉ ht.keys k.bucket ↔ searchNode k.str (ht.table k.bucket) = none := by
  rw [searchNode_eq, Assoc.find_eq_none_iff]
  rfl

/-- The keys a table has determine the invariant, once the table is sound. -/
theorem StampInv.congr {t : Nat} {created : CStr → Option Nat} {ht ht' : HashTable}
    (h : StampInv t created ht) (hI : TableInv ht') (hkeys : ht'.keys = ht.keys) :
    StampInv (t + 1) created ht' where
  table := hI
  absent k hk := h.absent k (hkeys ▸ hk)
  stamped i key hkey := by
    obtain ⟨a, ha, hlt⟩ := h.stamped i key (hkeys ▸ hkey)
    exact ⟨a, ha, Nat.lt_succ_of_lt hlt⟩
  ordered i := hkeys ▸ h.ordered i

/-- A stamp that is changed for a key that is not in the list. -/
theorem pairwise_newer_update {created : CStr → Option Nat} {key : CStr} {l : List CStr}
    (hkey : key ∉ l) (a : Option Nat) (h : l.Pairwise (Newer created)) :
    l.Pairwise (Newer (Function.update created key a)) := by
  refine h.imp_of_mem ?_
  rintro x y hx hy ⟨b, c, hb, hc, hlt⟩
  refine ⟨b, c, ?_, ?_, hlt⟩
  · rwa [Function.update_of_ne (ne_of_mem_of_not_mem hx hkey)]
  · rwa [Function.update_of_ne (ne_of_mem_of_not_mem hy hkey)]

/-! ## One call -/

/-- Overwriting moves no node and makes no key. -/
theorem StampInv.overwrite {t : Nat} {created : CStr → Option Nat} {ht : HashTable}
    (h : StampInv t created ht) {k : Key} {n : KeyNode} (value : CStr) (mem : Garbage)
    (hn : searchNode k.str (ht.table k.bucket) = some n) :
    StampInv (t + 1) (PairOp.stamp t created (.write k value mem))
      (ht.set k.bucket (writeBucket k.str value mem (ht.table k.bucket))) := by
  have hmem : k.str ∈ ht.keys k.bucket := by
    by_contra hnot
    rw [notMem_keys_iff, hn] at hnot
    exact absurd hnot (by simp)
  obtain ⟨a, ha, -⟩ := h.stamped _ _ hmem
  have hsame : PairOp.stamp t created (.write k value mem) = created := by
    rw [PairOp.stamp, ha, Option.getD_some, ← ha, Function.update_eq_self]
  have hkeys : (ht.set k.bucket (writeBucket k.str value mem (ht.table k.bucket))).keys = ht.keys := by
    rw [keys_set, writeBucket, hn]
    simp only [overwriteNode_eq, Assoc.map_key_overwrite (KeyNode.key_setValue value)]
    exact Function.update_eq_self _ _
  rw [hsame]
  exact h.congr (h.table.write k value mem) hkeys

/-- A key at the head of one bucket. -/
theorem mem_update_cons {keys : Fin TABLE_SIZE → List CStr} {i j : Fin TABLE_SIZE} {key new : CStr} :
    key ∈ Function.update keys j (new :: keys j) i ↔ i = j ∧ key = new ∨ key ∈ keys i := by
  by_cases hi : i = j
  · subst hi
    rw [Function.update_self, List.mem_cons, and_iff_right rfl]
  · rw [Function.update_of_ne hi, or_iff_right (fun h => hi h.1)]

/-- A new node goes in front of its bucket, with the latest stamp of all. -/
theorem StampInv.insert {t : Nat} {created : CStr → Option Nat} {ht : HashTable}
    (h : StampInv t created ht) {k : Key} (value : CStr) (mem : Garbage)
    (hnone : searchNode k.str (ht.table k.bucket) = none) :
    StampInv (t + 1) (PairOp.stamp t created (.write k value mem))
      (ht.set k.bucket (writeBucket k.str value mem (ht.table k.bucket))) := by
  have hnot := h.table.notMem_keys ((notMem_keys_iff ht k).mpr hnone)
  have hstamp : PairOp.stamp t created (.write k value mem)
      = Function.update created k.str (some t) := by
    rw [PairOp.stamp, h.absent k (hnot _)]
    rfl
  have hkeys : (ht.set k.bucket (writeBucket k.str value mem (ht.table k.bucket))).keys
      = Function.update ht.keys k.bucket (k.str :: ht.keys k.bucket) := by
    rw [keys_set, writeBucket, hnone]
    rfl
  -- the keys that were there keep their stamps
  have hold : ∀ i, ∀ key ∈ ht.keys i, Function.update created k.str (some t) key = created key :=
    fun i key hkey => Function.update_of_ne (ne_of_mem_of_not_mem hkey (hnot i)) _ _
  rw [hstamp]
  refine ⟨h.table.write k value mem, ?_, ?_, ?_⟩
  · intro j hj
    rw [hkeys, mem_update_cons, not_or] at hj
    have hjk : j ≠ k := by
      rintro rfl
      exact hj.1 ⟨rfl, rfl⟩
    rw [Function.update_of_ne (Key.str_ne hjk)]
    exact h.absent j hj.2
  · intro i key hkey
    rw [hkeys, mem_update_cons] at hkey
    rcases hkey with ⟨-, rfl⟩ | hmem
    · exact ⟨t, Function.update_self _ _ _, Nat.lt_succ_self t⟩
    · obtain ⟨a, ha, hlt⟩ := h.stamped i key hmem
      exact ⟨a, (hold i key hmem).trans ha, Nat.lt_succ_of_lt hlt⟩
  · intro i
    rw [hkeys]
    by_cases hi : i = k.bucket
    · subst hi
      rw [Function.update_self]
      refine List.pairwise_cons.mpr ⟨?_, pairwise_newer_update (hnot _) _ (h.ordered _)⟩
      intro key hkey
      obtain ⟨a, ha, hlt⟩ := h.stamped _ key hkey
      exact ⟨t, a, Function.update_self _ _ _, (hold _ key hkey).trans ha, hlt⟩
    · rw [Function.update_of_ne hi]
      exact pairwise_newer_update (hnot i) _ (h.ordered i)

/-- Unlinking leaves the other nodes in their order. -/
theorem StampInv.delete {t : Nat} {created : CStr → Option Nat} {ht : HashTable}
    (h : StampInv t created ht) (k : Key) :
    StampInv (t + 1) (PairOp.stamp t created (.delete k))
      (ht.set k.bucket (deleteBucket k.str (ht.table k.bucket)).1) := by
  have hI := h.table.delete k
  have hsub : ∀ i, ((ht.set k.bucket (deleteBucket k.str (ht.table k.bucket)).1).keys i).Sublist
      (ht.keys i) := by
    intro i
    rw [keys_set]
    by_cases hi : i = k.bucket
    · subst hi
      rw [Function.update_self]
      exact (deleteBucket_sublist _ _).map _
    · rw [Function.update_of_ne hi]
  have hnot : ∀ i, k.str ∉ (ht.set k.bucket (deleteBucket k.str (ht.table k.bucket)).1).keys i := by
    refine hI.notMem_keys ?_
    rw [notMem_keys_iff, HashTable.set_self]
    exact searchNode_deleteBucket_self k.str (h.table.nodup _)
  refine ⟨hI, ?_, ?_, ?_⟩
  · intro j hj
    by_cases hjk : j = k
    · subst hjk
      exact Function.update_self _ _ _
    · rw [PairOp.stamp, Function.update_of_ne (Key.str_ne hjk)]
      refine h.absent j ?_
      rw [notMem_keys_iff] at hj ⊢
      by_cases hb : j.bucket = k.bucket
      · rw [hb, HashTable.set_self, searchNode_deleteBucket_ne (Key.str_ne hjk)] at hj
        rwa [hb]
      · rwa [HashTable.set_ne _ hb] at hj
  · intro i key hkey
    obtain ⟨a, ha, hlt⟩ := h.stamped i key ((hsub i).subset hkey)
    refine ⟨a, ?_, Nat.lt_succ_of_lt hlt⟩
    rwa [PairOp.stamp, Function.update_of_ne (ne_of_mem_of_not_mem hkey (hnot i))]
  · intro i
    exact pairwise_newer_update (hnot i) _ ((h.ordered i).sublist (hsub i))

/-- **Step lemma.** Each call keeps the buckets ordered by creation. -/
theorem StampInv.exec {t : Nat} {created : CStr → Option Nat} {ht ht' : HashTable} {op : PairOp}
    {result : PairResult} (h : StampInv t created ht) (hexec : op.exec ht = some (ht', result)) :
    StampInv (t + 1) (op.stamp t created) ht' := by
  cases op with
  | write k value mem =>
      simp only [PairOp.exec, writePair_key, Option.map_some, Option.some.injEq, Prod.mk.injEq] at hexec
      obtain ⟨rfl, -⟩ := hexec
      cases hsearch : searchNode k.str (ht.table k.bucket) with
      | none => exact h.insert value mem hsearch
      | some n => exact h.overwrite value mem hsearch
  | read k =>
      simp only [PairOp.exec, readPair_key, Option.map_some, Option.some.injEq, Prod.mk.injEq] at hexec
      obtain ⟨rfl, -⟩ := hexec
      exact h.congr h.table rfl
  | delete k =>
      simp only [PairOp.exec, deletePair_key, Option.map_some, Option.some.injEq, Prod.mk.injEq] at hexec
      obtain ⟨rfl, -⟩ := hexec
      exact h.delete k

/-- **Run lemma.** -/
theorem StampInv.runOps {t : Nat} {created : CStr → Option Nat} {ht ht' : HashTable}
    {ops : List PairOp} {results : List PairResult} (h : StampInv t created ht)
    (hrun : runOps ops ht = some (ht', results)) :
    ∃ t', StampInv t' (stamps t ops created) ht' := by
  induction ops generalizing t created ht results with
  | nil =>
      obtain ⟨rfl, -⟩ := Prod.mk.inj (Option.some.inj hrun)
      exact ⟨t, h⟩
  | cons op ops ih =>
      unfold Server.runOps at hrun
      obtain ⟨⟨ht₁, result⟩, hexec, hrun⟩ := Option.bind_eq_some_iff.mp hrun
      obtain ⟨⟨ht₂, results'⟩, hrest, hrun⟩ := Option.bind_eq_some_iff.mp hrun
      obtain ⟨rfl, -⟩ := Prod.mk.inj (Option.some.inj hrun)
      exact ih (h.exec hexec) hrest

/-! ## What is printed -/

/-- `(key, value)` and a newline. -/
def showLine (line : CStr × CStr) : List Byte :=
  ascii "(" ++ line.1.bytes ++ ascii ", " ++ line.2.bytes ++ ascii ")\n"

/-- The pairs of a bucket, from its head. -/
def HashTable.lines (ht : HashTable) (i : Fin TABLE_SIZE) : List (CStr × CStr) :=
  (ht.table i).map (fun n => (n.key, n.value))

theorem output_show (ht : HashTable) :
    WorkerCmd.cmdShow.output (Locking.runCode worker (processCommand .cmdShow) ht.table).2
      = (List.finRange TABLE_SIZE).flatMap (fun i => (ht.lines i).flatMap showLine) := by
  rw [runCode_show]
  unfold WorkerCmd.output HashTable.lines
  simp only [List.flatMap_map]
  rfl

/-- The pairs of a bucket of a sound table are those of its map. -/
theorem TableInv.mem_lines_iff {ht : HashTable} (hI : TableInv ht) (i : Fin TABLE_SIZE)
    (key value : CStr) :
    (key, value) ∈ ht.lines i
      ↔ ∃ k : Key, k.str = key ∧ k.bucket = i ∧ ht.toMap k = some value := by
  unfold HashTable.lines HashTable.toMap
  constructor
  · intro hmem
    obtain ⟨n, hn, heq⟩ := List.mem_map.mp hmem
    obtain ⟨rfl, rfl⟩ := Prod.mk.inj heq
    obtain ⟨k, hk, rfl⟩ := hI.exists_key hn
    refine ⟨k, hk, rfl, ?_⟩
    rw [hk, hI.search hn]
    rfl
  · rintro ⟨k, rfl, rfl, hvalue⟩
    obtain ⟨n, hn, rfl⟩ := Option.map_eq_some_iff.mp hvalue
    rw [searchNode_eq] at hn
    obtain ⟨hmem, hkey⟩ := Assoc.find_some hn
    exact List.mem_map.mpr ⟨n, hmem, by rw [hkey]⟩

/-- **What `kvs_show` prints after a history.** Every key that is there, once, with the latest value
    written, as a line `(key, value)`; the buckets in ascending order, and inside a bucket the keys
    created later first. -/
theorem kvsShow_history (ops : List PairOp) :
    ∃ ht results, runOps ops createHashTable = some (ht, results) ∧
      ∃ lines : Fin TABLE_SIZE → List (CStr × CStr),
        WorkerCmd.cmdShow.output (Locking.runCode worker (processCommand .cmdShow) ht.table).2
          = (List.finRange TABLE_SIZE).flatMap (fun i => (lines i).flatMap showLine) ∧
        ∀ i, ((lines i).map Prod.fst).Nodup ∧
          (∀ key value, (key, value) ∈ lines i ↔
            ∃ k : Key, k.str = key ∧ k.bucket = i ∧ latest k ops = some value) ∧
          (lines i).Pairwise (fun line line' =>
            Newer (fun key => createdAt key ops) line.1 line'.1) := by
  obtain ⟨ht, hrun, hI, hmap⟩ := runOps_refines tableInv_create ops
  obtain ⟨t, hstamps⟩ := stampInv_create.runOps hrun
  rw [toMap_create] at hmap
  refine ⟨ht, _, hrun, ht.lines, output_show ht, ?_⟩
  intro i
  have hfst : (ht.lines i).map Prod.fst = ht.keys i := by
    unfold HashTable.lines HashTable.keys
    rw [List.map_map]
    rfl
  refine ⟨?_, ?_, ?_⟩
  · rw [hfst]
    exact hI.nodup i
  · intro key value
    rw [hI.mem_lines_iff, hmap]
    simp only [runSpec_latest]
  · have hordered := hstamps.ordered i
    rw [← hfst, List.pairwise_map] at hordered
    exact hordered

end Kvs.Server
