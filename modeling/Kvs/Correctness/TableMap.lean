import Kvs.Server.Table

/-!
# `Correctness.TableMap` — the hash table is a finite map

The abstract component is a map from keys to values (`KvMap`). Any sequence of pair operations on the
table, from `create_hash_table` on, gives the results of the same sequence on the map, and the table it
leaves represents the map it leaves (`runOps_refines`). The representation invariant (`TableInv`) says
that each key occurs once at most and only in the bucket that `hash` sends it to; head insertion,
overwriting in place and unlinking at any position keep it.
-/

namespace Kvs.Server

/-! ## The abstract map -/

/-- What the table is for: the value each key has, if any. -/
abbrev KvMap := Key → Option CStr

/-- The call on the map. -/
def PairOp.spec (m : KvMap) : PairOp → KvMap × PairResult
  | .write k value _ => (Function.update m k (some value), .wrote 0)
  | .read k => (m, .read (m k))
  | .delete k => (Function.update m k none, .deleted (if (m k).isSome then 0 else 1))

def runOps : List PairOp → HashTable → Option (HashTable × List PairResult)
  | [], ht => some (ht, [])
  | op :: ops, ht => do
      let (ht', result) ← op.exec ht
      let (ht'', results) ← runOps ops ht'
      return (ht'', result :: results)

def runSpec : List PairOp → KvMap → KvMap × List PairResult
  | [], m => (m, [])
  | op :: ops, m => ((runSpec ops (op.spec m).1).1, (op.spec m).2 :: (runSpec ops (op.spec m).1).2)

/-- The value of the latest write to `k` in a history, unless a delete of `k` came after it. -/
def latest (k : Key) (ops : List PairOp) : Option CStr :=
  ops.foldl (fun v op => match op with
    | .write j value _ => if j = k then some value else v
    | .read _ => v
    | .delete j => if j = k then none else v) none

/-! ## The representation invariant -/

/-- Each key at most once, and only in its bucket. -/
structure TableInv (ht : HashTable) : Prop where
  nodup : ∀ i, ((ht.table i).map KeyNode.key).Nodup
  placed : ∀ i, ∀ n ∈ ht.table i, subscript (hash n.key) = some i

/-- The map a table represents. -/
def HashTable.toMap (ht : HashTable) : KvMap :=
  fun k => (searchNode k.str (ht.table k.bucket)).map KeyNode.value

theorem tableInv_create : TableInv createHashTable where
  nodup _ := List.nodup_nil
  placed _ _ h := absurd h (by simp [createHashTable])

/-- Every node of a sound table has a key that belongs in its bucket. -/
theorem TableInv.exists_key {ht : HashTable} (hI : TableInv ht) {i : Fin TABLE_SIZE} {n : KeyNode}
    (hn : n ∈ ht.table i) : ∃ k : Key, k.str = n.key ∧ k.bucket = i := by
  have hplaced := hI.placed i n hn
  have hinitial : isAlnum (n.key.bytes.headD 0) = true := by
    rw [← subscript_hash_isSome_iff, hplaced]
    rfl
  refine ⟨⟨n.key, hinitial⟩, rfl, ?_⟩
  have hbucket := subscript_hash ⟨n.key, hinitial⟩
  exact Option.some.inj (hbucket.symm.trans hplaced)

theorem TableInv.search {ht : HashTable} (hI : TableInv ht) {i : Fin TABLE_SIZE} {n : KeyNode}
    (hn : n ∈ ht.table i) : searchNode n.key (ht.table i) = some n := by
  rw [searchNode_eq]
  exact Assoc.find_of_mem (hI.nodup i) hn

theorem Key.str_ne {j k : Key} (h : j ≠ k) : j.str ≠ k.str := fun hs => h (Key.ext hs)

/-! ## One bucket -/

theorem searchNode_writeBucket_self (key value : CStr) (mem : Garbage) (bucket : List KeyNode) :
    (searchNode key (writeBucket key value mem bucket)).map KeyNode.value = some value := by
  unfold writeBucket
  split
  · rename_i n hn
    rw [searchNode_eq] at hn
    rw [searchNode_eq, overwriteNode_eq, Assoc.find_overwrite_self (KeyNode.key_setValue value), hn]
    rfl
  · simp [searchNode]

theorem searchNode_writeBucket_ne {j key : CStr} (hj : j ≠ key) (value : CStr) (mem : Garbage)
    (bucket : List KeyNode) :
    searchNode j (writeBucket key value mem bucket) = searchNode j bucket := by
  unfold writeBucket
  split
  · rw [searchNode_eq, searchNode_eq, overwriteNode_eq,
      Assoc.find_overwrite_ne hj (KeyNode.key_setValue value)]
  · simp [searchNode, hj.symm]

theorem nodup_writeBucket (key value : CStr) (mem : Garbage) {bucket : List KeyNode}
    (hnd : (bucket.map KeyNode.key).Nodup) :
    ((writeBucket key value mem bucket).map KeyNode.key).Nodup := by
  unfold writeBucket
  split
  · rwa [overwriteNode_eq, Assoc.map_key_overwrite (KeyNode.key_setValue value)]
  · rename_i hnone
    rw [searchNode_eq, Assoc.find_eq_none_iff] at hnone
    exact List.nodup_cons.mpr ⟨hnone, hnd⟩

/-- The keys of a bucket after a write are those before it and the key written. -/
theorem mem_key_writeBucket {key value : CStr} {mem : Garbage} {bucket : List KeyNode} {n : KeyNode}
    (h : n ∈ writeBucket key value mem bucket) : n.key = key ∨ n.key ∈ bucket.map KeyNode.key := by
  unfold writeBucket at h
  split at h
  · have hmem := List.mem_map_of_mem (f := KeyNode.key) h
    rw [overwriteNode_eq, Assoc.map_key_overwrite (KeyNode.key_setValue value)] at hmem
    exact Or.inr hmem
  · rcases List.mem_cons.mp h with rfl | h'
    · exact Or.inl rfl
    · exact Or.inr (List.mem_map_of_mem h')

theorem deleteBucket_ret (key : CStr) (bucket : List KeyNode) :
    (deleteBucket key bucket).2 = if (searchNode key bucket).isSome then 0 else 1 := by
  unfold deleteBucket
  split <;> simp_all

theorem searchNode_deleteBucket_self (key : CStr) {bucket : List KeyNode}
    (hnd : (bucket.map KeyNode.key).Nodup) :
    searchNode key (deleteBucket key bucket).1 = none := by
  unfold deleteBucket
  split
  · rw [searchNode_eq, unlinkNode_eq]
    exact Assoc.find_unlink_self hnd
  · assumption

theorem searchNode_deleteBucket_ne {j key : CStr} (hj : j ≠ key) (bucket : List KeyNode) :
    searchNode j (deleteBucket key bucket).1 = searchNode j bucket := by
  unfold deleteBucket
  split
  · rw [searchNode_eq, searchNode_eq, unlinkNode_eq, Assoc.find_unlink_ne hj]
  · rfl

theorem deleteBucket_sublist (key : CStr) (bucket : List KeyNode) :
    (deleteBucket key bucket).1.Sublist bucket := by
  unfold deleteBucket
  split
  · rw [unlinkNode_eq]
    exact Assoc.unlink_sublist key bucket
  · exact List.Sublist.refl bucket

/-! ## The table -/

/-- A bucket is replaced by one with no key twice and only keys that belong there. -/
theorem TableInv.set {ht : HashTable} (hI : TableInv ht) {j : Fin TABLE_SIZE} {bucket : List KeyNode}
    (hnodup : (bucket.map KeyNode.key).Nodup)
    (hplaced : ∀ n ∈ bucket, subscript (hash n.key) = some j) : TableInv (ht.set j bucket) where
  nodup i := by
    by_cases hi : i = j
    · subst hi
      rw [HashTable.set_self]
      exact hnodup
    · rw [HashTable.set_ne _ hi]
      exact hI.nodup i
  placed i n hn := by
    by_cases hi : i = j
    · subst hi
      rw [HashTable.set_self] at hn
      exact hplaced n hn
    · rw [HashTable.set_ne _ hi] at hn
      exact hI.placed i n hn

theorem TableInv.write {ht : HashTable} (hI : TableInv ht) (k : Key) (value : CStr) (mem : Garbage) :
    TableInv (ht.set k.bucket (writeBucket k.str value mem (ht.table k.bucket))) := by
  refine hI.set (nodup_writeBucket _ _ _ (hI.nodup _)) ?_
  intro n hn
  rcases mem_key_writeBucket hn with hk | hk
  · rw [hk, subscript_hash]
  · obtain ⟨n', hn', hkey⟩ := List.mem_map.mp hk
    rw [← hkey]
    exact hI.placed _ n' hn'

theorem TableInv.delete {ht : HashTable} (hI : TableInv ht) (k : Key) :
    TableInv (ht.set k.bucket (deleteBucket k.str (ht.table k.bucket)).1) := by
  have hsub := deleteBucket_sublist k.str (ht.table k.bucket)
  refine hI.set ((hI.nodup _).sublist (hsub.map _)) ?_
  intro n hn
  exact hI.placed _ n (hsub.subset hn)

/-- A bucket is replaced for the sake of one key. -/
theorem toMap_set {ht : HashTable} {k : Key} {bucket : List KeyNode}
    (hothers : ∀ j : Key, j ≠ k → searchNode j.str bucket = searchNode j.str (ht.table k.bucket)) :
    (ht.set k.bucket bucket).toMap
      = Function.update ht.toMap k ((searchNode k.str bucket).map KeyNode.value) := by
  funext j
  by_cases hj : j = k
  · subst hj
    rw [Function.update_self, HashTable.toMap, HashTable.set_self]
  · rw [Function.update_of_ne hj, HashTable.toMap, HashTable.toMap]
    by_cases hb : j.bucket = k.bucket
    · rw [hb, HashTable.set_self, hothers j hj]
    · rw [HashTable.set_ne _ hb]

/-- A write changes the value of its key and of no other, whichever keys share the bucket. -/
theorem toMap_write (ht : HashTable) (k : Key) (value : CStr) (mem : Garbage) :
    (ht.set k.bucket (writeBucket k.str value mem (ht.table k.bucket))).toMap
      = Function.update ht.toMap k (some value) := by
  rw [toMap_set (fun j hj => searchNode_writeBucket_ne (Key.str_ne hj) value mem _),
    searchNode_writeBucket_self]

/-- A delete removes its key and no other. -/
theorem toMap_delete {ht : HashTable} (hI : TableInv ht) (k : Key) :
    (ht.set k.bucket (deleteBucket k.str (ht.table k.bucket)).1).toMap
      = Function.update ht.toMap k none := by
  rw [toMap_set (fun j hj => searchNode_deleteBucket_ne (Key.str_ne hj) _),
    searchNode_deleteBucket_self _ (hI.nodup _)]
  rfl

theorem deleteBucket_ret_toMap (ht : HashTable) (k : Key) :
    (deleteBucket k.str (ht.table k.bucket)).2 = if (ht.toMap k).isSome then 0 else 1 := by
  rw [deleteBucket_ret, HashTable.toMap, Option.isSome_map]

/-! ## The refinement -/

/-- **Step lemma.** One call on a sound table behaves as on its map and leaves a sound table. -/
theorem exec_refines {ht : HashTable} (hI : TableInv ht) (op : PairOp) :
    ∃ ht', op.exec ht = some (ht', (op.spec ht.toMap).2) ∧ TableInv ht' ∧
      ht'.toMap = (op.spec ht.toMap).1 := by
  cases op with
  | write k value mem =>
      exact ⟨_, by simp [PairOp.exec, PairOp.spec], hI.write k value mem,
        toMap_write ht k value mem⟩
  | read k =>
      exact ⟨ht, by simp [PairOp.exec, PairOp.spec, HashTable.toMap], hI, rfl⟩
  | delete k =>
      exact ⟨_, by simp [PairOp.exec, PairOp.spec, deleteBucket_ret_toMap], hI.delete k,
        toMap_delete hI k⟩

/-- **Run lemma.** Any sequence of calls on a sound table behaves as on its map. -/
theorem runOps_refines {ht : HashTable} (hI : TableInv ht) (ops : List PairOp) :
    ∃ ht', runOps ops ht = some (ht', (runSpec ops ht.toMap).2) ∧ TableInv ht' ∧
      ht'.toMap = (runSpec ops ht.toMap).1 := by
  induction ops generalizing ht with
  | nil => exact ⟨ht, rfl, hI, rfl⟩
  | cons op ops ih =>
      obtain ⟨ht₁, hexec, hI₁, hmap⟩ := exec_refines hI op
      obtain ⟨ht₂, hrun, hI₂, hmap₂⟩ := ih hI₁
      refine ⟨ht₂, ?_, hI₂, ?_⟩
      · simp only [runOps, hexec, Option.bind_eq_bind, Option.bind_some, hrun, runSpec, hmap]
        rfl
      · rw [hmap₂, runSpec, hmap]

theorem toMap_create : createHashTable.toMap = fun _ => none := by
  funext k
  simp [HashTable.toMap, createHashTable, searchNode]

/-- The map after a history holds the latest value of each key. -/
theorem runSpec_latest (ops : List PairOp) (k : Key) :
    (runSpec ops (fun _ => none)).1 k = latest k ops := by
  suffices h : ∀ (ops : List PairOp) (m : KvMap), (runSpec ops m).1 k
      = ops.foldl (fun v op => match op with
          | .write j value _ => if j = k then some value else v
          | .read _ => v
          | .delete j => if j = k then none else v) (m k) from h ops _
  intro ops
  induction ops with
  | nil => exact fun m => rfl
  | cons op ops ih =>
      intro m
      rw [runSpec, ih, List.foldl_cons]
      congr 1
      cases op with
      | write j value mem =>
          by_cases hj : j = k
          · subst hj; simp [PairOp.spec]
          · simp [PairOp.spec, hj, Function.update_of_ne (Ne.symm hj)]
      | read j => rfl
      | delete j =>
          by_cases hj : j = k
          · subst hj; simp [PairOp.spec]
          · simp [PairOp.spec, hj, Function.update_of_ne (Ne.symm hj)]

/-- **The hash table simulates a finite map.** After any history of calls from `create_hash_table`, all
    of which returned what the map returns: `read_pair` gives the latest value not deleted since,
    `delete_pair` returns 0 exactly on a present key and removes it alone, and `write_pair` changes the
    value of its key alone. -/
theorem pair_operations_simulate_map (ops : List PairOp) :
    ∃ ht, runOps ops createHashTable = some (ht, (runSpec ops (fun _ => none)).2) ∧
      (∀ k, readPair ht k.str = some (latest k ops)) ∧
      (∀ k, ∃ ht', deletePair ht k.str = some (ht', if (latest k ops).isSome then 0 else 1) ∧
        ∀ j, readPair ht' j.str = some (if j = k then none else latest j ops)) ∧
      (∀ k value mem, ∃ ht', writePair ht k.str value mem = some (ht', 0) ∧
        ∀ j, readPair ht' j.str = some (if j = k then some value else latest j ops)) := by
  obtain ⟨ht, hrun, hI, hmap⟩ := runOps_refines tableInv_create ops
  rw [toMap_create] at hrun hmap
  have hval : ∀ k, ht.toMap k = latest k ops := by
    intro k
    rw [hmap, runSpec_latest]
  have hread : ∀ (ht' : HashTable) (j : Key), readPair ht' j.str = some (ht'.toMap j) :=
    fun ht' j => readPair_key ht' j
  refine ⟨ht, hrun, ?_, ?_, ?_⟩
  · intro k
    rw [hread, hval]
  · intro k
    refine ⟨_, by rw [deletePair_key, deleteBucket_ret_toMap, hval], fun j => ?_⟩
    rw [hread, toMap_delete hI]
    by_cases hj : j = k
    · simp [hj]
    · simp [hj, hval]
  · intro k value mem
    refine ⟨_, writePair_key ht k value mem, fun j => ?_⟩
    rw [hread, toMap_write]
    by_cases hj : j = k
    · simp [hj]
    · simp [hj, hval]

end Kvs.Server
