import Kvs.Correctness.Records
import Kvs.Exercise1.Operations
import Kvs.Lib.Keyed

/-!
# `Correctness.Exercise1` — sorting the keys of a command changes nothing

The server sorts the keys of a command before it runs, exercise 1 runs them in the order written. The
table of exercise 1 is that of the server without the subscribers (`HashTable.erase`), so its commands
are those of the server, not sorted. On the map both come down to operations that work at one key each
(`Lib.Keyed`), and the sort is stable: key by key, the operations stay the same and in the same order.

Both programs format their records in an array of 40 bytes, and exercise 1 puts three more bytes around a
missing key. A job comes out the same exactly when no record leaves the array of either
(`sorted_job_same_iff`).
-/

namespace Kvs.Exercise1

/-- The map that a table represents. -/
def HashTable.toMap (ht : HashTable) : Server.KvMap :=
  fun k => (searchNode k.str (ht.table k.bucket)).map KeyNode.value

end Kvs.Exercise1

namespace Kvs.Server

/-! ## Without subscribers -/

/-- The node without its subscribers. -/
def KeyNode.erase (keyNode : KeyNode) : Exercise1.KeyNode := ⟨keyNode.key, keyNode.value⟩

def HashTable.erase (ht : HashTable) : Exercise1.HashTable :=
  ⟨fun i => (ht.table i).map KeyNode.erase⟩

theorem searchNode_erase (key : CStr) (bucket : List KeyNode) :
    Exercise1.searchNode key (bucket.map KeyNode.erase)
      = (searchNode key bucket).map KeyNode.erase := by
  induction bucket with
  | nil => rfl
  | cons n l ih =>
      by_cases hn : strcmp n.key key = 0
      · simp [Exercise1.searchNode, searchNode, KeyNode.erase, hn]
      · simpa [Exercise1.searchNode, searchNode, KeyNode.erase, hn] using ih

theorem overwriteNode_erase (key value : CStr) (bucket : List KeyNode) :
    Exercise1.overwriteNode key value (bucket.map KeyNode.erase)
      = (overwriteNode key value bucket).map KeyNode.erase := by
  induction bucket with
  | nil => rfl
  | cons n l ih =>
      by_cases hn : strcmp n.key key = 0
      · simp [Exercise1.overwriteNode, overwriteNode, KeyNode.erase, KeyNode.setValue, hn]
      · simpa [Exercise1.overwriteNode, overwriteNode, KeyNode.erase, hn] using ih

theorem unlinkNode_erase (key : CStr) (bucket : List KeyNode) :
    Exercise1.unlinkNode key (bucket.map KeyNode.erase)
      = (unlinkNode key bucket).map KeyNode.erase := by
  induction bucket with
  | nil => rfl
  | cons n l ih =>
      by_cases hn : strcmp n.key key = 0
      · simp [Exercise1.unlinkNode, unlinkNode, KeyNode.erase, hn]
      · simpa [Exercise1.unlinkNode, unlinkNode, KeyNode.erase, hn] using ih

theorem writeBucket_erase (key value : CStr) (mem : Garbage) (bucket : List KeyNode) :
    Exercise1.writeBucket key value (bucket.map KeyNode.erase)
      = (writeBucket key value mem bucket).map KeyNode.erase := by
  unfold Exercise1.writeBucket writeBucket
  rw [searchNode_erase]
  cases searchNode key bucket with
  | none => rfl
  | some n => exact overwriteNode_erase key value bucket

theorem deleteBucket_erase (key : CStr) (bucket : List KeyNode) :
    Exercise1.deleteBucket key (bucket.map KeyNode.erase)
      = ((deleteBucket key bucket).1.map KeyNode.erase, (deleteBucket key bucket).2) := by
  unfold Exercise1.deleteBucket deleteBucket
  rw [searchNode_erase]
  cases searchNode key bucket with
  | none => rfl
  | some n => exact congrArg (·, 0) (unlinkNode_erase key bucket)

theorem HashTable.erase_set (ht : HashTable) (i : Fin TABLE_SIZE) (bucket : List KeyNode) :
    (ht.set i bucket).erase = ht.erase.set i (bucket.map KeyNode.erase) := by
  apply congrArg Exercise1.HashTable.mk
  funext j
  by_cases hj : j = i
  · subst hj
    simp [HashTable.erase]
  · simp [HashTable.erase, hj, HashTable.set]

theorem writePair_erase (ht : HashTable) (k : Key) (value : CStr) (mem : Garbage) :
    Exercise1.writePair ht.erase k.str value
      = some ((ht.set k.bucket (writeBucket k.str value mem (ht.table k.bucket))).erase, 0) := by
  rw [HashTable.erase_set, ← writeBucket_erase]
  simp [Exercise1.writePair, HashTable.erase]

theorem toMap_erase (ht : HashTable) : ht.erase.toMap = ht.toMap := by
  funext k
  show (Exercise1.searchNode k.str ((ht.table k.bucket).map KeyNode.erase)).map _ = _
  rw [searchNode_erase, Option.map_map]
  rfl

theorem readPair_erase (ht : HashTable) (k : Key) :
    Exercise1.readPair ht.erase k.str = some (ht.toMap k) := by
  rw [← toMap_erase]
  simp only [Exercise1.readPair, subscript_hash, Option.bind_eq_bind, Option.bind_some]
  rfl

theorem deletePair_erase (ht : HashTable) (k : Key) :
    Exercise1.deletePair ht.erase k.str
      = some ((ht.set k.bucket (deleteBucket k.str (ht.table k.bucket)).1).erase,
          (deleteBucket k.str (ht.table k.bucket)).2) := by
  have h : Exercise1.deleteBucket k.str (ht.erase.table k.bucket)
      = ((deleteBucket k.str (ht.table k.bucket)).1.map KeyNode.erase,
          (deleteBucket k.str (ht.table k.bucket)).2) := deleteBucket_erase _ _
  rw [HashTable.erase_set]
  simp [Exercise1.deletePair, h]

/-! ## The loops on the map -/

/-- A write to a key, a read of it, and its removal, on the value it has. -/
def writeAct (pair : Key × CStr) (_ : Option CStr) : Option CStr × Unit := (some pair.2, ())

def readAct (_ : Key) (value : Option CStr) : Option CStr × Option CStr := (value, value)

def deleteAct (_ : Key) (value : Option CStr) : Option CStr × Int :=
  (none, if value.isSome then 0 else 1)

/-- The map after writing these pairs, and what reading and deleting these keys returns. -/
def written (pairs : List (Key × CStr)) (m : KvMap) : KvMap := (Keyed.run Prod.fst writeAct pairs m).1

def readResults (keys : List Key) (m : KvMap) : List (CStr × Option CStr) :=
  (Keyed.run id readAct keys m).2.map (fun r => (r.1.str, r.2))

def deleted (keys : List Key) (m : KvMap) : KvMap := (Keyed.run id deleteAct keys m).1

def deleteResults (keys : List Key) (m : KvMap) : List (CStr × Int) :=
  (Keyed.run id deleteAct keys m).2.map (fun r => (r.1.str, r.2))

namespace Sequential

theorem writeLoop_spec (mem : Nat → Garbage) (i : Nat) (pairs : List (Key × CStr)) {ht : HashTable}
    (hI : TableInv ht) :
    ∃ ht', writeLoop mem i (pairs.map (fun p => (p.1.str, p.2))) ht = some ht' ∧ TableInv ht' ∧
      ht'.toMap = written pairs ht.toMap := by
  induction pairs generalizing i ht with
  | nil => exact ⟨ht, rfl, hI, rfl⟩
  | cons p pairs ih =>
      obtain ⟨ht', hrun, hI', hmap⟩ := ih (i + 1) (hI.write p.1 p.2 (mem i))
      refine ⟨ht', ?_, hI', ?_⟩
      · simpa [writeLoop] using hrun
      · rw [hmap, toMap_write]
        rfl

theorem readLoop_spec (ht : HashTable) (keys : List Key) :
    readLoop ht (keys.map Key.str) = some (readResults keys ht.toMap) := by
  induction keys with
  | nil => rfl
  | cons k keys ih =>
      have hsame : Function.update ht.toMap k (ht.toMap k) = ht.toMap := Function.update_eq_self _ _
      simp only [List.map_cons, readLoop, readPair_key, Option.bind_eq_bind, Option.bind_some, ih,
        readResults, Keyed.run, readAct, id, hsame]
      rfl

theorem deleteLoop_spec (keys : List Key) {ht : HashTable} (hI : TableInv ht) :
    ∃ ht', deleteLoop (keys.map Key.str) ht = some (ht', deleteResults keys ht.toMap) ∧
      TableInv ht' ∧ ht'.toMap = deleted keys ht.toMap := by
  induction keys generalizing ht with
  | nil => exact ⟨ht, rfl, hI, rfl⟩
  | cons k keys ih =>
      obtain ⟨ht', hrun, hI', hmap⟩ := ih (hI.delete k)
      rw [toMap_delete hI] at hrun hmap
      refine ⟨ht', ?_, hI', hmap⟩
      simp only [List.map_cons, deleteLoop, deletePair_key, Option.bind_eq_bind, Option.bind_some,
        hrun, deleteBucket_ret_toMap]
      rfl

theorem kvsWrite_spec (pairs : List (Key × CStr)) (mem : Nat → Garbage) {w : World}
    (hI : TableInv w.table) :
    ∃ ht', kvsWrite (pairs.map (fun p => (p.1.str, p.2))) mem w = some { w with table := ht' } ∧
      TableInv ht' ∧ ht'.toMap = written pairs w.table.toMap := by
  obtain ⟨ht', hrun, hI', hmap⟩ := writeLoop_spec mem 0 pairs hI
  refine ⟨ht', ?_, hI', hmap⟩
  have hkeys : (pairs.map (fun p : Key × CStr => (p.1.str, p.2))).map Prod.fst
      = (pairs.map Prod.fst).map Key.str := by
    rw [List.map_map, List.map_map]
    rfl
  simp only [kvsWrite, hkeys, markLoop_keys, hrun, Option.bind_eq_bind, Option.bind_some]
  rfl

theorem kvsRead_spec (keys : List Key) (w : World) :
    kvsRead (keys.map Key.str) w
      = some { w with output := w.output ++ [.read (readResults keys w.table.toMap)] } := by
  simp only [kvsRead, markLoop_keys, readLoop_spec, Option.bind_eq_bind, Option.bind_some]
  rfl

theorem kvsDelete_spec (keys : List Key) {w : World} (hI : TableInv w.table) :
    ∃ ht', kvsDelete (keys.map Key.str) w
        = some { w with
            table := ht'
            output := w.output ++ [.deleted (missingKeys (deleteResults keys w.table.toMap))] } ∧
      TableInv ht' ∧ ht'.toMap = deleted keys w.table.toMap := by
  obtain ⟨ht', hrun, hI', hmap⟩ := deleteLoop_spec keys hI
  refine ⟨ht', ?_, hI', hmap⟩
  simp only [kvsDelete, markLoop_keys, hrun, Option.bind_eq_bind, Option.bind_some]
  rfl

end Sequential

/-! ## The loops of exercise 1 are those of the server -/

theorem writeLoop_erase (mem : Nat → Garbage) (i : Nat) (pairs : List (Key × CStr)) (ht : HashTable) :
    Exercise1.writeLoop (pairs.map (fun p => (p.1.str, p.2))) ht.erase
      = (Sequential.writeLoop mem i (pairs.map (fun p => (p.1.str, p.2))) ht).map HashTable.erase := by
  induction pairs generalizing i ht with
  | nil => rfl
  | cons p pairs ih =>
      simp only [List.map_cons, Exercise1.writeLoop, Sequential.writeLoop, writePair_key,
        writePair_erase ht p.1 p.2 (mem i), Option.bind_eq_bind, Option.bind_some]
      exact ih (i + 1) _

theorem readLoop_erase (ht : HashTable) (keys : List Key) :
    Exercise1.readLoop ht.erase (keys.map Key.str) = Sequential.readLoopAt ht (keys.map Key.str) := by
  induction keys with
  | nil => rfl
  | cons k keys ih =>
      simp only [List.map_cons, Exercise1.readLoop, Sequential.readLoopAt, readPair_key, readPair_erase,
        ih]
      rfl

/-- Exercise 1 collects the missing keys as it goes, the server filters them afterwards. -/
theorem deleteLoop_erase {keys : List Key} {ht ht' : HashTable} {results : List (CStr × Int)}
    (h : Sequential.deleteLoop (keys.map Key.str) ht = some (ht', results)) :
    Exercise1.deleteLoop (keys.map Key.str) ht.erase
      = if ∀ key ∈ Sequential.missingKeys results,
            Sequential.FitsBuffer (Exercise1.missingRecord key) then
          some (ht'.erase, Sequential.missingKeys results)
        else none := by
  induction keys generalizing ht results with
  | nil =>
      obtain ⟨rfl, rfl⟩ := Prod.mk.inj (Option.some.inj h)
      rw [if_pos (fun key hkey => absurd hkey (by simp [Sequential.missingKeys]))]
      rfl
  | cons k keys ih =>
      simp only [List.map_cons, Sequential.deleteLoop, deletePair_key, Option.bind_eq_bind,
        Option.bind_some, Option.bind_eq_some_iff] at h
      obtain ⟨⟨ht₁, rest⟩, hrest, hresults⟩ := h
      obtain ⟨rfl, rfl⟩ := Prod.mk.inj (Option.some.inj hresults)
      simp only [List.map_cons, Exercise1.deleteLoop, deletePair_erase, Option.bind_eq_bind,
        Option.bind_some, ih hrest, Exercise1.formattedMissing, Sequential.formatted]
      by_cases hret : (deleteBucket k.str (ht.table k.bucket)).2 = 0
      · -- the key was there, and nothing is formatted
        rw [Sequential.missingKeys_found hret]
        simp only [hret, ne_eq, not_true_eq_false, if_false, Option.bind_some]
        split_ifs <;> rfl
      · rw [Sequential.missingKeys_missing hret]
        simp only [hret, ne_eq, not_false_eq_true, if_true, List.forall_mem_cons]
        by_cases hfits : Sequential.FitsBuffer (Exercise1.missingRecord k.str)
        · rw [if_pos hfits, Option.bind_some]
          by_cases hall : ∀ key ∈ Sequential.missingKeys rest,
              Sequential.FitsBuffer (Exercise1.missingRecord key)
          · rw [if_pos hall, if_pos ⟨hfits, hall⟩]
            rfl
          · rw [if_neg hall, if_neg (fun h => hall (And.right h))]
            rfl
        · rw [if_neg hfits, if_neg (fun h => hfits (And.left h))]
          rfl

/-! ## Sorting -/

/-- The rows of a key keep their order. -/
theorem sortRows_key_filter {ν : Type} [Inhabited ν] (rows : List (Key × ν)) (k : Key) :
    (sortRows (fun i j : Key => strcmp i.str j.str) rows).filter (fun p => p.1 = k)
      = rows.filter (fun p => p.1 = k) := by
  apply sortRows_filter
  intro x y hx hy
  have hxy : x.1 = y.1 := (of_decide_eq_true hx).trans (of_decide_eq_true hy).symm
  rw [hxy, (strcmp_eq_zero _ _).mpr rfl]

theorem sortKeys_filter (keys : List Key) (k : Key) :
    (sortKeys keys).filter (fun j => j = k) = keys.filter (fun j => j = k) := by
  calc (sortKeys keys).filter (fun j => j = k)
      = ((sortRows (fun i j : Key => strcmp i.str j.str) (keys.map (fun j => (j, ())))).filter
          (fun p => p.1 = k)).map Prod.fst := List.filter_map
    _ = ((keys.map (fun j => (j, ()))).filter (fun p => p.1 = k)).map Prod.fst := by
          rw [sortRows_key_filter]
    _ = keys.filter (fun j => j = k) := by
          rw [List.filter_map, List.map_map]
          exact List.map_id _

/-! ## A command, and a job -/

/-- The command is a `WRITE`, a `READ` or a `DELETE`. -/
def JobCmd.namesKeys : JobCmd → Bool
  | .write _ => true
  | .read _ => true
  | .delete _ => true
  | _ => false

/-- Two reports of the same records, in any order. -/
def SameRecords : Sequential.Report → Exercise1.Report → Prop
  | .read results, .read results' => results.Perm results'
  | .deleted missing, .deleted missing' => missing.Perm missing'
  | _, _ => False

/-- The server and exercise 1 agree: two sound tables with one map, and the same records so far. -/
structure Agree (w : Sequential.World) (e : Exercise1.World) : Prop where
  sound : TableInv w.table
  table : ∃ ht, TableInv ht ∧ ht.erase = e.table ∧ ht.toMap = w.table.toMap
  output : List.Forall₂ SameRecords w.output e.output

/-- The keys of strings that have a bucket. -/
theorem exists_keys {ν : Type} {rows : List (CStr × ν)} (h : ∀ key ∈ rows.map Prod.fst, HasBucket key) :
    ∃ rows' : List (Key × ν), rows'.map (fun p => (p.1.str, p.2)) = rows := by
  induction rows with
  | nil => exact ⟨[], rfl⟩
  | cons row rows ih =>
      rw [List.map_cons, List.forall_mem_cons] at h
      obtain ⟨k, hk⟩ := h.1.exists_key
      obtain ⟨rows', hrows⟩ := ih h.2
      exact ⟨(k, row.2) :: rows', by rw [List.map_cons, hk, hrows]⟩

instance : CanLift CStr Key Key.str HasBucket where
  prf _ h := h.exists_key

/-! ## Records that fit both arrays -/

theorem fitsBuffer_missing1_iff (key : CStr) :
    Sequential.FitsBuffer (Exercise1.missingRecord key) ↔ key.bytes.length ≤ 23 := by
  simp only [Sequential.FitsBuffer, Exercise1.missingRecord, List.length_append, ascii, List.length_map]
  show 2 + key.bytes.length + 14 + 1 ≤ 40 ↔ _
  omega

/-- The records that the command formats on this table fit the array of the server and that of
    exercise 1. -/
def FitsBoth (ht : HashTable) : JobCmd → Prop
  | .read keys => ∀ key ∈ keys, Sequential.ReadFits ht key
  | .delete keys =>
      ∀ key ∈ keys, ht.node key = none ∨ 2 ≤ keys.count key → key.bytes.length ≤ 23
  | _ => True

instance (ht : HashTable) : (command : JobCmd) → Decidable (FitsBoth ht command)
  | .read keys => inferInstanceAs (Decidable (∀ key ∈ keys, Sequential.ReadFits ht key))
  | .delete keys => inferInstanceAs (Decidable
      (∀ key ∈ keys, ht.node key = none ∨ 2 ≤ keys.count key → key.bytes.length ≤ 23))
  | .write _ | .showAll | .wait _ | .backup | .help | .empty | .invalid => isTrue trivial

/-- The records of the server are the shorter ones. -/
theorem FitsBoth.commandFits {ht : HashTable} {command : JobCmd} (h : FitsBoth ht command) :
    Sequential.CommandFits ht command := by
  cases command with
  | read keys => exact h
  | delete keys => exact fun key hkey hreported => (h key hkey hreported).trans (by decide)
  | _ => trivial

theorem node_map_value (ht : HashTable) (k : Key) :
    (ht.node k.str).map KeyNode.value = ht.toMap k := by
  rw [node_key]
  rfl

/-- The records depend on the map alone. -/
theorem readFits_congr {ht ht' : HashTable} (h : ht.toMap = ht'.toMap) (k : Key) :
    Sequential.ReadFits ht k.str ↔ Sequential.ReadFits ht' k.str := by
  rw [← Sequential.fitsBuffer_read_iff, ← Sequential.fitsBuffer_read_iff, node_map_value,
    node_map_value, h]

theorem node_eq_none_congr {ht ht' : HashTable} (h : ht.toMap = ht'.toMap) (k : Key) :
    ht.node k.str = none ↔ ht'.node k.str = none := by
  rw [← @Option.map_eq_none_iff _ _ _ KeyNode.value, node_map_value, h, ← node_map_value,
    Option.map_eq_none_iff]

/-- What exercise 1 reports is what the server's functions find on the keys as written, as long as its
    records fit. -/
theorem kvsRead_erase {ht : HashTable} {e : Exercise1.World} (hht : ht.erase = e.table)
    (keys : List Key) :
    Exercise1.kvsRead (keys.map Key.str) e
      = if ∀ k ∈ keys, Sequential.ReadFits ht k.str then
          some { e with output := e.output ++ [.read (readResults keys ht.toMap)] }
        else none := by
  have hread := Sequential.readLoop_spec ht keys
  have hfits : (∀ r ∈ readResults keys ht.toMap,
      Sequential.FitsBuffer (Sequential.readRecord r.1 r.2)) ↔
      ∀ k ∈ keys, Sequential.ReadFits ht k.str := by
    have hnode := Sequential.readLoop_node ht (hasBucket_keys keys)
    rw [hread] at hnode
    rw [Option.some.inj hnode]
    simp only [List.forall_mem_map, Sequential.fitsBuffer_read_iff]
  rw [Exercise1.kvsRead, ← hht, readLoop_erase, Sequential.readLoopAt_eq hread]
  simp only [hfits]
  split_ifs <;> rfl

theorem kvsDelete_erase {ht ht' : HashTable} {e : Exercise1.World} (hI : TableInv ht)
    (hht : ht.erase = e.table) {keys : List Key}
    (hrun : Sequential.deleteLoop (keys.map Key.str) ht = some (ht', deleteResults keys ht.toMap)) :
    Exercise1.kvsDelete (keys.map Key.str) e
      = if ∀ key ∈ keys.map Key.str, ht.node key = none ∨ 2 ≤ (keys.map Key.str).count key →
            key.bytes.length ≤ 23 then
          some { e with
            table := ht'.erase
            output := e.output ++ [.deleted (Sequential.missingKeys (deleteResults keys ht.toMap))] }
        else none := by
  obtain ⟨ht₁, results, hrun₁, hmissing⟩ :=
    Sequential.deleteLoop_missing hI (hasBucket_keys keys)
  obtain ⟨rfl, rfl⟩ := Prod.mk.inj (Option.some.inj (hrun.symm.trans hrun₁))
  have hfits : (∀ key ∈ Sequential.missingKeys (deleteResults keys ht.toMap),
      Sequential.FitsBuffer (Exercise1.missingRecord key)) ↔
      ∀ key ∈ keys.map Key.str, ht.node key = none ∨ 2 ≤ (keys.map Key.str).count key →
        key.bytes.length ≤ 23 := by
    simp only [hmissing, fitsBuffer_missing1_iff]
    constructor
    · intro h key hkey hreported
      exact h key (hreported.imp_left (fun hnone => ⟨hkey, hnone⟩))
    · rintro h key (⟨hkey, hnone⟩ | htwo)
      · exact h key hkey (Or.inl hnone)
      · exact h key (List.count_pos_iff.mp (by omega)) (Or.inr htwo)
  rw [Exercise1.kvsDelete, ← hht, deleteLoop_erase hrun]
  simp only [hfits]
  split_ifs <;> rfl

/-- **Command.** The server on the sorted keys and exercise 1 on the keys as written go on agreeing, when
    the records fit the arrays of both. -/
theorem processCommand_agree {w : Sequential.World} {e : Exercise1.World} (h : Agree w e)
    {command : JobCmd} (hcmd : command.namesKeys = true) (hkeys : ∀ key ∈ command.keys, HasBucket key)
    (hfits : FitsBoth w.table command) (mem : Nat → Garbage) :
    ∃ w' e', Sequential.processCommand mem command w = some w' ∧
      Exercise1.processCommand command e = some e' ∧ Agree w' e' := by
  obtain ⟨ht, hI, hht, hmap⟩ := h.table
  cases command with
  | write pairs =>
      obtain ⟨rows, rfl⟩ := exists_keys hkeys
      obtain ⟨ht₁, hrun₁, hI₁, hmap₁⟩ := Sequential.kvsWrite_spec (sortPairs rows) mem h.sound
      obtain ⟨ht₂, hrun₂, hI₂, hmap₂⟩ := Sequential.writeLoop_spec mem 0 rows hI
      -- the writes to one key stay in order, so the last of them is the same
      have hsame : written (sortPairs rows) w.table.toMap = written rows w.table.toMap :=
        (Keyed.run_reorder (sortRows_key_filter rows) w.table.toMap).1
      refine ⟨_, { e with table := ht₂.erase },
        (congrArg (Sequential.kvsWrite · mem w) (Sequential.sorted_strs rows)).trans hrun₁, ?_, hI₁,
        ⟨ht₂, hI₂, rfl, by rw [hmap₁, hmap₂, hmap, hsame]⟩, h.output⟩
      show Exercise1.kvsWrite (rows.map _) e = _
      rw [Exercise1.kvsWrite, ← hht, writeLoop_erase mem 0, hrun₂]
      rfl
  | read keys =>
      lift keys to List Key using hkeys
      -- a read finds the same value wherever it stands
      have hsame : (readResults (sortKeys keys) w.table.toMap).Perm (readResults keys ht.toMap) := by
        rw [hmap]
        exact (Keyed.run_reorder (sortKeys_filter keys) w.table.toMap).2.map _
      have hfits' : ∀ k ∈ keys, Sequential.ReadFits ht k.str := by
        intro k hk
        exact (readFits_congr hmap k).mpr (hfits k.str (List.mem_map_of_mem hk))
      exact ⟨_, _, (congrArg (Sequential.kvsRead · w) (Sequential.sorted_keys keys)).trans
        (Sequential.kvsRead_spec (sortKeys keys) w), (kvsRead_erase hht keys).trans (if_pos hfits'),
        h.sound, h.table, List.rel_append h.output (.cons hsame .nil)⟩
  | delete keys =>
      lift keys to List Key using hkeys
      obtain ⟨ht₁, hrun₁, hI₁, hmap₁⟩ := Sequential.kvsDelete_spec (sortKeys keys) h.sound
      obtain ⟨ht₂, hrun₂, hI₂, hmap₂⟩ := Sequential.deleteLoop_spec keys hI
      have hsame : deleted (sortKeys keys) w.table.toMap = deleted keys w.table.toMap :=
        (Keyed.run_reorder (sortKeys_filter keys) w.table.toMap).1
      -- only the first removal of a key can succeed, in either order
      have hperm : (deleteResults (sortKeys keys) w.table.toMap).Perm (deleteResults keys ht.toMap) := by
        rw [hmap]
        exact (Keyed.run_reorder (sortKeys_filter keys) w.table.toMap).2.map _
      have hfits' : ∀ key ∈ keys.map Key.str,
          ht.node key = none ∨ 2 ≤ (keys.map Key.str).count key → key.bytes.length ≤ 23 := by
        intro key hkey hreported
        obtain ⟨k, _, rfl⟩ := List.mem_map.mp hkey
        rw [node_eq_none_congr hmap k] at hreported
        exact hfits k.str hkey hreported
      exact ⟨_, _, (congrArg (Sequential.kvsDelete · w) (Sequential.sorted_keys keys)).trans hrun₁,
        (kvsDelete_erase hI hht hrun₂).trans (if_pos hfits'), hI₁,
        ⟨ht₂, hI₂, rfl, by rw [hmap₁, hmap₂, hmap, hsame]⟩,
        List.rel_append h.output (.cons ((hperm.filter _).map _) .nil)⟩
  | showAll => exact absurd hcmd (by simp [JobCmd.namesKeys])
  | wait delay => exact absurd hcmd (by simp [JobCmd.namesKeys])
  | backup => exact absurd hcmd (by simp [JobCmd.namesKeys])
  | help => exact absurd hcmd (by simp [JobCmd.namesKeys])
  | empty => exact absurd hcmd (by simp [JobCmd.namesKeys])
  | invalid => exact absurd hcmd (by simp [JobCmd.namesKeys])

/-- A record that does not fit both arrays ends the run of exercise 1, whose records are the longer
    ones. -/
theorem processCommand_overflows {w : Sequential.World} {e : Exercise1.World} (h : Agree w e)
    {command : JobCmd} (hkeys : ∀ key ∈ command.keys, HasBucket key)
    (hfits : ¬ FitsBoth w.table command) : Exercise1.processCommand command e = none := by
  obtain ⟨ht, hI, hht, hmap⟩ := h.table
  cases command with
  | read keys =>
      lift keys to List Key using hkeys
      refine (kvsRead_erase hht keys).trans (if_neg (fun hall => hfits ?_))
      intro key hkey
      obtain ⟨k, hk, rfl⟩ := List.mem_map.mp hkey
      exact (readFits_congr hmap k).mp (hall k hk)
  | delete keys =>
      lift keys to List Key using hkeys
      obtain ⟨ht', hrun, -, -⟩ := Sequential.deleteLoop_spec keys hI
      refine (kvsDelete_erase hI hht hrun).trans (if_neg (fun hall => hfits ?_))
      intro key hkey hreported
      obtain ⟨k, _, rfl⟩ := List.mem_map.mp hkey
      rw [← node_eq_none_congr hmap k] at hreported
      exact hall k.str hkey hreported
  | _ => exact absurd trivial hfits

/-! ## Jobs -/

/-- Every record of the job fits the arrays of both programs, each command on the table that those before
    it leave. -/
def JobFits (mem : Nat → Nat → Garbage) : List JobCmd → Sequential.World → Prop
  | [], _ => True
  | command :: commands, w => FitsBoth w.table command ∧
      match Sequential.processCommand (mem 0) command w with
      | some w' => JobFits (fun i => mem (i + 1)) commands w'
      | none => True

instance decidableJobFits : (mem : Nat → Nat → Garbage) → (commands : List JobCmd) →
    (w : Sequential.World) → Decidable (JobFits mem commands w)
  | _, [], _ => isTrue trivial
  | mem, command :: commands, w =>
      @instDecidableAnd (FitsBoth w.table command) _ _
        (match Sequential.processCommand (mem 0) command w with
          | some w' => decidableJobFits (fun i => mem (i + 1)) commands w'
          | none => isTrue trivial)

/-- Both programs run the commands to the end, with the arrays of their records, and agree then. -/
def RunsAlike (mem : Nat → Nat → Garbage) (commands : List JobCmd) (w : Sequential.World)
    (e : Exercise1.World) : Prop :=
  ∃ w' e', Sequential.processCommandsAt mem commands w = some w' ∧
    Exercise1.processarFicheiroJob commands e = some e' ∧
    w'.table.toMap = e'.table.toMap ∧ List.Forall₂ SameRecords w'.output e'.output

theorem Agree.toMap_eq {w : Sequential.World} {e : Exercise1.World} (h : Agree w e) :
    w.table.toMap = e.table.toMap := by
  obtain ⟨ht, _, hht, hmap⟩ := h.table
  rw [← hht, toMap_erase, hmap]

/-- **Job.** -/
theorem runsAlike_iff {w : Sequential.World} {e : Exercise1.World} (h : Agree w e)
    {commands : List JobCmd} (hcommands : ∀ command ∈ commands,
      command.namesKeys = true ∧ ∀ key ∈ command.keys, HasBucket key) (mem : Nat → Nat → Garbage) :
    RunsAlike mem commands w e ↔ JobFits mem commands w := by
  induction commands generalizing w e mem with
  | nil => exact iff_of_true ⟨w, e, rfl, rfl, h.toMap_eq, h.output⟩ trivial
  | cons command commands ih =>
      rw [List.forall_mem_cons] at hcommands
      obtain ⟨⟨hcmd, hkeys⟩, hrest⟩ := hcommands
      by_cases hfits : FitsBoth w.table command
      · obtain ⟨w₁, e₁, hw₁, he₁, h₁⟩ := processCommand_agree h hcmd hkeys hfits (mem 0)
        have hw₁' := (Sequential.processCommandAt_fits hkeys h.sound hfits.commandFits).trans hw₁
        have hjob : JobFits mem (command :: commands) w ↔
            JobFits (fun i => mem (i + 1)) commands w₁ := by
          simp only [JobFits, hw₁, hfits, true_and]
        have hruns : RunsAlike mem (command :: commands) w e ↔
            RunsAlike (fun i => mem (i + 1)) commands w₁ e₁ := by
          simp only [RunsAlike, Sequential.processCommandsAt, Exercise1.processarFicheiroJob, hw₁', he₁,
            Option.bind_eq_bind, Option.bind_some]
        rw [hruns, hjob]
        exact ih h₁ hrest (fun i => mem (i + 1))
      · refine iff_of_false ?_ (fun hjob => hfits hjob.1)
        rintro ⟨w', e', -, he', -⟩
        simp only [Exercise1.processarFicheiroJob, processCommand_overflows h hkeys hfits,
          Option.bind_eq_bind, Option.bind_none] at he'
        exact absurd he' (by simp)

/-- **Sorting changes nothing**, and three bytes do. A job of `WRITE`, `READ` and `DELETE` commands on keys
    that start with a letter or a digit is run from the empty table by the server, which sorts the keys of
    each command, and by exercise 1, which does not. Both run to the end, leave the same map, and every
    `READ` reports the same pairs and every `DELETE` the same missing keys, as often, if and only if every
    record fits the arrays of both. -/
theorem sorted_job_same_iff (commands : List JobCmd) (hcommands : ∀ command ∈ commands,
      command.namesKeys = true ∧ ∀ key ∈ command.keys, HasBucket key) (mem : Nat → Nat → Garbage) :
    RunsAlike mem commands ⟨createHashTable, [], []⟩ ⟨Exercise1.createHashTable, []⟩ ↔
      JobFits mem commands ⟨createHashTable, [], []⟩ := by
  have hstart : Agree ⟨createHashTable, [], []⟩ ⟨Exercise1.createHashTable, []⟩ :=
    ⟨tableInv_create, ⟨createHashTable, tableInv_create, rfl, rfl⟩, .nil⟩
  exact runsAlike_iff hstart hcommands mem

/-- `WRITE [(b,1)(a,1)(b,2)]`, `READ [b,a,b]`, `DELETE [b,c,b]`. -/
def repeatedKeysJob : List JobCmd :=
  [.write [(keyB.str, CStr.ofBuffer (ascii "1")), (keyA.str, CStr.ofBuffer (ascii "1")),
      (keyB.str, CStr.ofBuffer (ascii "2"))],
    .read [keyB.str, keyA.str, keyB.str],
    .delete [keyB.str, CStr.ofBuffer (ascii "c"), keyB.str]]

theorem sorted_job_repeated_keys :
    (∀ command ∈ repeatedKeysJob,
      command.namesKeys = true ∧ ∀ key ∈ command.keys, HasBucket key) ∧
    RunsAlike (fun _ _ => Vector.replicate MAX_SESSION_COUNT 0) repeatedKeysJob
      ⟨createHashTable, [], []⟩ ⟨Exercise1.createHashTable, []⟩ := by
  have hcommands : ∀ command ∈ repeatedKeysJob,
      command.namesKeys = true ∧ ∀ key ∈ command.keys, HasBucket key := by decide
  exact ⟨hcommands, (sorted_job_same_iff repeatedKeysJob hcommands _).mpr (by decide +kernel)⟩

/-- A key of 24 letters. -/
def absentKey : CStr := CStr.ofBuffer (List.replicate 24 97)

/-- **A `DELETE` of 24 letters that are not there** fits the array of the server, not that of
    exercise 1. -/
theorem delete_absent_differs :
    (Sequential.processCommandsAt (fun _ _ => Vector.replicate MAX_SESSION_COUNT 0)
        [.delete [absentKey]] ⟨createHashTable, [], []⟩).isSome = true ∧
      ¬ RunsAlike (fun _ _ => Vector.replicate MAX_SESSION_COUNT 0) [.delete [absentKey]]
        ⟨createHashTable, [], []⟩ ⟨Exercise1.createHashTable, []⟩ := by
  have hnone : (Exercise1.processarFicheiroJob [.delete [absentKey]]
      ⟨Exercise1.createHashTable, []⟩).isNone = true := by decide +kernel
  refine ⟨by decide +kernel, ?_⟩
  rintro ⟨w, e, -, he, -⟩
  rw [he] at hnone
  exact absurd hnone (by simp)

end Kvs.Server
