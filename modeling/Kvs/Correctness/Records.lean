import Kvs.Correctness.RoundTrip
import Kvs.Correctness.SubscriberSets
import Kvs.Server.RecordBuffer

/-!
# `Correctness.Records` — the buffer a record is formatted in

`kvs_read` and `kvs_delete` format each record with `sprintf` into an array of `MAX_STRING_SIZE` bytes,
the size the parser gives to one string, and a record is a string or two in brackets. A `READ` stays
inside the array exactly when each of its keys, with its value or `KVSERROR`, leaves room for the brackets,
the comma and the NUL; a `DELETE` when each key it finds missing does with `KVSMISSING`
(`read_records_fit_iff`, `delete_records_fit_iff`).
-/

namespace Kvs.Server

namespace Sequential

/-! ## Records -/

/-- Every record of a report fits the array it is formatted in. -/
def Report.Fits : Report → Prop
  | .read results => ∀ r ∈ results, FitsBuffer (readRecord r.1 r.2)
  | .deleted missing => ∀ key ∈ missing, FitsBuffer (missingRecord key)
  | .shown _ => True

/-- The command runs to its end, and the records of its report fit. -/
def RecordsFit (mem : Nat → Garbage) (command : JobCmd) (w : World) : Prop :=
  ∃ w' report, processCommand mem command w = some w' ∧ w'.output = w.output ++ [report] ∧ report.Fits

/-! ## Reading -/

/-- The reads of a command give each key the value of its node. -/
theorem readLoop_node (ht : HashTable) {keys : List CStr} (hkeys : ∀ key ∈ keys, HasBucket key) :
    readLoop ht keys = some (keys.map (fun key => (key, (ht.node key).map KeyNode.value))) := by
  induction keys with
  | nil => rfl
  | cons key keys ih =>
      obtain ⟨hkey, hrest⟩ := List.forall_mem_cons.mp hkeys
      obtain ⟨k, rfl⟩ := hkey.exists_key
      simp only [readLoop, readPair_key, Option.bind_eq_bind, Option.bind_some, ih hrest,
        List.map_cons, node_key]
      rfl

/-- A key and what `kvs_read` finds for it leave room for what is around them. -/
def ReadFits (ht : HashTable) (key : CStr) : Prop :=
  match ht.node key with
  | some keyNode => key.bytes.length + keyNode.value.bytes.length ≤ 36
  | none => key.bytes.length ≤ 28

theorem readFits_some {ht : HashTable} {key : CStr} {keyNode : KeyNode}
    (h : ht.node key = some keyNode) :
    ReadFits ht key ↔ key.bytes.length + keyNode.value.bytes.length ≤ 36 := by
  unfold ReadFits
  rw [h]

theorem readFits_none {ht : HashTable} {key : CStr} (h : ht.node key = none) :
    ReadFits ht key ↔ key.bytes.length ≤ 28 := by
  unfold ReadFits
  rw [h]

instance (ht : HashTable) (key : CStr) : Decidable (ReadFits ht key) :=
  match h : ht.node key with
  | some _ => decidable_of_iff _ (readFits_some h).symm
  | none => decidable_of_iff _ (readFits_none h).symm

theorem fitsBuffer_read_iff (ht : HashTable) (key : CStr) :
    FitsBuffer (readRecord key ((ht.node key).map KeyNode.value)) ↔ ReadFits ht key := by
  cases h : ht.node key with
  | none =>
      rw [readFits_none h]
      exact fitsBuffer_error_iff key
  | some n =>
      rw [readFits_some h]
      exact fitsBuffer_value_iff key n.value

/-- A command that is defined names keys that have a bucket. -/
theorem RecordsFit.hasBucket {mem : Nat → Garbage} {command : JobCmd} {w : World}
    (h : RecordsFit mem command w) : ∀ key ∈ command.keys, HasBucket key := by
  obtain ⟨w', -, hcommand, -⟩ := h
  exact (processCommand_isSome_iff mem command w).mp (by rw [hcommand]; rfl)

theorem markLoop_buckets {keys : List CStr} (hkeys : ∀ key ∈ keys, HasBucket key) :
    ∃ hashed, markLoop (fun _ => false) keys = some hashed :=
  Option.isSome_iff_exists.mp ((markLoop_isSome_iff (fun _ => false) keys).mpr hkeys)

/-- The sorted keys of a command have buckets when the keys do, and then the first loop marks them. -/
theorem markLoop_sorted {keys : List CStr} (hkeys : ∀ key ∈ keys, HasBucket key) :
    (∀ key ∈ (sortRows strcmp (keys.map (fun k => (k, ())))).map Prod.fst, HasBucket key) ∧
      ∃ hashed, markLoop (fun _ => false)
        ((sortRows strcmp (keys.map (fun k => (k, ())))).map Prod.fst) = some hashed := by
  have hsorted : ∀ key ∈ (sortRows strcmp (keys.map (fun k => (k, ())))).map Prod.fst,
      HasBucket key := by
    intro key hkey
    exact hkeys key ((mem_sorted_iff keys key).mp hkey)
  exact ⟨hsorted, markLoop_buckets hsorted⟩

/-- **The records of a `READ` fit** exactly when each key starts with a letter or a digit and has at most
    36 bytes with its value, or at most 28 when it is not there. -/
theorem read_records_fit_iff (mem : Nat → Garbage) (keys : List CStr) (w : World) :
    RecordsFit mem (.read keys) w ↔ ∀ key ∈ keys, HasBucket key ∧ ReadFits w.table key := by
  have hmem := mem_sorted_iff keys
  have hcommand : (∀ key ∈ keys, HasBucket key) → processCommand mem (.read keys) w
      = some { w with output := w.output ++ [.read
          (((sortRows strcmp (keys.map (fun k => (k, ())))).map Prod.fst).map
            (fun key => (key, (w.table.node key).map KeyNode.value)))] } := by
    intro hkeys
    obtain ⟨hsorted, hashed, hmark⟩ := markLoop_sorted hkeys
    simp only [processCommand, kvsRead, hmark, readLoop_node w.table hsorted, Option.bind_eq_bind,
      Option.bind_some]
    rfl
  constructor
  · intro h key hkey
    have hkeys : ∀ key ∈ keys, HasBucket key := h.hasBucket
    obtain ⟨w', report, hrun, houtput, hfits⟩ := h
    rw [hcommand hkeys] at hrun
    obtain rfl := Option.some.inj hrun
    obtain rfl := List.singleton_inj.mp (List.append_cancel_left houtput)
    refine ⟨hkeys key hkey, (fitsBuffer_read_iff w.table key).mp ?_⟩
    exact hfits _ (List.mem_map_of_mem ((hmem key).mpr hkey))
  · intro h
    refine ⟨_, _, hcommand (fun key hkey => (h key hkey).1), rfl, ?_⟩
    intro r hr
    obtain ⟨key, hkey, rfl⟩ := List.mem_map.mp hr
    exact (fitsBuffer_read_iff w.table key).mpr (h key ((hmem key).mp hkey)).2

/-! ## Deleting -/

theorem node_deletePair {ht : HashTable} (hI : TableInv ht) (k : Key) (key : CStr) :
    (ht.set k.bucket (deleteBucket k.str (ht.table k.bucket)).1).node key
      = if key = k.str then none else ht.node key := by
  by_cases hkey : key = k.str
  · subst hkey
    rw [if_pos rfl, node_key, HashTable.set_self, searchNode_deleteBucket_self _ (hI.nodup _)]
  · rw [if_neg hkey, node_set_ne (searchNode_deleteBucket_ne hkey _)]

theorem missingKeys_cons (key key' : CStr) (ret : Int) (results : List (CStr × Int)) :
    key ∈ missingKeys ((key', ret) :: results) ↔ key = key' ∧ ret ≠ 0 ∨ key ∈ missingKeys results := by
  by_cases hret : ret = 0
  · rw [missingKeys_found hret]
    simp [hret]
  · rw [missingKeys_missing hret]
    simp [hret]

/-- The keys that `kvs_delete` finds missing: those that are not in the table and those that it has
    deleted before. -/
theorem deleteLoop_missing {ht : HashTable} (hI : TableInv ht) {keys : List CStr}
    (hkeys : ∀ key ∈ keys, HasBucket key) :
    ∃ ht' results, deleteLoop keys ht = some (ht', results) ∧
      ∀ key, key ∈ missingKeys results ↔
        key ∈ keys ∧ ht.node key = none ∨ 2 ≤ keys.count key := by
  induction keys generalizing ht with
  | nil => exact ⟨ht, [], rfl, by simp [missingKeys]⟩
  | cons key keys ih =>
      obtain ⟨hkey, hrest⟩ := List.forall_mem_cons.mp hkeys
      obtain ⟨k, rfl⟩ := hkey.exists_key
      obtain ⟨ht', results, hrun, hmissing⟩ := ih (hI.delete k) hrest
      refine ⟨ht', (k.str, (deleteBucket k.str (ht.table k.bucket)).2) :: results, ?_, ?_⟩
      · simp only [deleteLoop, deletePair_key, Option.bind_eq_bind, Option.bind_some, hrun]
        rfl
      · intro key
        rw [missingKeys_cons, hmissing key, node_deletePair hI, deleteBucket_ret, ← node_key]
        by_cases hkey : key = k.str
        · -- once it is deleted, a later one is missing
          subst hkey
          have hcount : k.str ∈ keys ↔ 1 ≤ keys.count k.str := List.count_pos_iff.symm
          rw [List.count_cons_self, if_pos rfl, hcount]
          simp only [true_and, and_true, List.mem_cons, true_or]
          have hret : (if (ht.node k.str).isSome = true then (0 : Int) else 1) ≠ 0
              ↔ ht.node k.str = none := by
            cases ht.node k.str <;> simp
          rw [hret]
          constructor
          · rintro (hnone | hone | htwo)
            · exact Or.inl hnone
            · exact Or.inr (by omega)
            · exact Or.inr (by omega)
          · rintro (hnone | htwo)
            · exact Or.inl hnone
            · exact Or.inr (Or.inl (by omega))
        · rw [List.count_cons_of_ne (fun h => hkey h.symm), if_neg hkey, List.mem_cons]
          simp only [hkey, false_and, false_or]

/-- A key that `kvs_delete` finds missing leaves room for what is around it. -/
def DeleteFits (ht : HashTable) (keys : List CStr) (key : CStr) : Prop :=
  ht.node key = none ∨ 2 ≤ keys.count key → key.bytes.length ≤ 26

instance (ht : HashTable) (keys : List CStr) (key : CStr) : Decidable (DeleteFits ht keys key) :=
  inferInstanceAs (Decidable (_ → _))

/-- **The records of a `DELETE` fit** exactly when each key starts with a letter or a digit, and has at
    most 26 bytes when it is not there or the command names it twice. -/
theorem delete_records_fit_iff (mem : Nat → Garbage) (keys : List CStr) {w : World}
    (hI : TableInv w.table) :
    RecordsFit mem (.delete keys) w ↔ ∀ key ∈ keys, HasBucket key ∧ DeleteFits w.table keys key := by
  have hcommand : (∀ key ∈ keys, HasBucket key) → ∃ w' missing,
      processCommand mem (.delete keys) w = some w' ∧ w'.output = w.output ++ [.deleted missing] ∧
      ∀ key, key ∈ missing ↔ key ∈ keys ∧ w.table.node key = none ∨ 2 ≤ keys.count key := by
    intro hkeys
    obtain ⟨hsorted, hashed, hmark⟩ := markLoop_sorted hkeys
    obtain ⟨ht', results, hrun, hmissing⟩ := deleteLoop_missing hI hsorted
    refine ⟨{ w with table := ht', output := w.output ++ [.deleted (missingKeys results)] },
      missingKeys results, ?_, rfl, ?_⟩
    · simp only [processCommand, kvsDelete, hmark, hrun, Option.bind_eq_bind, Option.bind_some]
      rfl
    · intro key
      rw [hmissing key, mem_sorted_iff keys key, (sortRows_keys_perm keys).count_eq key]
  constructor
  · intro h key hkey
    have hkeys : ∀ key ∈ keys, HasBucket key := h.hasBucket
    obtain ⟨w', missing, hrun, houtput, hmissing⟩ := hcommand hkeys
    obtain ⟨w'', report, hrun', houtput', hfits⟩ := h
    obtain rfl := Option.some.inj (hrun.symm.trans hrun')
    obtain rfl := List.singleton_inj.mp (List.append_cancel_left (houtput.symm.trans houtput'))
    refine ⟨hkeys key hkey, ?_⟩
    intro hreported
    refine (fitsBuffer_missing_iff key).mp (hfits key ((hmissing key).mpr ?_))
    exact hreported.imp_left (fun hnone => ⟨hkey, hnone⟩)
  · intro h
    obtain ⟨w', missing, hrun, houtput, hmissing⟩ := hcommand (fun key hkey => (h key hkey).1)
    refine ⟨w', _, hrun, houtput, ?_⟩
    intro key hkey
    rw [fitsBuffer_missing_iff]
    rcases (hmissing key).mp hkey with ⟨hin, hnone⟩ | htwo
    · exact (h key hin).2 (Or.inl hnone)
    · exact (h key (List.count_pos_iff.mp (by omega))).2 (Or.inr htwo)

/-! ## The commands with the array -/

/-- `kvs_read` with the array does what it does without one, as long as every record fits. -/
theorem kvsReadAt_eq {keys : List CStr} (hkeys : ∀ key ∈ keys, HasBucket key) (w : World) :
    kvsReadAt keys w = if ∀ key ∈ keys, ReadFits w.table key then kvsRead keys w else none := by
  obtain ⟨hashed, hmark⟩ := markLoop_buckets hkeys
  have hread := readLoop_node w.table hkeys
  have hfits : (∀ r ∈ keys.map (fun key => (key, (w.table.node key).map KeyNode.value)),
      FitsBuffer (readRecord r.1 r.2)) ↔ ∀ key ∈ keys, ReadFits w.table key := by
    simp only [List.forall_mem_map, fitsBuffer_read_iff]
  simp only [kvsReadAt, kvsRead, hmark, hread, readLoopAt_eq hread, hfits, Option.bind_eq_bind,
    Option.bind_some]
  split_ifs <;> rfl

theorem kvsDeleteAt_eq {keys : List CStr} (hkeys : ∀ key ∈ keys, HasBucket key) {w : World}
    (hI : TableInv w.table) :
    kvsDeleteAt keys w
      = if ∀ key ∈ keys, DeleteFits w.table keys key then kvsDelete keys w else none := by
  obtain ⟨hashed, hmark⟩ := markLoop_buckets hkeys
  obtain ⟨ht', results, hrun, hmissing⟩ := deleteLoop_missing hI hkeys
  have hfits : (∀ key ∈ missingKeys results, FitsBuffer (missingRecord key)) ↔
      ∀ key ∈ keys, DeleteFits w.table keys key := by
    simp only [hmissing, fitsBuffer_missing_iff]
    constructor
    · intro h key hkey hreported
      exact h key (hreported.imp_left (fun hnone => ⟨hkey, hnone⟩))
    · rintro h key (⟨hkey, hnone⟩ | htwo)
      · exact h key hkey (Or.inl hnone)
      · exact h key (List.count_pos_iff.mp (by omega)) (Or.inr htwo)
  simp only [kvsDeleteAt, kvsDelete, hmark, hrun, deleteLoopAt_eq hrun, hfits, Option.bind_eq_bind,
    Option.bind_some]
  split_ifs <;> rfl

/-- What runs on the keys of a command: without a bucket for each of them it does not get to its records,
    and with one it is what it is without the array, as long as they fit. -/
theorem isSome_iff_fits {run plain : Option World} {keys : List CStr} {Fits : CStr → Prop}
    [DecidablePred Fits] (hmark : markLoop (fun _ => false) keys = none → run = none)
    (hrun : (∀ key ∈ keys, HasBucket key) → run = if ∀ key ∈ keys, Fits key then plain else none)
    (hplain : (∀ key ∈ keys, HasBucket key) → plain.isSome = true) :
    run.isSome = true ↔ ∀ key ∈ keys, HasBucket key ∧ Fits key := by
  by_cases hkeys : ∀ key ∈ keys, HasBucket key
  · have hfits : (∀ key ∈ keys, HasBucket key ∧ Fits key) ↔ ∀ key ∈ keys, Fits key :=
      ⟨fun h key hkey => (h key hkey).2, fun h key hkey => ⟨hkeys key hkey, h key hkey⟩⟩
    rw [hrun hkeys, hfits]
    split_ifs with h
    · exact iff_of_true (hplain hkeys) h
    · exact iff_of_false (by simp) h
  · have hnone : markLoop (fun _ => false) keys = none := by
      rw [← Option.not_isSome_iff_eq_none, markLoop_isSome_iff]
      exact hkeys
    rw [hmark hnone]
    exact iff_of_false (by simp) (fun h => hkeys (fun key hkey => (h key hkey).1))

theorem kvsReadAt_isSome_iff (keys : List CStr) (w : World) :
    (kvsReadAt keys w).isSome = true ↔ ∀ key ∈ keys, HasBucket key ∧ ReadFits w.table key := by
  apply isSome_iff_fits
  · intro hmark
    simp [kvsReadAt, hmark]
  · intro hkeys
    exact kvsReadAt_eq hkeys w
  · exact (kvsRead_isSome_iff keys w).mpr

theorem kvsDeleteAt_isSome_iff (keys : List CStr) {w : World} (hI : TableInv w.table) :
    (kvsDeleteAt keys w).isSome = true ↔
      ∀ key ∈ keys, HasBucket key ∧ DeleteFits w.table keys key := by
  apply isSome_iff_fits
  · intro hmark
    simp [kvsDeleteAt, hmark]
  · intro hkeys
    exact kvsDeleteAt_eq hkeys hI
  · exact (kvsDelete_isSome_iff keys w).mpr

/-- The records a command formats on this table fit the array. -/
def CommandFits (ht : HashTable) : JobCmd → Prop
  | .read keys => ∀ key ∈ keys, ReadFits ht key
  | .delete keys => ∀ key ∈ keys, DeleteFits ht keys key
  | _ => True

/-- **Command.** With the array it does what it does without one, as long as its records fit. -/
theorem processCommandAt_fits {mem : Nat → Garbage} {command : JobCmd} {w : World}
    (hkeys : ∀ key ∈ command.keys, HasBucket key) (hI : TableInv w.table)
    (hfits : CommandFits w.table command) :
    processCommandAt mem command w = processCommand mem command w := by
  cases command with
  | read keys =>
      have hmem := mem_sorted_iff keys
      rw [processCommandAt, kvsReadAt_eq (fun key hkey => hkeys key ((hmem key).mp hkey))]
      exact if_pos (fun key hkey => hfits key ((hmem key).mp hkey))
  | delete keys =>
      have hmem := mem_sorted_iff keys
      rw [processCommandAt, kvsDeleteAt_eq (fun key hkey => hkeys key ((hmem key).mp hkey)) hI]
      refine if_pos (fun key hkey hreported => hfits key ((hmem key).mp hkey) ?_)
      rwa [(sortRows_keys_perm keys).count_eq key] at hreported
  | _ => rfl

/-! ## Every store -/

/-- **The records fit their array**, for every store that calls of the functions of `kvs.c` lead to. -/
theorem records_fit_iff {w : World} (hreach : Reachable w.table) (mem : Nat → Garbage)
    (keys : List CStr) :
    (RecordsFit mem (.read keys) w ↔ ∀ key ∈ keys, HasBucket key ∧ ReadFits w.table key) ∧
      (RecordsFit mem (.delete keys) w ↔
        ∀ key ∈ keys, HasBucket key ∧ DeleteFits w.table keys key) :=
  ⟨read_records_fit_iff mem keys w, delete_records_fit_iff mem keys hreach.tableInv⟩

theorem reachable_tableWithA : Reachable tableWithA :=
  ⟨[.write keyA.str (CStr.ofBuffer (ascii "1")) (zeroMem 0)], rfl⟩

theorem records_fit_tableWithA :
    RecordsFit zeroMem (.read [keyA.str]) ⟨tableWithA, [], []⟩ ∧
      RecordsFit zeroMem (.delete [keyA.str]) ⟨tableWithA, [], []⟩ :=
  ⟨(@records_fit_iff ⟨tableWithA, [], []⟩ reachable_tableWithA zeroMem [keyA.str]).1.mpr
      (by decide +kernel),
    (@records_fit_iff ⟨tableWithA, [], []⟩ reachable_tableWithA zeroMem [keyA.str]).2.mpr
      (by decide +kernel)⟩

/-- The longest string that the parser takes, of one letter. -/
def longKey : CStr := CStr.ofBuffer (List.replicate 39 97)

/-- A `READ` of `longKey`. -/
def readLong : Stream := ascii "READ [" ++ longKey.bytes ++ ascii "]\n"

/-- A `WRITE` of `longKey` with itself as its value, and the `READ`. -/
def writeReadLong : Stream :=
  ascii "WRITE [(" ++ longKey.bytes ++ ascii "," ++ longKey.bytes ++ ascii ")]\n" ++ readLong

/-- **A record that does not fit.** The parser accepts both lines, and the record of the `READ` takes 82
    bytes with its NUL. -/
theorem record_overflows :
    jobRound [] writeReadLong = some (.write [(longKey, longKey)], readLong) ∧
      jobRound [] readLong = some (.read [longKey], []) ∧
      ∃ w, processCommand zeroMem (.write [(longKey, longKey)]) ⟨createHashTable, [], []⟩ = some w ∧
        ¬ RecordsFit zeroMem (.read [longKey]) w := by
  refine ⟨by decide +kernel, by decide +kernel, ?_⟩
  have hlong : (processCommand zeroMem (.write [(longKey, longKey)]) ⟨createHashTable, [], []⟩).any
      (fun w => ¬ ReadFits w.table longKey) = true := by decide +kernel
  obtain ⟨w, hw, hlong⟩ := (Option.any_eq_true _ _).mp hlong
  refine ⟨w, hw, ?_⟩
  rw [read_records_fit_iff]
  intro hfits
  exact of_decide_eq_true hlong (hfits longKey List.mem_cons_self).2

end Sequential

end Kvs.Server
