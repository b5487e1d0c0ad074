import Kvs.Lib.Stores
import Kvs.Server.Sequential

/-!
# `Server.RecordBuffer` — the commands with the array their records are formatted in

`kvs_read` and `kvs_delete` format each record with `sprintf` into an array of `MAX_STRING_SIZE` bytes,
and `sprintf` knows no bound. These are the functions of `Server.Sequential` once more, where a record that
leaves the array with its NUL ends the run (`none`). As long as all records fit, nothing else changes
(`readLoopAt_eq`, `deleteLoopAt_eq`).

## Contents
- **The array.** `sprintf`, `FitsBuffer`, `formatted`.
- **Commands.** `kvsReadAt`, `kvsDeleteAt`, `processCommandAt`, `processCommandsAt`.
-/

namespace Kvs.Server

open Stores

/-- `sprintf(buffer, ...)` of this text: the array after it, or `none` where the text or its NUL is stored
    behind the end. -/
def sprintf (buffer text : List Byte) : Option (List Byte) := storeAll buffer 0 (text ++ [0])

namespace Sequential

/-! ## The array -/

/-- The record and its NUL fit the array. -/
def FitsBuffer (record : List Byte) : Prop := record.length + 1 ≤ MAX_STRING_SIZE

instance (record : List Byte) : Decidable (FitsBuffer record) := inferInstanceAs (Decidable (_ ≤ _))

theorem sprintf_fits {buffer text : List Byte} (hbuffer : buffer.length = MAX_STRING_SIZE)
    (h : FitsBuffer text) :
    ∃ buffer', sprintf buffer text = some buffer' ∧ buffer'.length = MAX_STRING_SIZE := by
  have hroom : (text ++ [0]).length ≤ buffer.length := by
    rw [List.length_append, List.length_singleton, hbuffer]
    exact h
  refine ⟨_, storeAll_fits hroom, ?_⟩
  rw [List.length_append, List.length_drop]
  omega

theorem sprintf_overflows {buffer text : List Byte} (hbuffer : buffer.length = MAX_STRING_SIZE)
    (h : ¬ FitsBuffer text) : sprintf buffer text = none := by
  apply storeAll_overflows (Nat.zero_le _)
  rw [List.length_append, List.length_singleton, hbuffer, Nat.zero_add]
  exact Nat.lt_of_not_le h

/-- The text that `sprintf` leaves in the array, whatever the array held before (`sprintf_fits`,
    `sprintf_overflows`). -/
def formatted (text : List Byte) : Option (List Byte) := if FitsBuffer text then some text else none

theorem fitsBuffer_value_iff (key value : CStr) :
    FitsBuffer (readRecord key (some value)) ↔ key.bytes.length + value.bytes.length ≤ 36 := by
  simp only [FitsBuffer, readRecord, List.length_append, ascii, List.length_map]
  show 1 + key.bytes.length + 1 + value.bytes.length + 1 + 1 ≤ 40 ↔ _
  omega

theorem fitsBuffer_error_iff (key : CStr) :
    FitsBuffer (readRecord key none) ↔ key.bytes.length ≤ 28 := by
  simp only [FitsBuffer, readRecord, List.length_append, ascii, List.length_map]
  show 1 + key.bytes.length + 1 + 8 + 1 + 1 ≤ 40 ↔ _
  omega

theorem fitsBuffer_missing_iff (key : CStr) :
    FitsBuffer (missingRecord key) ↔ key.bytes.length ≤ 26 := by
  simp only [FitsBuffer, missingRecord, List.length_append, ascii, List.length_map]
  show 1 + key.bytes.length + 12 + 1 ≤ 40 ↔ _
  omega

/-! ## Commands -/

/-- The loop of `kvs_read` over the keys: `read_pair`, and the record of what it found. -/
def readLoopAt (ht : HashTable) : List CStr → Option (List (CStr × Option CStr))
  | [] => some []
  | key :: keys => do
      let value ← readPair ht key
      let _ ← formatted (readRecord key value)
      let results ← readLoopAt ht keys
      return (key, value) :: results

/-- The record of a key for which `delete_pair` has returned `ret`, if it is not 0. -/
def formattedMissing (key : CStr) (ret : Int) : Option (List Byte) :=
  if ret ≠ 0 then formatted (missingRecord key) else some []

/-- The loop of `kvs_delete` over the keys: `delete_pair`, and a record where it does not return 0. -/
def deleteLoopAt : List CStr → HashTable → Option (HashTable × List (CStr × Int))
  | [], ht => some (ht, [])
  | key :: keys, ht => do
      let (ht', ret) ← deletePair ht key
      let _ ← formattedMissing key ret
      let (ht'', results) ← deleteLoopAt keys ht'
      return (ht'', (key, ret) :: results)

def kvsReadAt (keys : List CStr) (w : World) : Option World := do
  let _ ← markLoop (fun _ => false) keys
  let results ← readLoopAt w.table keys
  return { w with output := w.output ++ [.read results] }

def kvsDeleteAt (keys : List CStr) (w : World) : Option World := do
  let _ ← markLoop (fun _ => false) keys
  let (table, results) ← deleteLoopAt keys w.table
  return { w with table := table, output := w.output ++ [.deleted (missingKeys results)] }

/-- A round of `process_job_file`; only a `READ` and a `DELETE` format records. -/
def processCommandAt (mem : Nat → Garbage) : JobCmd → World → Option World
  | .read keys, w => kvsReadAt ((sortRows strcmp (keys.map (fun k => (k, ())))).map Prod.fst) w
  | .delete keys, w => kvsDeleteAt ((sortRows strcmp (keys.map (fun k => (k, ())))).map Prod.fst) w
  | command, w => processCommand mem command w

/-- The rounds in a row. -/
def processCommandsAt (mem : Nat → Nat → Garbage) : List JobCmd → World → Option World
  | [], w => some w
  | command :: commands, w => do
      let w' ← processCommandAt (mem 0) command w
      processCommandsAt (fun i => mem (i + 1)) commands w'

/-! ## Records that fit change nothing -/

theorem readLoopAt_eq {ht : HashTable} {keys : List CStr} {results : List (CStr × Option CStr)}
    (h : readLoop ht keys = some results) :
    readLoopAt ht keys
      = if ∀ r ∈ results, FitsBuffer (readRecord r.1 r.2) then some results else none := by
  induction keys generalizing results with
  | nil =>
      obtain rfl := Option.some.inj h
      rw [if_pos (fun r hr => absurd hr List.not_mem_nil)]
      rfl
  | cons key keys ih =>
      simp only [readLoop, Option.bind_eq_bind, Option.bind_eq_some_iff] at h
      obtain ⟨value, hvalue, rest, hrest, hresults⟩ := h
      obtain rfl := Option.some.inj hresults
      simp only [readLoopAt, Option.bind_eq_bind, hvalue, Option.bind_some, ih hrest, formatted,
        List.forall_mem_cons]
      by_cases hfits : FitsBuffer (readRecord key value)
      · rw [if_pos hfits, Option.bind_some]
        by_cases hall : ∀ r ∈ rest, FitsBuffer (readRecord r.1 r.2)
        · rw [if_pos hall, if_pos ⟨hfits, hall⟩]
          rfl
        · rw [if_neg hall, if_neg (fun h => hall (And.right h))]
          rfl
      · rw [if_neg hfits, if_neg (fun h => hfits (And.left h))]
        rfl

theorem missingKeys_found {ret : Int} (h : ret = 0) (key : CStr) (results : List (CStr × Int)) :
    missingKeys ((key, ret) :: results) = missingKeys results := by
  simp [missingKeys, h]

theorem missingKeys_missing {ret : Int} (h : ret ≠ 0) (key : CStr) (results : List (CStr × Int)) :
    missingKeys ((key, ret) :: results) = key :: missingKeys results := by
  simp [missingKeys, h]

theorem deleteLoopAt_eq {keys : List CStr} {ht ht' : HashTable} {results : List (CStr × Int)}
    (h : deleteLoop keys ht = some (ht', results)) :
    deleteLoopAt keys ht
      = if ∀ key ∈ missingKeys results, FitsBuffer (missingRecord key) then some (ht', results)
        else none := by
  induction keys generalizing ht ht' results with
  | nil =>
      obtain ⟨rfl, rfl⟩ := Prod.mk.inj (Option.some.inj h)
      rw [if_pos (fun key hkey => absurd hkey (by simp [missingKeys]))]
      rfl
  | cons key keys ih =>
      simp only [deleteLoop, Option.bind_eq_bind, Option.bind_eq_some_iff] at h
      obtain ⟨⟨ht₁, ret⟩, hret, ⟨ht₂, rest⟩, hrest, hresults⟩ := h
      obtain ⟨rfl, rfl⟩ := Prod.mk.inj (Option.some.inj hresults)
      simp only [deleteLoopAt, Option.bind_eq_bind, hret, Option.bind_some, ih hrest, formattedMissing,
        formatted]
      by_cases hzero : ret = 0
      · -- the key was there, and nothing is formatted
        rw [if_neg (not_not.mpr hzero), Option.bind_some, missingKeys_found hzero]
        split_ifs <;> rfl
      · rw [if_pos hzero, missingKeys_missing hzero]
        simp only [List.forall_mem_cons]
        by_cases hfits : FitsBuffer (missingRecord key)
        · rw [if_pos hfits, Option.bind_some]
          by_cases hall : ∀ key ∈ missingKeys rest, FitsBuffer (missingRecord key)
          · rw [if_pos hall, if_pos ⟨hfits, hall⟩]
            rfl
          · rw [if_neg hall, if_neg (fun h => hall (And.right h))]
            rfl
        · rw [if_neg hfits, if_neg (fun h => hfits (And.left h))]
          rfl

end Sequential

end Kvs.Server
