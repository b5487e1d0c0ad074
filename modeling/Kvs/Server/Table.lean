import Kvs.Base.Bytes
import Kvs.Lib.Assoc

/-!
# `Server.Table` — the hash table of `kvs.c`

`HashTable` is an array of `TABLE_SIZE` buckets, each a linked list of `KeyNode`s with the most recently
created node first. `hash` looks at the first character of a key only, folds case, and sends the digits
onto the buckets of `a` to `j`; any other first character gives `-1`, which no function checks, so a pair
operation on such a key subscripts the array out of bounds: `none` here.

A `Key` is a string whose first character is a letter or a digit. On keys every operation is defined.
-/

namespace Kvs.Server

abbrev TABLE_SIZE : Nat := 26

/-! ## Data -/

/-- A node of a bucket; `next` is the list structure of the bucket. -/
structure KeyNode where
  key : CStr
  value : CStr
  subscriberFds : Vector Int MAX_SESSION_COUNT
  deriving DecidableEq

/-- `keyNode->value = value` -/
def KeyNode.setValue (value : CStr) (keyNode : KeyNode) : KeyNode := { keyNode with value := value }

theorem KeyNode.key_setValue (value : CStr) (keyNode : KeyNode) :
    (keyNode.setValue value).key = keyNode.key := rfl

structure HashTable where
  table : Fin TABLE_SIZE → List KeyNode

@[ext] theorem HashTable.ext {ht ht' : HashTable} (h : ht.table = ht'.table) : ht = ht' := by
  cases ht; cases ht'; simp_all

/-- `ht->table[i] = bucket` -/
def HashTable.set (ht : HashTable) (i : Fin TABLE_SIZE) (bucket : List KeyNode) : HashTable :=
  ⟨Function.update ht.table i bucket⟩

@[simp] theorem HashTable.set_self (ht : HashTable) (i : Fin TABLE_SIZE) (bucket : List KeyNode) :
    (ht.set i bucket).table i = bucket := by simp [HashTable.set]

theorem HashTable.set_ne (ht : HashTable) {i j : Fin TABLE_SIZE} (h : j ≠ i)
    (bucket : List KeyNode) : (ht.set i bucket).table j = ht.table j := by
  simp [HashTable.set, h]

/-- The contents of freshly allocated memory, as the `subscriber_fds` of a new node find it. -/
abbrev Garbage := Vector Int MAX_SESSION_COUNT

/-! ## `hash` -/

/-- A `char` as the `int` it is promoted to, `char` being signed. -/
def charInt (b : Byte) : Int := if b.toNat < 128 then b.toNat else (b.toNat : Int) - 256

/-- `tolower` in the C locale. -/
def tolower (c : Int) : Int := if 65 ≤ c ∧ c ≤ 90 then c + 32 else c

def hash (key : CStr) : Int :=
  let firstLetter := tolower (charInt (key.bytes.headD 0))
  if 97 ≤ firstLetter ∧ firstLetter ≤ 122 then firstLetter - 97
  else if 48 ≤ firstLetter ∧ firstLetter ≤ 57 then firstLetter - 48
  else -1

/-- The subscript `table[index]`: `none` outside the array. -/
def subscript (index : Int) : Option (Fin TABLE_SIZE) :=
  if h : 0 ≤ index ∧ index < TABLE_SIZE then some ⟨index.toNat, by omega⟩ else none

/-! ## Searching a bucket -/

/-- The search loop of the pair operations: the first node whose key compares equal. -/
def searchNode (key : CStr) : List KeyNode → Option KeyNode
  | [] => none
  | keyNode :: next => if strcmp keyNode.key key = 0 then some keyNode else searchNode key next

/-- The loop of `writePair` on a key that is present: the value is replaced where the node stands. -/
def overwriteNode (key value : CStr) : List KeyNode → List KeyNode
  | [] => []
  | keyNode :: next =>
      if strcmp keyNode.key key = 0 then keyNode.setValue value :: next
      else keyNode :: overwriteNode key value next

/-- The loop of `deletePair` on a key that is present: its predecessor (or the bucket head) takes over
    its `next`. -/
def unlinkNode (key : CStr) : List KeyNode → List KeyNode
  | [] => []
  | keyNode :: next =>
      if strcmp keyNode.key key = 0 then next else keyNode :: unlinkNode key next

theorem searchNode_eq (key : CStr) (bucket : List KeyNode) :
    searchNode key bucket = Assoc.find KeyNode.key key bucket := by
  induction bucket with
  | nil => rfl
  | cons n l ih => simp only [searchNode, Assoc.find, strcmp_eq_zero, ih]

theorem overwriteNode_eq (key value : CStr) (bucket : List KeyNode) :
    overwriteNode key value bucket
      = Assoc.overwrite KeyNode.key key (KeyNode.setValue value) bucket := by
  induction bucket with
  | nil => rfl
  | cons n l ih => simp only [overwriteNode, Assoc.overwrite, strcmp_eq_zero, ih]

theorem unlinkNode_eq (key : CStr) (bucket : List KeyNode) :
    unlinkNode key bucket = Assoc.unlink KeyNode.key key bucket := by
  induction bucket with
  | nil => rfl
  | cons n l ih => simp only [unlinkNode, Assoc.unlink, strcmp_eq_zero, ih]

/-! ## The pair operations -/

/-- `create_hash_table`, the allocation succeeding. -/
def createHashTable : HashTable := ⟨fun _ => []⟩

/-- `write_pair` once the bucket is known: overwrite, or put a new node in front. `mem` is what the
    allocated node holds before the fields are set; `subscriber_fds` is never set. -/
def writeBucket (key value : CStr) (mem : Garbage) (bucket : List KeyNode) : List KeyNode :=
  match searchNode key bucket with
  | some _ => overwriteNode key value bucket
  | none => ⟨key, value, mem⟩ :: bucket

/-- `delete_pair` once the bucket is known: the bucket left and the value returned. -/
def deleteBucket (key : CStr) (bucket : List KeyNode) : List KeyNode × Int :=
  match searchNode key bucket with
  | some _ => (unlinkNode key bucket, 0)
  | none => (bucket, 1)

def writePair (ht : HashTable) (key value : CStr) (mem : Garbage) : Option (HashTable × Int) := do
  let index ← subscript (hash key)
  return (ht.set index (writeBucket key value mem (ht.table index)), 0)

/-- `read_pair`: a copy of the value, or `NULL` (`none` inside). -/
def readPair (ht : HashTable) (key : CStr) : Option (Option CStr) := do
  let index ← subscript (hash key)
  return (searchNode key (ht.table index)).map KeyNode.value

def deletePair (ht : HashTable) (key : CStr) : Option (HashTable × Int) := do
  let index ← subscript (hash key)
  let (bucket, ret) := deleteBucket key (ht.table index)
  return (ht.set index bucket, ret)

/-! ## Keys -/

/-- An ASCII letter or digit. -/
def isAlnum (b : Byte) : Bool :=
  (48 ≤ b && b ≤ 57) || (65 ≤ b && b ≤ 90) || (97 ≤ b && b ≤ 122)

theorem subscript_isSome_iff (index : Int) :
    (subscript index).isSome = true ↔ 0 ≤ index ∧ index < 26 := by
  unfold subscript
  split
  · rename_i h
    exact iff_of_true rfl h
  · rename_i h
    exact iff_of_false (by simp) h

/-- `hash` is in range exactly on a first letter or digit. -/
theorem subscript_hash_isSome_iff (s : CStr) :
    (subscript (hash s)).isSome = true ↔ isAlnum (s.bytes.headD 0) = true := by
  have hlt := (s.bytes.headD 0).toNat_lt
  rw [subscript_isSome_iff]
  simp only [isAlnum, UInt8.le_iff_toNat_le, Bool.or_eq_true, Bool.and_eq_true, decide_eq_true_eq,
    UInt8.reduceToNat]
  unfold hash charInt tolower
  generalize (s.bytes.headD 0).toNat = n at hlt ⊢
  simp only
  split_ifs <;> omega

/-- A string that starts with a letter or a digit: what the pair operations are defined on. -/
@[ext] structure Key where
  str : CStr
  initial : isAlnum (str.bytes.headD 0) = true
  deriving DecidableEq

/-- The key of a literal. -/
def Key.lit (s : String) (noNul : (0 : Byte) ∉ ascii s)
    (initial : isAlnum ((ascii s).headD 0) = true) : Key := ⟨⟨ascii s, noNul⟩, initial⟩

instance : Inhabited Key := ⟨⟨⟨[48], by decide⟩, by decide⟩⟩

/-- The bucket of a key: the subscript that `hash` gives. -/
def Key.bucket (k : Key) : Fin TABLE_SIZE :=
  (subscript (hash k.str)).get ((subscript_hash_isSome_iff k.str).mpr k.initial)

@[simp] theorem subscript_hash (k : Key) : subscript (hash k.str) = some k.bucket := by
  simp [Key.bucket]

@[simp] theorem writePair_key (ht : HashTable) (k : Key) (value : CStr) (mem : Garbage) :
    writePair ht k.str value mem
      = some (ht.set k.bucket (writeBucket k.str value mem (ht.table k.bucket)), 0) := by
  simp [writePair]

@[simp] theorem readPair_key (ht : HashTable) (k : Key) :
    readPair ht k.str = some ((searchNode k.str (ht.table k.bucket)).map KeyNode.value) := by
  simp [readPair]

@[simp] theorem deletePair_key (ht : HashTable) (k : Key) :
    deletePair ht k.str
      = some (ht.set k.bucket (deleteBucket k.str (ht.table k.bucket)).1,
          (deleteBucket k.str (ht.table k.bucket)).2) := by
  simp [deletePair]

/-! ## Calls of the pair operations -/

/-- A call of one of the pair operations; a write carries what its allocation would find in memory. -/
inductive PairOp where
  | write (k : Key) (value : CStr) (mem : Garbage)
  | read (k : Key)
  | delete (k : Key)
  deriving DecidableEq

/-- What a call returns. -/
inductive PairResult where
  | wrote (ret : Int)
  | read (value : Option CStr)
  | deleted (ret : Int)
  deriving DecidableEq

/-- The call on the table; `none` would be an access outside the array. -/
def PairOp.exec (ht : HashTable) : PairOp → Option (HashTable × PairResult)
  | .write k value mem => (writePair ht k.str value mem).map (fun r => (r.1, .wrote r.2))
  | .read k => (readPair ht k.str).map (fun v => (ht, .read v))
  | .delete k => (deletePair ht k.str).map (fun r => (r.1, .deleted r.2))

/-- The key a call is about. -/
def PairOp.key : PairOp → Key
  | .write k _ _ => k
  | .read k => k
  | .delete k => k

/-- What a call does to the bucket of its key, and what it returns. -/
def PairOp.onBucket (bucket : List KeyNode) : PairOp → List KeyNode × PairResult
  | .write k value mem => (writeBucket k.str value mem bucket, .wrote 0)
  | .read k => (bucket, .read ((searchNode k.str bucket).map KeyNode.value))
  | .delete k => ((deleteBucket k.str bucket).1, .deleted (deleteBucket k.str bucket).2)

/-- The call, where every access is inside the array. -/
def PairOp.apply (op : PairOp) (ht : HashTable) : HashTable × PairResult :=
  let r := op.onBucket (ht.table op.key.bucket)
  (ht.set op.key.bucket r.1, r.2)

/-- **No call leaves the array**, and each works on one bucket. -/
theorem PairOp.exec_eq (op : PairOp) (ht : HashTable) : op.exec ht = some (op.apply ht) := by
  cases op with
  | write k value mem => simp [PairOp.exec, PairOp.apply, PairOp.onBucket, PairOp.key]
  | read k =>
      have hsame : ht.set k.bucket (ht.table k.bucket) = ht := HashTable.ext (by simp [HashTable.set])
      simp [PairOp.exec, PairOp.apply, PairOp.onBucket, PairOp.key, hsame]
  | delete k => simp [PairOp.exec, PairOp.apply, PairOp.onBucket, PairOp.key]

end Kvs.Server
