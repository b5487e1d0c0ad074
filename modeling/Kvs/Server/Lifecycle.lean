import Kvs.Server.RecordBuffer

/-!
# `Server.Lifecycle` — `kvs_init`, `kvs_terminate` and the calls between them

The pointer `kvs_table` and the tables it may point to. A table that was freed, or never allocated, is
`none`; an access to it, or a second `free`, ends the run (`none`). The operations are those of
`Server.Sequential`, `Server.RecordBuffer` and `Server.Subscribers` behind the test `kvs_table == NULL` each
of them starts with. The allocation of a table succeeds.
-/

namespace Kvs.Server

/-- The static variable of `operations.c` and the heap. -/
structure Store where
  kvsTable : Option Nat
  tables : Nat → Option HashTable
  /-- How many tables have been allocated: the next one is new. -/
  allocated : Nat

/-- Before the first call: `kvs_table = NULL`. -/
def Store.initial : Store := ⟨none, fun _ => none, 0⟩

/-- A call returns an `int`, and may write to its `output_fd`. -/
abbrev Reply := Int × List Sequential.Report

/-- `*kvs_table`, if it can be accessed. -/
def Store.deref (s : Store) : Option HashTable := s.kvsTable.bind s.tables

def Store.setTable (s : Store) (p : Nat) (table : Option HashTable) : Store :=
  { s with tables := Function.update s.tables p table }

@[simp] theorem Store.setTable_tables (s : Store) (p : Nat) (table : Option HashTable) :
    (s.setTable p table).tables p = table := by simp [Store.setTable]

def kvsInit (s : Store) : Option (Store × Reply) :=
  match s.kvsTable with
  | some _ => some (s, 1, [])
  | none =>
      some ({ (s.setTable s.allocated (some createHashTable)) with
        kvsTable := some s.allocated, allocated := s.allocated + 1 }, 0, [])

/-- `kvs_table` keeps its value when the table is freed. -/
def kvsTerminate (s : Store) : Option (Store × Reply) :=
  match s.kvsTable with
  | none => some (s, 1, [])
  | some p =>
      match s.tables p with
      | none => none
      | some _ => some (s.setTable p none, 0, [])

/-- What the operations share: the test of `kvs_table`, then the work on the table. -/
def guarded (operation : HashTable → Option (HashTable × Reply)) (s : Store) :
    Option (Store × Reply) :=
  match s.kvsTable with
  | none => some (s, 1, [])
  | some p =>
      match s.tables p with
      | none => none
      | some ht => (operation ht).map (fun r => (s.setTable p (some r.1), r.2))

/-- A function of `Server.Sequential` on the table alone; it returns 0. -/
def onWorld (f : Sequential.World → Option Sequential.World) (ht : HashTable) : Option (HashTable × Reply) :=
  (f ⟨ht, [], []⟩).map (fun w => (w.table, 0, w.output))

/-- A function that returns an `int` and writes nothing. -/
def quietly (f : HashTable → Option (HashTable × Int)) (ht : HashTable) :
    Option (HashTable × Reply) :=
  (f ht).map (fun r => (r.1, r.2, []))

/-- A call of one of the operations, with its arguments. -/
inductive KvsOp where
  | write (pairs : List (CStr × CStr)) (mem : Nat → Garbage)
  | read (keys : List CStr)
  | delete (keys : List CStr)
  | subscribe (key : CStr) (fd : Int)
  | unsubscribe (key : CStr) (fd : Int)

/-- What the operation does behind its test; `none` is a subscript or a store outside of an array. -/
def KvsOp.onTable : KvsOp → HashTable → Option (HashTable × Reply)
  | .write pairs mem => onWorld (Sequential.kvsWrite pairs mem)
  | .read keys => onWorld (Sequential.kvsReadAt keys)
  | .delete keys => onWorld (Sequential.kvsDeleteAt keys)
  | .subscribe key fd => quietly (fun ht => kvsSubscribe ht key fd)
  | .unsubscribe key fd => quietly (fun ht => kvsUnsubscribe ht key fd)

/-- A call of one of the functions of `operations.c`. -/
inductive KvsCall where
  | init
  | terminate
  | op (o : KvsOp)

def stepStore (s : Store) : KvsCall → Option (Store × Reply)
  | .init => kvsInit s
  | .terminate => kvsTerminate s
  | .op o => guarded o.onTable s

end Kvs.Server
