import Kvs.Server.Sequential

/-!
# `Server.Arrays` — the arrays `keys` and `values` that all commands of a job share

`process_job_file` declares the two arrays once. Each command of the job has the parser overwrite rows from
the first on, also when the list turns out to be malformed later, sorts the rows of both arrays that the
parser counted, and hands these rows to an operation. A row is seen as the string it holds: what lies
behind its NUL is read by nobody.
-/

namespace Kvs.Server

/-- `char keys[MAX_WRITE_SIZE][MAX_STRING_SIZE]` and `values`. -/
structure Rows where
  keys : Nat → CStr
  values : Nat → CStr

/-- `strcpy(keys[num], key); strcpy(values[num], value);` -/
def Rows.storePair (a : Rows) (num : Nat) (pair : CStr × CStr) : Rows :=
  ⟨Function.update a.keys num pair.1, Function.update a.values num pair.2⟩

/-- `strcpy(keys[num], key);` -/
def Rows.storeKey (a : Rows) (num : Nat) (key : CStr) : Rows :=
  { a with keys := Function.update a.keys num key }

/-- `insertionSort(keys, values, num);` -/
def Rows.sort (a : Rows) (num : Nat) : Rows :=
  ⟨(insertionSort strcmp a.keys a.values num).1, (insertionSort strcmp a.keys a.values num).2⟩

/-- The first `num` rows of both arrays. -/
def Rows.pairs (a : Rows) (num : Nat) : List (CStr × CStr) := rows (a.keys, a.values) num

/-- The first `num` rows of `keys`. -/
def Rows.firstKeys (a : Rows) (num : Nat) : List CStr := (List.range num).map a.keys

/-- What a parser returns, the arrays it leaves, and what is left to read. -/
structure ParsedInto where
  num : Nat
  rows : Rows
  rest : Stream

/-- What follows the loops, with `num` rows stored. -/
def closeInto (max num : Nat) (a : Rows) (s : Stream) : ParsedInto :=
  if num = max then ⟨0, a, cleanup s⟩
  else
    let (ok, s) := readTest (fun ch => ch = NL || ch = 0) s
    if ok then ⟨num, a, s⟩ else ⟨0, a, cleanup s⟩

/-- The loop of `parse_write`, with `max_pairs - num_pairs` and `num_pairs`. -/
def pairsLoopInto (maxPairs : Nat) : Nat → Nat → Rows → Stream → ParsedInto
  | 0, num, a, s => closeInto maxPairs num a s
  | room + 1, num, a, s =>
      match parsePair s with
      | (none, s) => ⟨0, a, cleanup s⟩
      | (some pair, s) =>
          match s with
          | [] => ⟨0, a.storePair num pair, []⟩
          | ch :: s =>
              if ch = LPAREN then pairsLoopInto maxPairs room (num + 1) (a.storePair num pair) s
              else if ch = RBRACK then closeInto maxPairs (num + 1) (a.storePair num pair) s
              else ⟨0, a.storePair num pair, cleanup s⟩

def parseWriteInto (maxPairs : Nat) (a : Rows) (s : Stream) : ParsedInto :=
  let (ok, s) := readTest (· = LBRACK) s
  if !ok then ⟨0, a, cleanup s⟩
  else
    let (ok, s) := readTest (· = LPAREN) s
    if !ok then ⟨0, a, cleanup s⟩
    else pairsLoopInto maxPairs maxPairs 0 a s

/-- The loop of `parse_read_delete`, with `max_keys - num_keys` and `num_keys`. -/
def keysLoopInto (maxKeys maxStringSize : Nat) : Nat → Nat → Rows → Stream → ParsedInto
  | 0, num, a, s => closeInto maxKeys num a s
  | room + 1, num, a, s =>
      let output := readString maxStringSize s
      if output.value < 0 ∨ output.value = 1 then ⟨0, a, cleanup output.rest⟩
      else if output.value = 2 then
        closeInto maxKeys (num + 1) (a.storeKey num (CStr.ofBuffer output.buffer)) output.rest
      else
        keysLoopInto maxKeys maxStringSize room (num + 1)
          (a.storeKey num (CStr.ofBuffer output.buffer)) output.rest

def parseReadDeleteInto (maxKeys maxStringSize : Nat) (a : Rows) (s : Stream) : ParsedInto :=
  let (ok, s) := readTest (· = LBRACK) s
  if !ok then ⟨0, a, cleanup s⟩
  else keysLoopInto maxKeys maxStringSize maxKeys 0 a s

/-- What a round leaves: the table and the output, unless a subscript was out of range, the arrays, and
    the text still to be read. -/
structure Round where
  world : Option Sequential.World
  rows : Rows
  rest : Stream

/-- `if (num_pairs == 0) continue;`, the sort, and the operation on the rows that were counted. -/
def runRows (operation : Rows → Nat → Sequential.World → Option Sequential.World) (p : ParsedInto)
    (w : Sequential.World) : Round :=
  if p.num = 0 then ⟨some w, p.rows, p.rest⟩
  else ⟨operation (p.rows.sort p.num) p.num w, p.rows.sort p.num, p.rest⟩

/-- A round of the loop of `process_job_file`, or `none` at the end of the file. `stack` is what a
    `read_uint` finds in its buffer, `mem` what the nodes it allocates hold. -/
def roundInto (stack : List Byte) (mem : Nat → Garbage) (a : Rows) (w : Sequential.World)
    (s : Stream) : Option Round :=
  match getNext s with
  | (.cmdWrite, s) =>
      some (runRows (fun a num => Sequential.kvsWrite (a.pairs num) mem)
        (parseWriteInto MAX_WRITE_SIZE a s) w)
  | (.cmdRead, s) =>
      some (runRows (fun a num => Sequential.kvsRead (a.firstKeys num))
        (parseReadDeleteInto MAX_WRITE_SIZE MAX_STRING_SIZE a s) w)
  | (.cmdDelete, s) =>
      some (runRows (fun a num => Sequential.kvsDelete (a.firstKeys num))
        (parseReadDeleteInto MAX_WRITE_SIZE MAX_STRING_SIZE a s) w)
  | (.cmdShow, s) => some ⟨some { w with output := w.output ++ [.shown w.table.table] }, a, s⟩
  | (.cmdWait, s) => some ⟨some w, a, (parseWait false stack [] s).rest⟩
  | (.cmdBackup, s) => some ⟨some w, a, s⟩
  | (.cmdInvalid, s) => some ⟨some w, a, s⟩
  | (.cmdHelp, s) => some ⟨some w, a, s⟩
  | (.cmdEmpty, s) => some ⟨some w, a, s⟩
  | (.eoc, _) => none

end Kvs.Server
