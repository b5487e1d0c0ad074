import Kvs.Server.Parser

/-!
# `Client.Parser` — reading a list of keys from the standard input

The client has its own copy of the parser. `parseList` returns what the server's parsers return: a number,
the rows it has stored and what is left of the input.
-/

namespace Kvs.Client

open Server (Parsed ReadString readTest)

/-- Jumps to the next line. -/
def cleanup : Stream → Stream
  | [] => []
  | ch :: s => if ch = NL then s else cleanup s

/-- `read_string`, with `max - i` as the argument. -/
def readString : Nat → Stream → ReadString
  | 0, s => ⟨-1, [0], s⟩
  | _ + 1, [] => ⟨-1, [], []⟩
  | max + 1, ch :: s =>
      if ch = SP then ⟨-1, [], s⟩
      else if ch = COMMA then ⟨0, [0], s⟩
      else if ch = RPAREN then ⟨1, [0], s⟩
      else if ch = RBRACK then ⟨2, [0], s⟩
      else
        let r := readString max s
        { r with buffer := ch :: r.buffer }

/-- `cleanup(fd); return 0;` -/
def rejected (stored : List CStr) (s : Stream) : Parsed CStr := ⟨0, stored, cleanup s⟩

/-- What follows the loop of `parse_list`. A full array is an error only when the last key did not end
    with the closing bracket. -/
def closeList (maxKeys : Nat) (output : Int) (stored : List CStr) (s : Stream) : Parsed CStr :=
  if stored.length = maxKeys ∧ output ≠ 2 then rejected stored s
  else
    let (ok, s) := readTest (fun ch => ch = NL || ch = 0) s
    if ok then ⟨stored.length, stored, s⟩ else rejected stored s

/-- The loop of `parse_list`, with `max_keys - num_keys` as the third argument and `output` as the
    fourth. -/
def listLoop (maxKeys maxStringSize : Nat) : Nat → Int → List CStr → Stream → Parsed CStr
  | 0, output, stored, s => closeList maxKeys output stored s
  | room + 1, _, stored, s =>
      let output := readString maxStringSize s
      if output.value < 0 ∨ output.value = 1 then rejected stored output.rest
      else if output.value = 2 then
        closeList maxKeys output.value (stored ++ [CStr.ofBuffer output.buffer]) output.rest
      else
        listLoop maxKeys maxStringSize room output.value (stored ++ [CStr.ofBuffer output.buffer])
          output.rest

def parseList (maxKeys maxStringSize : Nat) (s : Stream) : Parsed CStr :=
  let (ok, s) := readTest (· = LBRACK) s
  if !ok then rejected [] s
  else listLoop maxKeys maxStringSize maxKeys 2 [] s

/-! ## The copies agree -/

theorem cleanup_eq (s : Stream) : cleanup s = Server.cleanup s := by
  induction s with
  | nil => rfl
  | cons ch s ih =>
      unfold cleanup Server.cleanup
      rw [ih]

theorem readString_eq (max : Nat) (s : Stream) : readString max s = Server.readString max s := by
  induction max generalizing s with
  | zero => rfl
  | succ max ih =>
      cases s with
      | nil => rfl
      | cons ch s =>
          unfold readString Server.readString
          rw [ih]

theorem rejected_eq (stored : List CStr) (s : Stream) :
    rejected stored s = Server.rejected stored s := by
  unfold rejected Server.rejected
  rw [cleanup_eq]

end Kvs.Client
