import Kvs.Client.Commands
import Kvs.Server.ParserStores

/-!
# `Client.ParserStores` — the client's parser with the arrays it stores into

As in `Server.ParserStores`, `none` stands for a store or a load outside of an array. The client's copies
of `read_string` and `read_uint` do what the server's do (`readStringAt_copy`, `readUintAt_copy`).
-/

namespace Kvs.Client

open Stores
open Server (MAX_STRING_SIZE UINT_MAX Parsed ReadString ReadUint readTest strtoulAt)

/-- `buffer[i] = '\0'; return value;` -/
def terminate (i : Nat) (buffer : List Byte) (value : Int) (s : Stream) : Option ReadString :=
  (store buffer i 0).map (fun buffer => ⟨value, buffer, s⟩)

/-- The loop of `read_string` and the store behind it. -/
def readStringFrom (max : Nat) : Nat → List Byte → Stream → Option ReadString
  | i, buffer, [] => if i < max then some ⟨-1, buffer, []⟩ else terminate i buffer (-1) []
  | i, buffer, ch :: s =>
      if i < max then
        if ch = SP then some ⟨-1, buffer, s⟩
        else if ch = COMMA then terminate i buffer 0 s
        else if ch = RPAREN then terminate i buffer 1 s
        else if ch = RBRACK then terminate i buffer 2 s
        else (store buffer i ch).bind (fun buffer => readStringFrom max (i + 1) buffer s)
      else terminate i buffer (-1) (ch :: s)

def readStringAt (max : Nat) (buffer : List Byte) (s : Stream) : Option ReadString :=
  readStringFrom max 0 buffer s

/-- The loop of `read_uint`. -/
def readDigitsFrom : Nat → List Byte → Stream → Option (List Byte × Byte × Stream)
  | _, buf, [] => some (buf, 0, [])
  | i, buf, ch :: s =>
      (store buf i ch).bind (fun buf =>
        if ch.toNat > 57 ∨ ch.toNat < 48 then (store buf i 0).map (fun buf => (buf, ch, s))
        else readDigitsFrom (i + 1) buf s)

/-- `read_uint`; `buf` is its buffer of 16 bytes as the call finds it on the stack. -/
def readUintAt (buf : List Byte) (s : Stream) : Option ReadUint :=
  (readDigitsFrom 0 buf s).bind (fun (buf, next, rest) =>
    (strtoulAt buf).map (fun ul =>
      if ul > UINT_MAX then ⟨1, none, next, buf, rest⟩ else ⟨0, some ul, next, buf, rest⟩))

/-- The loop of `parse_list`; `key` is its local buffer. -/
def listLoopAt (maxKeys maxStringSize : Nat) :
    Nat → Int → List Byte → List CStr → Stream → Option (Parsed CStr)
  | 0, output, _, stored, s => some (closeList maxKeys output stored s)
  | room + 1, _, key, stored, s =>
      (readStringAt maxStringSize key s).bind (fun output =>
        if output.value < 0 ∨ output.value = 1 then some (rejected stored output.rest)
        else if output.value = 2 then
          some (closeList maxKeys output.value (stored ++ [CStr.ofBuffer output.buffer]) output.rest)
        else
          listLoopAt maxKeys maxStringSize room output.value output.buffer
            (stored ++ [CStr.ofBuffer output.buffer]) output.rest)

def parseListAt (maxKeys maxStringSize : Nat) (key : List Byte) (s : Stream) :
    Option (Parsed CStr) :=
  let (ok, s) := readTest (· = LBRACK) s
  if !ok then some (rejected [] s)
  else listLoopAt maxKeys maxStringSize maxKeys 2 key [] s

def parseDelayAt (buf : List Byte) (s : Stream) : Option ParsedDelay :=
  (readUintAt buf s).map (fun delay =>
    if delay.ret ≠ 0 then ⟨-1, delay.value, cleanup delay.rest⟩ else ⟨0, delay.value, delay.rest⟩)

/-- One round of the loop of `main`, where `buf` is the buffer of `read_uint` as the round finds it on the
    stack. Only a `DELAY` reads a number, so the other rounds are those of `clientRound`. -/
def clientRoundAt (buf : List Byte) (s : Stream) : Option (Option (ClientCmd × Stream)) :=
  match getNext s with
  | (.cmdDelay, s) =>
      (parseDelayAt buf s).map (fun p =>
        some (if p.ret = -1 then .invalid else .delay (p.delay.getD 0), p.rest))
  | _ => some (clientRound buf s)

/-! ## The copies agree -/

theorem readStringFrom_copy (max i : Nat) (buffer : List Byte) (s : Stream) :
    readStringFrom max i buffer s = Server.readStringFrom max i buffer s := by
  induction s generalizing i buffer with
  | nil => rfl
  | cons ch s ih =>
      unfold readStringFrom Server.readStringFrom
      simp only [ih]
      rfl

theorem readStringAt_copy (max : Nat) (buffer : List Byte) (s : Stream) :
    readStringAt max buffer s = Server.readStringAt max buffer s :=
  readStringFrom_copy max 0 buffer s

theorem readDigitsFrom_copy (i : Nat) (buf : List Byte) (s : Stream) :
    readDigitsFrom i buf s = Server.readDigitsFrom i buf s := by
  induction s generalizing i buf with
  | nil => rfl
  | cons ch s ih =>
      unfold readDigitsFrom Server.readDigitsFrom
      simp only [ih]

theorem readUintAt_copy (buf : List Byte) (s : Stream) :
    readUintAt buf s = Server.readUintAt buf s := by
  unfold readUintAt Server.readUintAt
  rw [readDigitsFrom_copy]

/-! ## Delays that stay inside of their buffer -/

theorem parseDelayAt_inside {buf : List Byte} {s : Stream} (h : Server.NumberInside buf s) :
    parseDelayAt buf s = some (parseDelay buf s) := by
  obtain ⟨stored, hread⟩ := Server.readUintAt_inside h
  unfold parseDelayAt parseDelay
  rw [readUintAt_copy, hread, readUint_eq]
  rfl

theorem parseDelayAt_outside {buf : List Byte} {s : Stream} (h : ¬ Server.NumberInside buf s) :
    parseDelayAt buf s = none := by
  rw [parseDelayAt, readUintAt_copy, Server.readUintAt_outside h]
  rfl

end Kvs.Client
