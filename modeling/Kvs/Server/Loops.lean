import Kvs.Server.ParserStores
import Kvs.Lib.Loop

/-!
# `Server.Loops` — the loops of the parser and of the job

One body for each loop of `parser.c` and for the loop of `process_job_file`: the variables of the loop and
the bytes left to read before and after one iteration. `Server.Parser` has the same loops as recursive
functions. The loop of `read_uint` and that of the job, which contains it, come with the buffer of 16 bytes
as well; a store or a load outside of it leaves them without a result.
-/

namespace Kvs.Server

open Stores

/-- `while (read(fd, &ch, 1) == 1 && ch != '\n') ;` -/
def cleanupBody : Stream → Stream ⊕ Stream
  | [] => .inr []
  | ch :: s => if ch ≠ NL then .inl s else .inr s

/-- `while (i < max)` of `read_string`, and the store of the NUL behind it. `stored` are the `i` bytes
    stored so far. -/
def readStringBody (max : Nat) : List Byte × Stream → (List Byte × Stream) ⊕ ReadString
  | (stored, s) =>
      if stored.length < max then
        match s with
        | [] => .inr ⟨-1, stored, []⟩
        | ch :: s =>
            if ch = SP then .inr ⟨-1, stored, s⟩
            else if ch = COMMA then .inr ⟨0, stored ++ [0], s⟩
            else if ch = RPAREN then .inr ⟨1, stored ++ [0], s⟩
            else if ch = RBRACK then .inr ⟨2, stored ++ [0], s⟩
            else .inl (stored ++ [ch], s)
      else .inr ⟨-1, stored ++ [0], s⟩

/-- `for (;;)` of `read_uint`, up to the call of `strtoul`: `i`, `buf` and the bytes left. -/
def readDigitsBodyAt :
    Nat × List Byte × Stream → (Nat × List Byte × Stream) ⊕ Option (List Byte × Byte × Stream)
  | (_, buf, []) => .inr (some (buf, 0, []))
  | (i, buf, ch :: s) =>
      match store buf i ch with
      | none => .inr none
      | some buf =>
          if ch.toNat > 57 ∨ ch.toNat < 48 then .inr ((store buf i 0).map (fun buf => (buf, ch, s)))
          else .inl (i + 1, buf, s)

/-- `while (num_pairs < max_pairs)` of `parse_write`, and what follows it. -/
def pairsBody (maxPairs : Nat) :
    List (CStr × CStr) × Stream → (List (CStr × CStr) × Stream) ⊕ Parsed (CStr × CStr)
  | (stored, s) =>
      if stored.length < maxPairs then
        match parsePair s with
        | (none, s) => .inr (rejected stored s)
        | (some pair, s) =>
            match s with
            | [] => .inr (rejected (stored ++ [pair]) [])
            | ch :: s =>
                if ch = LPAREN then .inl (stored ++ [pair], s)
                else if ch = RBRACK then .inr (closeList maxPairs (stored ++ [pair]) s)
                else .inr (rejected (stored ++ [pair]) s)
      else .inr (closeList maxPairs stored s)

/-- `while (num_keys < max_keys)` of `parse_read_delete`, and what follows it. -/
def keysBody (maxKeys maxStringSize : Nat) :
    List CStr × Stream → (List CStr × Stream) ⊕ Parsed CStr
  | (stored, s) =>
      if stored.length < maxKeys then
        let output := readString maxStringSize s
        if output.value < 0 ∨ output.value = 1 then .inr (rejected stored output.rest)
        else if output.value = 2 then
          .inr (closeList maxKeys (stored ++ [CStr.ofBuffer output.buffer]) output.rest)
        else .inl (stored ++ [CStr.ofBuffer output.buffer], output.rest)
      else .inr (closeList maxKeys stored s)

/-- `for (;;)` of `process_job_file`, with the commands of the rounds so far. -/
def jobBody (mem : Nat → List Byte) :
    List JobCmd × Stream → (List JobCmd × Stream) ⊕ (List JobCmd × Stream)
  | (commands, s) =>
      match jobRound (mem commands.length) s with
      | none => .inr (commands, s)
      | some (command, s) => .inl (commands ++ [command], s)

/-- The same loop with the buffers of `read_uint`: `bufs i` is the one that round `i` finds on the stack. -/
def jobBodyAt (bufs : Nat → List Byte) :
    List JobCmd × Stream → (List JobCmd × Stream) ⊕ Option (List JobCmd × Stream)
  | (commands, s) =>
      match jobRoundAt (bufs commands.length) s with
      | none => .inr none
      | some none => .inr (some (commands, s))
      | some (some (command, s)) => .inl (commands ++ [command], s)

end Kvs.Server
