import Kvs.Server.Parser
import Kvs.Lib.Stores

/-!
# `Server.ParserStores` — the parsers with the arrays they store into

The functions of `Server.Parser` once more, with the local buffers of the source as arrays: `none` stands
for a store or a load outside of them. A run that stays inside gives what the functions of `Server.Parser`
give (`readStringAt_eq`, `readUintAt_eq`).

## Contents
- **`read_string`.** `readStringFrom`, its loop from index `i` on; `readStringAt`.
- **`read_uint`.** `readDigitsFrom`, `strtoulAt`, `readUintAt`.
- **The parsers above them.** `parsePairAt`, `parseWriteAt`, `parseReadDeleteAt`.
-/

namespace Kvs.Server

open Stores

/-! ## `read_string` -/

/-- `buffer[i] = '\0'; return value;` -/
def terminate (i : Nat) (buffer : List Byte) (value : Int) (s : Stream) : Option ReadString :=
  (store buffer i 0).map (fun buffer => ⟨value, buffer, s⟩)

/-- The loop of `read_string` and the store behind it. The `buffer` of the result is the whole array. -/
def readStringFrom (max : Nat) : Nat → List Byte → Stream → Option ReadString
  | i, buffer, [] => if i < max then some ⟨-1, buffer, []⟩ else terminate i buffer (-1) []
  | i, buffer, ch :: s =>
      if i < max then
        if ch = SP then some ⟨-1, buffer, s⟩
        else if ch = COMMA then terminate i buffer 0 s
        else if ch = RPAREN then terminate i buffer 1 s
        else if ch = RBRACK then terminate i buffer 2 s
        else (store buffer i ch).bind (fun buffer => readStringFrom max (i + 1) buffer s)
      else terminate i buffer (-1) (ch :: s)

def readStringAt (max : Nat) (buffer : List Byte) (s : Stream) : Option ReadString :=
  readStringFrom max 0 buffer s

theorem terminate_eq (i : Nat) (buffer : List Byte) (value : Int) (s : Stream) :
    terminate i buffer value s = (storeAll buffer i [0]).map (fun b => ⟨value, b, s⟩) := by
  unfold terminate storeAll
  cases store buffer i 0 with
  | none => rfl
  | some b => rfl

/-- The loop stores, from index `i` on, the bytes that `readString` lists. -/
theorem readStringFrom_eq (max i : Nat) (buffer : List Byte) (s : Stream) :
    readStringFrom max i buffer s
      = (storeAll buffer i (readString (max - i) s).buffer).map
          (fun b => { readString (max - i) s with buffer := b }) := by
  induction s generalizing i buffer with
  | nil =>
      rw [readStringFrom]
      by_cases hi : i < max
      · obtain ⟨n, hn⟩ : ∃ n, max - i = n + 1 := ⟨max - i - 1, by omega⟩
        rw [if_pos hi, hn]
        rfl
      · have hn : max - i = 0 := by omega
        rw [if_neg hi, hn, terminate_eq]
        rfl
  | cons ch s ih =>
      rw [readStringFrom]
      by_cases hi : i < max
      · obtain ⟨n, hn⟩ : ∃ n, max - i = n + 1 := ⟨max - i - 1, by omega⟩
        rw [if_pos hi, hn, readString]
        split_ifs with hsp hcomma hrparen hrbrack
        · rfl
        · exact terminate_eq i buffer 0 s
        · exact terminate_eq i buffer 1 s
        · exact terminate_eq i buffer 2 s
        · -- one more byte is stored, and the loop goes on
          have hn' : max - (i + 1) = n := by omega
          simp only [storeAll]
          cases store buffer i ch with
          | none => rfl
          | some b =>
              simp only [Option.bind_some]
              rw [ih, hn']
      · have hn : max - i = 0 := by omega
        rw [if_neg hi, hn, terminate_eq]
        rfl

/-- `read_string` stores what `readString` lists, from the start of its buffer on. -/
theorem readStringAt_eq (max : Nat) (buffer : List Byte) (s : Stream) :
    readStringAt max buffer s
      = (storeAll buffer 0 (readString max s).buffer).map
          (fun b => { readString max s with buffer := b }) :=
  readStringFrom_eq max 0 buffer s

/-! ## `read_uint` -/

/-- The loop of `read_uint`: `read` stores the byte at `buf[i]`, where a NUL replaces it if it is not a
    digit. -/
def readDigitsFrom : Nat → List Byte → Stream → Option (List Byte × Byte × Stream)
  | _, buf, [] => some (buf, 0, [])
  | i, buf, ch :: s =>
      (store buf i ch).bind (fun buf =>
        if ch.toNat > 57 ∨ ch.toNat < 48 then (store buf i 0).map (fun buf => (buf, ch, s))
        else readDigitsFrom (i + 1) buf s)

/-- White space, a sign and digits are all there is in `buf`: `strtoul` meets no byte that stops it. -/
def scansPast (buf : List Byte) : Bool :=
  let number := buf.dropWhile isSpace
  let digits := if number.head? = some 43 ∨ number.head? = some 45 then number.tail else number
  digits.all isDigit

/-- `strtoul(buf, NULL, 10)`, or `none` where it reads behind the end of `buf`. -/
def strtoulAt (buf : List Byte) : Option Nat :=
  if scansPast buf then none else some (strtoul buf)

/-- `read_uint`; `buf` is its buffer of 16 bytes as the call finds it on the stack. The `stored` of the
    result is the whole buffer. -/
def readUintAt (buf : List Byte) (s : Stream) : Option ReadUint :=
  (readDigitsFrom 0 buf s).bind (fun (buf, next, rest) =>
    (strtoulAt buf).map (fun ul =>
      if ul > UINT_MAX then ⟨1, none, next, buf, rest⟩ else ⟨0, some ul, next, buf, rest⟩))

/-- The loop stores, from index `i` on, the bytes that `readDigits` lists. -/
theorem readDigitsFrom_eq (i : Nat) (buf : List Byte) (s : Stream) :
    readDigitsFrom i buf s
      = (storeAll buf i (readDigits s).1).map (fun b => (b, (readDigits s).2)) := by
  induction s generalizing i buf with
  | nil => rfl
  | cons ch s ih =>
      rw [readDigitsFrom, readDigits]
      by_cases hi : i < buf.length
      · rw [store_inside hi, Option.bind_some]
        split
        · -- the NUL goes where the byte was stored
          rw [store_inside (by rwa [List.length_set]), List.set_set]
          simp only [storeAll, store_inside hi]
          rfl
        · rw [ih]
          simp only [storeAll, store_inside hi]
          rfl
      · have hout := Nat.le_of_not_lt hi
        rw [store_outside hout]
        split
        · simp only [storeAll, store_outside hout]
          rfl
        · simp only [storeAll, store_outside hout]
          rfl

/-- `read_uint` gives what `readUint` gives where it stays inside its buffer. -/
theorem readUintAt_eq {buf : List Byte} {s : Stream} (hroom : (readDigits s).1.length ≤ buf.length) :
    readUintAt buf s
      = if scansPast ((readDigits s).1 ++ buf.drop (readDigits s).1.length) then none
        else some { readUint buf s with
          stored := (readDigits s).1 ++ buf.drop (readDigits s).1.length } := by
  unfold readUintAt strtoulAt readUint
  rw [readDigitsFrom_eq, storeAll_fits hroom]
  simp only [Option.map_some, Option.bind_some]
  by_cases hpast : scansPast ((readDigits s).1 ++ buf.drop (readDigits s).1.length)
  · rw [if_pos hpast, if_pos hpast]
    rfl
  · rw [if_neg hpast, if_neg hpast]
    simp only [Option.map_some]
    split
    · rfl
    · rfl

theorem readUintAt_overflows {buf : List Byte} {s : Stream}
    (hroom : buf.length < (readDigits s).1.length) : readUintAt buf s = none := by
  unfold readUintAt
  rw [readDigitsFrom_eq, storeAll_overflows (Nat.zero_le _) (by omega)]
  rfl

/-- Behind digits `strtoul` needs a byte that is none. -/
theorem scansPast_digits {d : List Byte} (hd : ∀ b ∈ d, isDigit b = true) (hne : d ≠ [])
    (behind : List Byte) : scansPast (d ++ behind) = behind.all isDigit := by
  have hall : d.all isDigit = true := List.all_eq_true.mpr hd
  obtain ⟨b, d, rfl⟩ := List.exists_cons_of_ne_nil hne
  obtain ⟨hspace, hplus, hminus⟩ := isDigit_unsigned (hd b List.mem_cons_self)
  have hdrop : (b :: (d ++ behind)).dropWhile isSpace = b :: (d ++ behind) := by
    rw [List.dropWhile_cons_of_neg (by simp [hspace])]
  unfold scansPast
  simp only [List.cons_append, hdrop, List.head?_cons, Option.some.injEq, hplus, hminus, or_self,
    if_false]
  rw [← List.cons_append, List.all_append, hall, Bool.true_and]

/-- A NUL behind digits stops `strtoul`, also where there is no digit. -/
theorem scansPast_nul {d : List Byte} (hd : ∀ b ∈ d, isDigit b = true) (behind : List Byte) :
    scansPast (d ++ 0 :: behind) = false := by
  by_cases hne : d = []
  · subst hne
    rfl
  · rw [scansPast_digits hd hne]
    rfl

/-- Digits and the byte after them, in a buffer that has room for both. -/
theorem readUintAt_digits {buf d : List Byte} (hd : ∀ b ∈ d, isDigit b = true) {c : Byte}
    (hc : isDigit c = false) (hroom : d.length < buf.length) (s : Stream) :
    readUintAt buf (d ++ c :: s)
      = some { readUint buf (d ++ c :: s) with
          stored := (d ++ [0]) ++ buf.drop (d ++ [0]).length } := by
  have hstored := readDigits_append hd hc s
  have hlen : (readDigits (d ++ c :: s)).1.length ≤ buf.length := by
    rw [hstored]
    simpa using hroom
  have hstops : scansPast ((d ++ [0]) ++ buf.drop (d ++ [0]).length) = false := by
    rw [List.append_assoc]
    exact scansPast_nul hd _
  rw [readUintAt_eq hlen, hstored]
  simp only [hstops]
  rfl

/-- The number at the start of `s` stays inside of `buf`: there is room for its digits and the byte behind
    them. At the end of the file there is no such byte, and `strtoul` must meet one that stops it. -/
def NumberInside (buf : List Byte) (s : Stream) : Prop :=
  match s.dropWhile isDigit with
  | _ :: _ => (s.takeWhile isDigit).length < buf.length
  | [] => s.length ≤ buf.length ∧ scansPast (s ++ buf.drop s.length) = false

instance (buf : List Byte) (s : Stream) : Decidable (NumberInside buf s) :=
  match h : s.dropWhile isDigit with
  | _ :: _ =>
      decidable_of_iff ((s.takeWhile isDigit).length < buf.length) (by rw [NumberInside, h])
  | [] =>
      decidable_of_iff (s.length ≤ buf.length ∧ scansPast (s ++ buf.drop s.length) = false)
        (by rw [NumberInside, h])

theorem numberInside_digits {buf d : List Byte} (hd : ∀ b ∈ d, isDigit b = true) {c : Byte}
    (hc : isDigit c = false) (s : Stream) :
    NumberInside buf (d ++ c :: s) ↔ d.length < buf.length := by
  have hstop : ¬ isDigit c = true := by simp [hc]
  rw [NumberInside, List.dropWhile_append_of_pos hd, List.dropWhile_cons_of_neg hstop,
    List.takeWhile_append_of_pos hd, List.takeWhile_cons_of_neg hstop, List.append_nil]

theorem numberInside_end {buf d : List Byte} (hd : ∀ b ∈ d, isDigit b = true) :
    NumberInside buf d ↔
      d.length ≤ buf.length ∧ scansPast (d ++ buf.drop d.length) = false := by
  rw [NumberInside, List.dropWhile_eq_nil_iff.mpr hd]

/-- **When `read_uint` stays inside of its buffer**, and what it then gives. -/
theorem readUintAt_inside {buf : List Byte} {s : Stream} (h : NumberInside buf s) :
    ∃ stored, readUintAt buf s = some { readUint buf s with stored := stored } := by
  obtain ⟨d, tail, rfl, hd, hstop⟩ := digits_cases s
  cases tail with
  | nil =>
      rw [List.append_nil] at h ⊢
      obtain ⟨hroom, hstops⟩ := (numberInside_end hd).mp h
      have hstored := readDigits_end hd
      have hlen : (readDigits d).1.length ≤ buf.length := by rwa [hstored]
      rw [readUintAt_eq hlen, hstored]
      simp only [hstops]
      exact ⟨_, rfl⟩
  | cons c rest =>
      have hc := hstop c rest rfl
      exact ⟨_, readUintAt_digits hd hc ((numberInside_digits hd hc rest).mp h) rest⟩

theorem readUintAt_outside {buf : List Byte} {s : Stream} (h : ¬ NumberInside buf s) :
    readUintAt buf s = none := by
  obtain ⟨d, tail, rfl, hd, hstop⟩ := digits_cases s
  cases tail with
  | nil =>
      rw [List.append_nil] at h ⊢
      have hstored := readDigits_end hd
      by_cases hroom : d.length ≤ buf.length
      · -- the digits have their places, and `strtoul` leaves the buffer
        have hlen : (readDigits d).1.length ≤ buf.length := by rwa [hstored]
        have hpast : scansPast (d ++ buf.drop d.length) = true := by
          by_contra hstops
          exact h ((numberInside_end hd).mpr ⟨hroom, Bool.eq_false_of_not_eq_true hstops⟩)
        rw [readUintAt_eq hlen, hstored]
        simp only [hpast]
        rfl
      · apply readUintAt_overflows
        rw [hstored]
        exact Nat.lt_of_not_le hroom
  | cons c rest =>
      have hc := hstop c rest rfl
      have hroom := mt (numberInside_digits hd hc rest).mpr h
      apply readUintAt_overflows
      rw [readDigits_append hd hc, List.length_append, List.length_singleton]
      omega

/-! ## The parsers above them -/

/-- `parse_pair`: its buffers `key` and `value`, or `none` inside where it returns 0. -/
def parsePairAt (key value : List Byte) (s : Stream) :
    Option (Option (List Byte × List Byte) × Stream) :=
  (readStringAt MAX_STRING_SIZE key s).bind (fun k =>
    if k.value ≠ 0 then some (none, cleanup k.rest)
    else
      (readStringAt MAX_STRING_SIZE value k.rest).map (fun v =>
        if v.value ≠ 1 then (none, cleanup v.rest) else (some (k.buffer, v.buffer), v.rest)))

/-- The loop of `parse_write`; `key` and `value` are its local buffers. -/
def pairsLoopAt (maxPairs : Nat) :
    Nat → List Byte → List Byte → List (CStr × CStr) → Stream → Option (Parsed (CStr × CStr))
  | 0, _, _, stored, s => some (closeList maxPairs stored s)
  | room + 1, key, value, stored, s =>
      (parsePairAt key value s).bind (fun
        | (none, s) => some (rejected stored s)
        | (some (key, value), s) =>
            let stored := stored ++ [(CStr.ofBuffer key, CStr.ofBuffer value)]
            match s with
            | [] => some (rejected stored [])
            | ch :: s =>
                if ch = LPAREN then pairsLoopAt maxPairs room key value stored s
                else if ch = RBRACK then some (closeList maxPairs stored s)
                else some (rejected stored s))

def parseWriteAt (maxPairs : Nat) (key value : List Byte) (s : Stream) :
    Option (Parsed (CStr × CStr)) :=
  let (ok, s) := readTest (· = LBRACK) s
  if !ok then some (rejected [] s)
  else
    let (ok, s) := readTest (· = LPAREN) s
    if !ok then some (rejected [] s)
    else pairsLoopAt maxPairs maxPairs key value [] s

/-- The loop of `parse_read_delete`; `key` is its local buffer. -/
def keysLoopAt (maxKeys maxStringSize : Nat) :
    Nat → List Byte → List CStr → Stream → Option (Parsed CStr)
  | 0, _, stored, s => some (closeList maxKeys stored s)
  | room + 1, key, stored, s =>
      (readStringAt maxStringSize key s).bind (fun output =>
        if output.value < 0 ∨ output.value = 1 then some (rejected stored output.rest)
        else if output.value = 2 then
          some (closeList maxKeys (stored ++ [CStr.ofBuffer output.buffer]) output.rest)
        else
          keysLoopAt maxKeys maxStringSize room output.buffer
            (stored ++ [CStr.ofBuffer output.buffer]) output.rest)

def parseReadDeleteAt (maxKeys maxStringSize : Nat) (key : List Byte) (s : Stream) :
    Option (Parsed CStr) :=
  let (ok, s) := readTest (· = LBRACK) s
  if !ok then some (rejected [] s)
  else keysLoopAt maxKeys maxStringSize maxKeys key [] s

/-- `parse_wait`; `buf` and `buf'` are the buffers of its two `read_uint` calls. -/
def parseWaitAt (wantsThreadId : Bool) (buf buf' : List Byte) (s : Stream) : Option ParsedWait :=
  (readUintAt buf s).bind (fun delay =>
    if delay.ret ≠ 0 then some ⟨-1, delay.value, none, cleanup delay.rest⟩
    else if delay.next = SP then
      if !wantsThreadId then some ⟨0, delay.value, none, cleanup delay.rest⟩
      else
        (readUintAt buf' delay.rest).map (fun threadId =>
          if threadId.ret ≠ 0 ∨ (threadId.next ≠ NL ∧ threadId.next ≠ 0) then
            ⟨-1, delay.value, threadId.value, cleanup threadId.rest⟩
          else ⟨1, delay.value, threadId.value, threadId.rest⟩)
    else if delay.next = NL ∨ delay.next = 0 then some ⟨0, delay.value, none, delay.rest⟩
    else some ⟨-1, delay.value, none, cleanup delay.rest⟩)

/-- Without a thread id there is one number to read. -/
theorem parseWaitAt_inside {buf : List Byte} {s : Stream} (h : NumberInside buf s)
    (buf' : List Byte) : parseWaitAt false buf buf' s = some (parseWait false buf buf' s) := by
  obtain ⟨stored, hread⟩ := readUintAt_inside h
  unfold parseWaitAt parseWait
  rw [hread, Option.bind_some]
  simp only [Bool.not_false, if_true]
  split_ifs <;> rfl

theorem parseWaitAt_outside {buf : List Byte} {s : Stream} (h : ¬ NumberInside buf s)
    (wantsThreadId : Bool) (buf' : List Byte) : parseWaitAt wantsThreadId buf buf' s = none := by
  rw [parseWaitAt, readUintAt_outside h]
  rfl

/-! ## The loop of `process_job_file` -/

/-- One round of the loop, where `buf` is the buffer of `read_uint` as the round finds it on the stack.
    Only a `WAIT` reads a number, so the other rounds are those of `jobRound`. -/
def jobRoundAt (buf : List Byte) (s : Stream) : Option (Option (JobCmd × Stream)) :=
  match getNext s with
  | (.cmdWait, s) =>
      (parseWaitAt false buf [] s).map (fun p =>
        some (if p.ret = -1 then .invalid else .wait (p.delay.getD 0), p.rest))
  | _ => some (jobRound buf s)

/-- The round reads no number, or one that stays inside of `buf`. -/
def RoundInside (buf : List Byte) (s : Stream) : Prop :=
  ∀ s', s = ascii "WAIT " ++ s' → NumberInside buf s'

end Kvs.Server
