import Kvs.Base.Bytes

/-!
# `Server.Parser` — reading a job file

`parser.c` and the loop of `process_job_file` around it, as functions of the bytes left to read: each
parser returns what it recognised and what is left for the next one. A `read` gives the bytes asked for
whenever that many remain.

## Contents
- **Pieces.** `decimal`, `cleanup`, `readString`, `strtoul`, `readUint`.
- **Commands.** `getNext`, `parsePair`, `parseWrite`, `parseReadDelete`, `parseWait`.
- **The loop.** `jobRound`, one round of the loop; `jobLoop`, which ends because every round consumes
  a byte (`jobRound_length_lt`).
-/

namespace Kvs.Server

abbrev MAX_WRITE_SIZE : Nat := 256
abbrev MAX_STRING_SIZE : Nat := 40
abbrev UINT_MAX : Nat := 4294967295
abbrev ULONG_MAX : Nat := 18446744073709551615

/-! ## Pieces -/

def digitByte (d : Nat) : Byte := (48 + d).toUInt8

/-- A number in decimal, without superfluous zeros. -/
def decimal (n : Nat) : List Byte :=
  if n = 0 then ascii "0" else (Nat.digits 10 n).reverse.map digitByte

/-- Skips what is left of the line. -/
def cleanup : Stream → Stream
  | [] => []
  | ch :: s => if ch = NL then s else cleanup s

theorem cleanup_line {L : List Byte} (hL : NL ∉ L) (s : Stream) : cleanup (L ++ NL :: s) = s := by
  induction L with
  | nil => rfl
  | cons b L ih =>
      rw [List.mem_cons, not_or] at hL
      rw [List.cons_append, cleanup, if_neg (fun hb => hL.1 hb.symm), ih hL.2]

/-- `read(fd, &ch, 1) == 1` and a test on `ch`, with what is left either way. -/
def readTest (test : Byte → Bool) : Stream → Bool × Stream
  | [] => (false, [])
  | ch :: s => (test ch, s)

/-- What `read_string` returns, the bytes it has stored in `buffer` from index 0 on, and what is left. -/
structure ReadString where
  value : Int
  buffer : List Byte
  rest : Stream
  deriving DecidableEq

/-- `read_string`, with `max - i` as the argument. When no delimiter comes in time the terminating NUL
    goes one byte past the last. -/
def readString : Nat → Stream → ReadString
  | 0, s => ⟨-1, [0], s⟩
  | _ + 1, [] => ⟨-1, [], []⟩
  | max + 1, ch :: s =>
      if ch = SP then ⟨-1, [], s⟩
      else if ch = COMMA then ⟨0, [0], s⟩
      else if ch = RPAREN then ⟨1, [0], s⟩
      else if ch = RBRACK then ⟨2, [0], s⟩
      else
        let r := readString max s
        { r with buffer := ch :: r.buffer }

def isDigit (b : Byte) : Bool := 48 ≤ b && b ≤ 57

/-- The number a string of digits denotes. -/
def digitsValue (ds : List Byte) : Nat := ds.foldl (fun n d => 10 * n + (d.toNat - 48)) 0

/-- `isspace` in the C locale. -/
def isSpace (b : Byte) : Bool := b = 32 || (9 ≤ b && b ≤ 13)

/-- `strtoul(buf, NULL, 10)`: white space, a sign, digits. A value out of range gives `ULONG_MAX`, and a
    minus sign negates in the type of the result. -/
def strtoul (buf : List Byte) : Nat :=
  let buf := buf.dropWhile isSpace
  let negative := buf.head? = some 45
  let buf := if buf.head? = some 43 ∨ buf.head? = some 45 then buf.tail else buf
  let n := digitsValue (buf.takeWhile isDigit)
  if n > ULONG_MAX then ULONG_MAX
  else if negative then (ULONG_MAX + 1 - n) % (ULONG_MAX + 1)
  else n

/-- The loop of `read_uint`: the bytes stored in `buf`, `*next`, and what is left. -/
def readDigits : Stream → List Byte × Byte × Stream
  | [] => ([], 0, [])
  | ch :: s =>
      if ch.toNat > 57 ∨ ch.toNat < 48 then ([0], ch, s)
      else
        let (stored, next, rest) := readDigits s
        (ch :: stored, next, rest)

/-- What `read_uint` returns, the number it has stored in `*value`, if any, `*next`, the bytes it has
    stored in `buf`, and what is left. -/
structure ReadUint where
  ret : Int
  value : Option Nat
  next : Byte
  stored : List Byte
  rest : Stream
  deriving DecidableEq

/-- `read_uint`; `mem` is what `buf` holds before. At the end of the file no NUL is stored, and
    `strtoul` reads on into what was there. -/
def readUint (mem : List Byte) (s : Stream) : ReadUint :=
  let (stored, next, rest) := readDigits s
  let ul := strtoul (stored ++ mem.drop stored.length)
  if ul > UINT_MAX then ⟨1, none, next, stored, rest⟩
  else ⟨0, some ul, next, stored, rest⟩

/-! ## `get_next` -/

inductive Command where
  | cmdWrite
  | cmdRead
  | cmdDelete
  | cmdShow
  | cmdWait
  | cmdBackup
  | cmdHelp
  | cmdEmpty
  | cmdInvalid
  | eoc
  deriving DecidableEq, Repr

/-- The cases `'R'` and `'D'`: the rest of a keyword that ends with a space. -/
def keywordSpace (keyword : List Byte) (command : Command) (s : Stream) : Command × Stream :=
  let (buf, s) := readBytes s (keyword.length - 1)
  if buf.length ≠ keyword.length - 1 ∨
      strncmp (keyword.take 1 ++ buf) keyword keyword.length ≠ 0 then (.cmdInvalid, cleanup s)
  else (command, s)

/-- The cases `'S'`, `'B'` and `'H'`: the rest of a keyword, then a newline or the end of the file. -/
def keywordLine (keyword : List Byte) (command : Command) (s : Stream) : Command × Stream :=
  let (buf, s) := readBytes s (keyword.length - 1)
  if buf.length ≠ keyword.length - 1 ∨
      strncmp (keyword.take 1 ++ buf) keyword keyword.length ≠ 0 then (.cmdInvalid, cleanup s)
  else
    match s with
    | [] => (command, [])
    | ch :: s => if ch ≠ NL then (.cmdInvalid, cleanup s) else (command, s)

/-- The case `'W'`: four more bytes decide for `WAIT`, a fifth for `WRITE`. -/
def keywordW (s : Stream) : Command × Stream :=
  let (buf, s) := readBytes s 4
  if buf.length ≠ 4 ∨ strncmp (ascii "W" ++ buf) (ascii "WAIT ") 5 ≠ 0 then
    let (buf', s) := readBytes s 1
    if buf'.length ≠ 1 ∨ strncmp (ascii "W" ++ (buf ++ buf')) (ascii "WRITE ") 6 ≠ 0 then
      (.cmdInvalid, cleanup s)
    else (.cmdWrite, s)
  else (.cmdWait, s)

def getNext : Stream → Command × Stream
  | [] => (.eoc, [])
  | ch :: s =>
      if ch = 87 then keywordW s
      else if ch = 82 then keywordSpace (ascii "READ ") .cmdRead s
      else if ch = 68 then keywordSpace (ascii "DELETE ") .cmdDelete s
      else if ch = 83 then keywordLine (ascii "SHOW") .cmdShow s
      else if ch = 66 then keywordLine (ascii "BACKUP") .cmdBackup s
      else if ch = 72 then keywordLine (ascii "HELP") .cmdHelp s
      else if ch = HASH then (.cmdEmpty, cleanup s)
      else if ch = NL then (.cmdEmpty, s)
      else (.cmdInvalid, cleanup s)

/-! ## The parsers of the arguments -/

/-- `parse_pair`: key and value, or `none` where it returns 0. -/
def parsePair (s : Stream) : Option (CStr × CStr) × Stream :=
  let key := readString MAX_STRING_SIZE s
  if key.value ≠ 0 then (none, cleanup key.rest)
  else
    let value := readString MAX_STRING_SIZE key.rest
    if value.value ≠ 1 then (none, cleanup value.rest)
    else (some (CStr.ofBuffer key.buffer, CStr.ofBuffer value.buffer), value.rest)

/-- What `parse_write` and `parse_read_delete` return, the rows they have stored, from the first on, and
    what is left. -/
structure Parsed (α : Type) where
  num : Nat
  stored : List α
  rest : Stream
  deriving DecidableEq

section Lists

variable {α : Type}

/-- `cleanup(fd); return 0;` -/
def rejected (stored : List α) (s : Stream) : Parsed α := ⟨0, stored, cleanup s⟩

/-- What follows the loops: no row may be left free, and a newline (or a NUL) ends the command. -/
def closeList (max : Nat) (stored : List α) (s : Stream) : Parsed α :=
  if stored.length = max then rejected stored s
  else
    let (ok, s) := readTest (fun ch => ch = NL || ch = 0) s
    if ok then ⟨stored.length, stored, s⟩ else rejected stored s

end Lists

/-- The loop of `parse_write`, with `max_pairs - num_pairs` as the second argument. A pair that is
    malformed has already skipped its line, and another is skipped here. -/
def pairsLoop (maxPairs : Nat) : Nat → List (CStr × CStr) → Stream → Parsed (CStr × CStr)
  | 0, stored, s => closeList maxPairs stored s
  | room + 1, stored, s =>
      match parsePair s with
      | (none, s) => rejected stored s
      | (some pair, s) =>
          match s with
          | [] => rejected (stored ++ [pair]) []
          | ch :: s =>
              if ch = LPAREN then pairsLoop maxPairs room (stored ++ [pair]) s
              else if ch = RBRACK then closeList maxPairs (stored ++ [pair]) s
              else rejected (stored ++ [pair]) s

def parseWrite (maxPairs : Nat) (s : Stream) : Parsed (CStr × CStr) :=
  let (ok, s) := readTest (· = LBRACK) s
  if !ok then rejected [] s
  else
    let (ok, s) := readTest (· = LPAREN) s
    if !ok then rejected [] s
    else pairsLoop maxPairs maxPairs [] s

/-- The loop of `parse_read_delete`, with `max_keys - num_keys` as the third argument. -/
def keysLoop (maxKeys maxStringSize : Nat) : Nat → List CStr → Stream → Parsed CStr
  | 0, stored, s => closeList maxKeys stored s
  | room + 1, stored, s =>
      let output := readString maxStringSize s
      if output.value < 0 ∨ output.value = 1 then rejected stored output.rest
      else if output.value = 2 then
        closeList maxKeys (stored ++ [CStr.ofBuffer output.buffer]) output.rest
      else keysLoop maxKeys maxStringSize room (stored ++ [CStr.ofBuffer output.buffer]) output.rest

def parseReadDelete (maxKeys maxStringSize : Nat) (s : Stream) : Parsed CStr :=
  let (ok, s) := readTest (· = LBRACK) s
  if !ok then rejected [] s
  else keysLoop maxKeys maxStringSize maxKeys [] s

/-! Both go to their loops behind the opening brackets, and reject what does not begin with them. -/

theorem parseWrite_open (maxPairs : Nat) (s : Stream) :
    parseWrite maxPairs (LBRACK :: LPAREN :: s) = pairsLoop maxPairs maxPairs [] s := rfl

theorem parseWrite_noBracket {b : Byte} (hb : b ≠ LBRACK) (maxPairs : Nat) (s : Stream) :
    parseWrite maxPairs (b :: s) = rejected [] s := by
  simp [parseWrite, readTest, hb]

theorem parseWrite_noPair {b : Byte} (hb : b ≠ LPAREN) (maxPairs : Nat) (s : Stream) :
    parseWrite maxPairs (LBRACK :: b :: s) = rejected [] s := by
  simp [parseWrite, readTest, hb]

theorem parseReadDelete_open (maxKeys maxStringSize : Nat) (s : Stream) :
    parseReadDelete maxKeys maxStringSize (LBRACK :: s)
      = keysLoop maxKeys maxStringSize maxKeys [] s := rfl

theorem parseReadDelete_noBracket {b : Byte} (hb : b ≠ LBRACK) (maxKeys maxStringSize : Nat)
    (s : Stream) : parseReadDelete maxKeys maxStringSize (b :: s) = rejected [] s := by
  simp [parseReadDelete, readTest, hb]

/-- What `parse_wait` returns, the numbers it has stored, and what is left. -/
structure ParsedWait where
  ret : Int
  delay : Option Nat
  threadId : Option Nat
  rest : Stream
  deriving DecidableEq

/-- `parse_wait`; `wantsThreadId` says that `thread_id` is not `NULL`, and `mem` and `mem'` are what the
    buffers of the two `read_uint` calls hold before. -/
def parseWait (wantsThreadId : Bool) (mem mem' : List Byte) (s : Stream) : ParsedWait :=
  let delay := readUint mem s
  if delay.ret ≠ 0 then ⟨-1, delay.value, none, cleanup delay.rest⟩
  else if delay.next = SP then
    if !wantsThreadId then ⟨0, delay.value, none, cleanup delay.rest⟩
    else
      let threadId := readUint mem' delay.rest
      if threadId.ret ≠ 0 ∨ (threadId.next ≠ NL ∧ threadId.next ≠ 0) then
        ⟨-1, delay.value, threadId.value, cleanup threadId.rest⟩
      else ⟨1, delay.value, threadId.value, threadId.rest⟩
  else if delay.next = NL ∨ delay.next = 0 then ⟨0, delay.value, none, delay.rest⟩
  else ⟨-1, delay.value, none, cleanup delay.rest⟩

/-! ## The loop of `process_job_file` -/

/-- What a round of the loop executes; `invalid` prints the message for an invalid command. -/
inductive JobCmd where
  | write (pairs : List (CStr × CStr))
  | read (keys : List CStr)
  | delete (keys : List CStr)
  | showAll
  | wait (delay : Nat)
  | backup
  | help
  | empty
  | invalid
  deriving DecidableEq

/-- The rows of a command that was accepted, or `invalid`. -/
def accepted {α : Type} (p : Parsed α) (command : List α → JobCmd) : JobCmd × Stream :=
  (if p.num = 0 then .invalid else command (p.stored.take p.num), p.rest)

/-- One round of the loop: the command it executes and what is left, or `none` at the end. `mem` is what
    the buffer of a `read_uint` call finds on the stack. -/
def jobRound (mem : List Byte) (s : Stream) : Option (JobCmd × Stream) :=
  match getNext s with
  | (.cmdWrite, s) => some (accepted (parseWrite MAX_WRITE_SIZE s) .write)
  | (.cmdRead, s) => some (accepted (parseReadDelete MAX_WRITE_SIZE MAX_STRING_SIZE s) .read)
  | (.cmdDelete, s) => some (accepted (parseReadDelete MAX_WRITE_SIZE MAX_STRING_SIZE s) .delete)
  | (.cmdShow, s) => some (.showAll, s)
  | (.cmdWait, s) =>
      let p := parseWait false mem [] s
      some (if p.ret = -1 then .invalid else .wait (p.delay.getD 0), p.rest)
  | (.cmdBackup, s) => some (.backup, s)
  | (.cmdInvalid, s) => some (.invalid, s)
  | (.cmdHelp, s) => some (.help, s)
  | (.cmdEmpty, s) => some (.empty, s)
  | (.eoc, _) => none

/-! ## Tokens -/

/-- A byte that does not end a string: neither a space nor a delimiter. -/
def isPlain (b : Byte) : Prop := b ≠ SP ∧ b ≠ COMMA ∧ b ≠ RPAREN ∧ b ≠ RBRACK

instance (b : Byte) : Decidable (isPlain b) := inferInstanceAs (Decidable (_ ∧ _))

/-- A string that fits its buffer with the terminating NUL. -/
def IsToken (max : Nat) (t : List Byte) : Prop := (∀ b ∈ t, isPlain b) ∧ t.length < max

instance (max : Nat) (t : List Byte) : Decidable (IsToken max t) :=
  inferInstanceAs (Decidable (_ ∧ _))

/-- Plain bytes are stored and the loop goes on behind them. -/
theorem readString_append {t : List Byte} (ht : ∀ b ∈ t, isPlain b) {max : Nat}
    (hlen : t.length ≤ max) (s : Stream) :
    readString max (t ++ s)
      = { readString (max - t.length) s with
          buffer := t ++ (readString (max - t.length) s).buffer } := by
  induction t generalizing max with
  | nil => rfl
  | cons b t ih =>
      obtain ⟨hsp, hcomma, hrparen, hrbrack⟩ := ht b List.mem_cons_self
      cases max with
      | zero => exact absurd hlen (by simp)
      | succ max =>
          rw [List.length_cons, Nat.add_sub_add_right, List.cons_append, readString, if_neg hsp,
            if_neg hcomma, if_neg hrparen, if_neg hrbrack,
            ih (fun b' hb' => ht b' (List.mem_cons_of_mem b hb')) (Nat.le_of_succ_le_succ hlen)]
          rfl

/-- A string and its delimiter. -/
theorem readString_token {max : Nat} {t : List Byte} (ht : IsToken max t) {d : Byte} {value : Int}
    (hd : (d, value) ∈ [(COMMA, (0 : Int)), (RPAREN, 1), (RBRACK, 2)]) (s : Stream) :
    readString max (t ++ d :: s) = ⟨value, t ++ [0], s⟩ := by
  obtain ⟨n, hn⟩ : ∃ n, max - t.length = n + 1 := ⟨max - t.length - 1, by have := ht.2; omega⟩
  rw [readString_append ht.1 ht.2.le, hn]
  simp only [List.mem_cons, Prod.mk.injEq, List.not_mem_nil, or_false] at hd
  rcases hd with ⟨rfl, rfl⟩ | ⟨rfl, rfl⟩ | ⟨rfl, rfl⟩ <;> rfl

/-- A pair with its closing bracket. -/
theorem parsePair_tokens {k v : List Byte} (hk : IsToken MAX_STRING_SIZE k)
    (hv : IsToken MAX_STRING_SIZE v) (s : Stream) :
    parsePair (k ++ COMMA :: (v ++ RPAREN :: s))
      = (some (CStr.ofBuffer (k ++ [0]), CStr.ofBuffer (v ++ [0])), s) := by
  have hkey := @readString_token _ k hk COMMA 0 (by simp) (v ++ RPAREN :: s)
  have hvalue := @readString_token _ v hv RPAREN 1 (by simp) s
  simp [parsePair, hkey, hvalue]

theorem isDigit_iff (b : Byte) : isDigit b = true ↔ 48 ≤ b.toNat ∧ b.toNat ≤ 57 := by
  simp [isDigit, UInt8.le_iff_toNat_le]

/-- Digits at the start of a text, and what stops them. -/
theorem digits_cases (P : List Byte) :
    ∃ ds rest, P = ds ++ rest ∧ (∀ b ∈ ds, isDigit b = true) ∧
      ∀ c rest', rest = c :: rest' → isDigit c = false := by
  refine ⟨P.takeWhile isDigit, P.dropWhile isDigit, (List.takeWhile_append_dropWhile).symm,
    fun b hb => List.mem_takeWhile_imp hb, fun c rest' heq => ?_⟩
  have hc := List.head?_dropWhile_not isDigit P
  rw [heq] at hc
  simpa using hc

theorem readDigits_append {ds : List Byte} (hds : ∀ b ∈ ds, isDigit b = true) {c : Byte}
    (hc : isDigit c = false) (s : Stream) : readDigits (ds ++ c :: s) = (ds ++ [0], c, s) := by
  induction ds with
  | nil =>
      have hout : c.toNat > 57 ∨ c.toNat < 48 := by
        -- the loop stops where `isDigit` fails
        have hnot := mt (isDigit_iff c).mpr (by simp [hc])
        omega
      rw [List.nil_append, readDigits, if_pos hout]
      rfl
  | cons d ds ih =>
      have hin := (isDigit_iff d).mp (hds d List.mem_cons_self)
      have hout : ¬ (d.toNat > 57 ∨ d.toNat < 48) := by omega
      rw [List.cons_append, readDigits, if_neg hout,
        ih (fun b hb => hds b (List.mem_cons_of_mem d hb))]
      rfl

theorem readDigits_end {ds : List Byte} (hds : ∀ b ∈ ds, isDigit b = true) :
    readDigits ds = (ds, 0, []) := by
  induction ds with
  | nil => rfl
  | cons d ds ih =>
      have hin := (isDigit_iff d).mp (hds d List.mem_cons_self)
      rw [readDigits, if_neg (by omega), ih (fun b hb => hds b (List.mem_cons_of_mem d hb))]

/-- With neither white space to skip nor a sign `strtoul` gives the number of the digits, up to the
    largest it can. -/
theorem strtoul_unsigned {b : Byte} (hspace : isSpace b = false) (hplus : b ≠ 43) (hminus : b ≠ 45)
    (buf : List Byte) :
    strtoul (b :: buf) = min (digitsValue ((b :: buf).takeWhile isDigit)) ULONG_MAX := by
  have hdrop : (b :: buf).dropWhile isSpace = b :: buf := by
    rw [List.dropWhile_cons_of_neg (by simp [hspace])]
  unfold strtoul
  simp only [hdrop, List.head?_cons, Option.some.injEq, hplus, hminus, or_self, if_false]
  split <;> omega

/-- A digit is neither white space nor a sign. -/
theorem isDigit_unsigned {b : Byte} (h : isDigit b = true) :
    isSpace b = false ∧ b ≠ 43 ∧ b ≠ 45 := by
  have hd := (isDigit_iff b).mp h
  refine ⟨?_, ?_, ?_⟩
  · simp only [isSpace, Bool.or_eq_false_iff, Bool.and_eq_false_iff, decide_eq_false_iff_not,
      UInt8.le_iff_toNat_le, ← UInt8.toNat_inj, UInt8.reduceToNat]
    omega
  · rintro rfl
    simp at hd
  · rintro rfl
    simp at hd

/-- Digits, and whatever digits come behind them. -/
theorem strtoul_append {ds : List Byte} (hds : ∀ b ∈ ds, isDigit b = true) (hne : ds ≠ [])
    (tail : List Byte) :
    strtoul (ds ++ tail) = min (digitsValue (ds ++ tail.takeWhile isDigit)) ULONG_MAX := by
  obtain ⟨d, ds, rfl⟩ := List.exists_cons_of_ne_nil hne
  obtain ⟨hspace, hplus, hminus⟩ := isDigit_unsigned (hds d List.mem_cons_self)
  rw [← List.takeWhile_append_of_pos hds, List.cons_append, strtoul_unsigned hspace hplus hminus]

/-- On digits and a NUL `strtoul` gives their number, up to the largest it can. -/
theorem strtoul_digits {ds : List Byte} (hds : ∀ b ∈ ds, isDigit b = true) (mem : List Byte) :
    strtoul (ds ++ 0 :: mem) = min (digitsValue ds) ULONG_MAX := by
  by_cases hne : ds = []
  · subst hne
    exact strtoul_unsigned (by decide) (by decide) (by decide) mem
  · rw [strtoul_append hds hne, List.takeWhile_cons_of_neg (by decide), List.append_nil]

/-- The cap of `strtoul` lies beyond the largest number `read_uint` accepts. -/
theorem readUint_range (n : Nat) (next : Byte) (stored : List Byte) (rest : Stream) :
    (if min n ULONG_MAX > UINT_MAX then (⟨1, none, next, stored, rest⟩ : ReadUint)
      else ⟨0, some (min n ULONG_MAX), next, stored, rest⟩)
      = if n > UINT_MAX then ⟨1, none, next, stored, rest⟩
        else ⟨0, some n, next, stored, rest⟩ := by
  by_cases hbig : n > UINT_MAX
  · have hmin : min n ULONG_MAX > UINT_MAX := by
      simp only [UINT_MAX, ULONG_MAX] at hbig ⊢
      omega
    rw [if_pos hbig, if_pos hmin]
  · have hmin : min n ULONG_MAX = n := by
      simp only [UINT_MAX, ULONG_MAX] at hbig ⊢
      omega
    rw [if_neg hbig, hmin, if_neg hbig]

/-- `read_uint` on digits and the byte after them. -/
theorem readUint_digits {ds : List Byte} (hds : ∀ b ∈ ds, isDigit b = true) {c : Byte}
    (hc : isDigit c = false) (mem : List Byte) (s : Stream) :
    readUint mem (ds ++ c :: s)
      = if digitsValue ds > UINT_MAX then ⟨1, none, c, ds ++ [0], s⟩
        else ⟨0, some (digitsValue ds), c, ds ++ [0], s⟩ := by
  unfold readUint
  rw [readDigits_append hds hc]
  simp only [List.append_assoc, List.singleton_append]
  rw [strtoul_digits hds]
  exact readUint_range (digitsValue ds) c (ds ++ [0]) s

/-! ## The parsers move forward -/

theorem cleanup_suffix (s : Stream) : cleanup s <:+ s := by
  induction s with
  | nil => exact List.suffix_refl _
  | cons ch s ih =>
      unfold cleanup
      split
      · exact List.suffix_cons ch s
      · exact ih.trans (List.suffix_cons ch s)

theorem readTest_suffix (test : Byte → Bool) (s : Stream) : (readTest test s).2 <:+ s := by
  cases s with
  | nil => exact List.suffix_refl _
  | cons ch s => exact List.suffix_cons ch s

theorem readString_suffix (max : Nat) (s : Stream) : (readString max s).rest <:+ s := by
  induction max generalizing s with
  | zero => exact List.suffix_refl _
  | succ max ih =>
      cases s with
      | nil => exact List.suffix_refl _
      | cons ch s =>
          unfold readString
          split_ifs
          · exact List.suffix_cons ch s
          · exact List.suffix_cons ch s
          · exact List.suffix_cons ch s
          · exact List.suffix_cons ch s
          · exact (ih s).trans (List.suffix_cons ch s)

theorem readDigits_suffix (s : Stream) : (readDigits s).2.2 <:+ s := by
  induction s with
  | nil => exact List.suffix_refl _
  | cons ch s ih =>
      unfold readDigits
      split
      · exact List.suffix_cons ch s
      · exact ih.trans (List.suffix_cons ch s)

theorem readUint_suffix (mem : List Byte) (s : Stream) : (readUint mem s).rest <:+ s := by
  unfold readUint
  simp only
  split <;> exact readDigits_suffix s

theorem keywordSpace_suffix (keyword : List Byte) (command : Command) (s : Stream) :
    (keywordSpace keyword command s).2 <:+ s := by
  unfold keywordSpace readBytes
  simp only
  split
  · exact (cleanup_suffix _).trans (List.drop_suffix _ s)
  · exact List.drop_suffix _ s

theorem keywordLine_suffix (keyword : List Byte) (command : Command) (s : Stream) :
    (keywordLine keyword command s).2 <:+ s := by
  have hdrop := List.drop_suffix (keyword.length - 1) s
  unfold keywordLine readBytes
  simp only
  split
  · exact (cleanup_suffix _).trans hdrop
  · split
    · exact List.nil_suffix
    · rename_i ch rest hrest
      rw [hrest] at hdrop
      have hmore := (List.suffix_cons ch rest).trans hdrop
      split
      · exact (cleanup_suffix _).trans hmore
      · exact hmore

theorem keywordW_suffix (s : Stream) : (keywordW s).2 <:+ s := by
  have hdrop := List.drop_suffix 4 s
  -- four bytes for `WAIT`, one more for `WRITE`
  have hdrop' := (List.drop_suffix 1 (s.drop 4)).trans hdrop
  unfold keywordW readBytes
  simp only
  split
  · split
    · exact (cleanup_suffix _).trans hdrop'
    · exact hdrop'
  · exact hdrop

/-- Unless it is the end of the file, `get_next` consumes at least one byte. -/
theorem getNext_suffix (ch : Byte) (s : Stream) : (getNext (ch :: s)).2 <:+ s := by
  rw [getNext]
  split_ifs
  · exact keywordW_suffix s
  · exact keywordSpace_suffix _ _ s
  · exact keywordSpace_suffix _ _ s
  · exact keywordLine_suffix _ _ s
  · exact keywordLine_suffix _ _ s
  · exact keywordLine_suffix _ _ s
  · exact cleanup_suffix s
  · exact List.suffix_refl s
  · exact cleanup_suffix s

theorem parsePair_suffix (s : Stream) : (parsePair s).2 <:+ s := by
  have hkey := readString_suffix MAX_STRING_SIZE s
  have hvalue := (readString_suffix MAX_STRING_SIZE _).trans hkey
  unfold parsePair
  simp only
  split
  · exact (cleanup_suffix _).trans hkey
  · split
    · exact (cleanup_suffix _).trans hvalue
    · exact hvalue

theorem closeList_suffix {α : Type} (max : Nat) (stored : List α) (s : Stream) :
    (closeList max stored s).rest <:+ s := by
  have htest := readTest_suffix (fun ch => ch = NL || ch = 0) s
  unfold closeList
  split
  · exact cleanup_suffix s
  · simp only
    split
    · exact htest
    · exact (cleanup_suffix _).trans htest

theorem pairsLoop_suffix (maxPairs room : Nat) (stored : List (CStr × CStr)) (s : Stream) :
    (pairsLoop maxPairs room stored s).rest <:+ s := by
  induction room generalizing stored s with
  | zero => exact closeList_suffix maxPairs stored s
  | succ room ih =>
      have hpair := parsePair_suffix s
      rw [pairsLoop]
      split
      · rename_i s' heq
        rw [heq] at hpair
        exact (cleanup_suffix s').trans hpair
      · rename_i pair s' heq
        rw [heq] at hpair
        cases s' with
        | nil => exact List.nil_suffix
        | cons ch s' =>
            have hmore := (List.suffix_cons ch s').trans hpair
            simp only
            split_ifs
            · exact (ih _ s').trans hmore
            · exact (closeList_suffix _ _ s').trans hmore
            · exact (cleanup_suffix s').trans hmore

theorem parseWrite_suffix (maxPairs : Nat) (s : Stream) : (parseWrite maxPairs s).rest <:+ s := by
  have hfirst := readTest_suffix (· = LBRACK) s
  have hsecond := (readTest_suffix (· = LPAREN) _).trans hfirst
  unfold parseWrite
  simp only
  split_ifs
  · exact (cleanup_suffix _).trans hfirst
  · exact (cleanup_suffix _).trans hsecond
  · exact (pairsLoop_suffix _ _ _ _).trans hsecond

theorem keysLoop_suffix (maxKeys maxStringSize room : Nat) (stored : List CStr) (s : Stream) :
    (keysLoop maxKeys maxStringSize room stored s).rest <:+ s := by
  induction room generalizing stored s with
  | zero => exact closeList_suffix maxKeys stored s
  | succ room ih =>
      have hkey := readString_suffix maxStringSize s
      rw [keysLoop]
      split_ifs
      · exact (cleanup_suffix _).trans hkey
      · exact (closeList_suffix _ _ _).trans hkey
      · exact (ih _ _).trans hkey

theorem parseReadDelete_suffix (maxKeys maxStringSize : Nat) (s : Stream) :
    (parseReadDelete maxKeys maxStringSize s).rest <:+ s := by
  have hfirst := readTest_suffix (· = LBRACK) s
  unfold parseReadDelete
  simp only
  split_ifs
  · exact (cleanup_suffix _).trans hfirst
  · exact (keysLoop_suffix _ _ _ _ _).trans hfirst

theorem parseWait_suffix (wantsThreadId : Bool) (mem mem' : List Byte) (s : Stream) :
    (parseWait wantsThreadId mem mem' s).rest <:+ s := by
  have hdelay := readUint_suffix mem s
  have hthread := (readUint_suffix mem' (readUint mem s).rest).trans hdelay
  unfold parseWait
  simp only
  generalize readUint mem s = delay at hdelay hthread ⊢
  split_ifs
  · exact (cleanup_suffix _).trans hdelay
  · exact (cleanup_suffix _).trans hdelay
  · exact (cleanup_suffix _).trans hthread
  · exact hthread
  · exact hdelay
  · exact (cleanup_suffix _).trans hdelay

/-- **Every round consumes a byte.** -/
theorem jobRound_length_lt {mem : List Byte} {s s' : Stream} {command : JobCmd}
    (h : jobRound mem s = some (command, s')) : s'.length < s.length := by
  cases s with
  | nil => exact absurd h (by simp [jobRound, getNext])
  | cons ch s =>
      have hnext := getNext_suffix ch s
      -- whichever parser is selected, it only moves forward
      have hrest : s' <:+ (getNext (ch :: s)).2 := by
        unfold jobRound at h
        split at h
        all_goals rename_i u heq
        all_goals rw [heq]
        · obtain ⟨-, rfl⟩ := Prod.mk.inj (Option.some.inj h)
          exact parseWrite_suffix _ u
        · obtain ⟨-, rfl⟩ := Prod.mk.inj (Option.some.inj h)
          exact parseReadDelete_suffix _ _ u
        · obtain ⟨-, rfl⟩ := Prod.mk.inj (Option.some.inj h)
          exact parseReadDelete_suffix _ _ u
        · obtain ⟨-, rfl⟩ := Prod.mk.inj (Option.some.inj h)
          exact List.suffix_refl _
        · obtain ⟨-, rfl⟩ := Prod.mk.inj (Option.some.inj h)
          exact parseWait_suffix _ _ _ u
        · obtain ⟨-, rfl⟩ := Prod.mk.inj (Option.some.inj h)
          exact List.suffix_refl _
        · obtain ⟨-, rfl⟩ := Prod.mk.inj (Option.some.inj h)
          exact List.suffix_refl _
        · obtain ⟨-, rfl⟩ := Prod.mk.inj (Option.some.inj h)
          exact List.suffix_refl _
        · obtain ⟨-, rfl⟩ := Prod.mk.inj (Option.some.inj h)
          exact List.suffix_refl _
        · exact absurd h (by simp)
      exact Nat.lt_succ_of_le (hrest.trans hnext).length_le

/-- The loop: the commands of the rounds, and what is left when it ends. `mem i` is what round `i` finds
    on the stack. -/
def jobLoop (mem : Nat → List Byte) (s : Stream) : List JobCmd × Stream :=
  match _h : jobRound (mem 0) s with
  | none => ([], s)
  | some (command, s') =>
      let (commands, rest) := jobLoop (fun i => mem (i + 1)) s'
      (command :: commands, rest)
termination_by s.length
decreasing_by exact jobRound_length_lt _h

end Kvs.Server
