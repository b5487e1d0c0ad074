import Kvs.Client.Parser

/-!
# `Client.Commands` — the commands of the client on its standard input

`get_next`, `parse_delay` and the loop of `main` around them. A `read` gives the bytes asked for whenever
that many remain. The loop ends at a `DISCONNECT`. At the end of the input it asks for the next command
forever, and no more is read.
-/

namespace Kvs.Client

open Server (MAX_STRING_SIZE UINT_MAX Parsed ReadUint strtoul)

/-! ## Numbers -/

/-- The loop of `read_uint`: the bytes stored in `buf`, `*next`, and what is left. -/
def readDigits : Stream → List Byte × Byte × Stream
  | [] => ([], 0, [])
  | ch :: s =>
      if ch.toNat > 57 ∨ ch.toNat < 48 then ([0], ch, s)
      else
        let (stored, next, rest) := readDigits s
        (ch :: stored, next, rest)

/-- `read_uint`; `mem` is what `buf` holds before. -/
def readUint (mem : List Byte) (s : Stream) : ReadUint :=
  let (stored, next, rest) := readDigits s
  let ul := strtoul (stored ++ mem.drop stored.length)
  if ul > UINT_MAX then ⟨1, none, next, stored, rest⟩
  else ⟨0, some ul, next, stored, rest⟩

/-- What `parse_delay` returns, the number it has stored, and what is left. -/
structure ParsedDelay where
  ret : Int
  delay : Option Nat
  rest : Stream
  deriving DecidableEq

/-- `parse_delay`; it asks for no particular byte behind the number. -/
def parseDelay (mem : List Byte) (s : Stream) : ParsedDelay :=
  let delay := readUint mem s
  if delay.ret ≠ 0 then ⟨-1, delay.value, cleanup delay.rest⟩
  else ⟨0, delay.value, delay.rest⟩

/-! ## `get_next` -/

inductive Command where
  | cmdDisconnect
  | cmdSubscribe
  | cmdUnsubscribe
  | cmdDelay
  | cmdEmpty
  | cmdInvalid
  | eoc
  deriving DecidableEq, Repr

/-- The cases `'S'` and `'U'`: the rest of a keyword that ends with a space. -/
def keywordSpace (keyword : List Byte) (command : Command) (s : Stream) : Command × Stream :=
  let (buf, s) := readBytes s (keyword.length - 1)
  if buf.length ≠ keyword.length - 1 ∨
      strncmp (keyword.take 1 ++ buf) keyword keyword.length ≠ 0 then (.cmdInvalid, cleanup s)
  else (command, s)

/-- The case `'D'`: five more bytes decide for `DELAY`, four more for `DISCONNECT`, which ends with a
    newline or the end of the input. -/
def keywordD (s : Stream) : Command × Stream :=
  let (buf, s) := readBytes s 5
  if buf.length ≠ 5 ∨ strncmp (ascii "D" ++ buf) (ascii "DELAY ") 6 ≠ 0 then
    let (buf', s) := readBytes s 4
    if buf'.length ≠ 4 ∨ strncmp (ascii "D" ++ (buf ++ buf')) (ascii "DISCONNECT") 10 ≠ 0 then
      (.cmdInvalid, cleanup s)
    else
      match s with
      | [] => (.cmdDisconnect, [])
      | ch :: s => if ch ≠ NL then (.cmdInvalid, cleanup s) else (.cmdDisconnect, s)
  else (.cmdDelay, s)

def getNext : Stream → Command × Stream
  | [] => (.eoc, [])
  | ch :: s =>
      if ch = 83 then keywordSpace (ascii "SUBSCRIBE ") .cmdSubscribe s
      else if ch = 85 then keywordSpace (ascii "UNSUBSCRIBE ") .cmdUnsubscribe s
      else if ch = 68 then keywordD s
      else if ch = HASH then (.cmdEmpty, cleanup s)
      else if ch = NL then (.cmdEmpty, s)
      else (.cmdInvalid, cleanup s)

/-! ## The loop of `main` -/

/-- What a round of the loop executes; `invalid` prints the message for an invalid command. -/
inductive ClientCmd where
  | subscribe (key : CStr)
  | unsubscribe (key : CStr)
  | delay (delayMs : Nat)
  | disconnect
  | empty
  | invalid
  deriving DecidableEq

/-- The command on `keys[0]`, or `invalid`. -/
def accepted (p : Parsed CStr) (command : CStr → ClientCmd) : ClientCmd × Stream :=
  (if p.num = 0 then .invalid else command (p.stored.headD default), p.rest)

/-- One round of the loop: the command it executes and what is left, or `none` at the end of the input.
    `mem` is what the buffer of `read_uint` finds on the stack. -/
def clientRound (mem : List Byte) (s : Stream) : Option (ClientCmd × Stream) :=
  match getNext s with
  | (.cmdDisconnect, s) => some (.disconnect, s)
  | (.cmdSubscribe, s) => some (accepted (parseList 1 MAX_STRING_SIZE s) .subscribe)
  | (.cmdUnsubscribe, s) => some (accepted (parseList 1 MAX_STRING_SIZE s) .unsubscribe)
  | (.cmdDelay, s) =>
      let p := parseDelay mem s
      some (if p.ret = -1 then .invalid else .delay (p.delay.getD 0), p.rest)
  | (.cmdInvalid, s) => some (.invalid, s)
  | (.cmdEmpty, s) => some (.empty, s)
  | (.eoc, _) => none

/-! ## The parsers move forward -/

theorem readDigits_eq (s : Stream) : readDigits s = Server.readDigits s := by
  induction s with
  | nil => rfl
  | cons ch s ih =>
      unfold readDigits Server.readDigits
      rw [ih]

theorem readUint_eq (mem : List Byte) (s : Stream) : readUint mem s = Server.readUint mem s := by
  unfold readUint Server.readUint
  rw [readDigits_eq]

theorem cleanup_suffix (s : Stream) : cleanup s <:+ s :=
  cleanup_eq s ▸ Server.cleanup_suffix s

theorem closeList_suffix (maxKeys : Nat) (output : Int) (stored : List CStr) (s : Stream) :
    (closeList maxKeys output stored s).rest <:+ s := by
  have hnewline := Server.readTest_suffix (fun ch => ch = NL || ch = 0) s
  unfold closeList
  simp only
  split_ifs
  · exact cleanup_suffix s
  · exact hnewline
  · exact (cleanup_suffix _).trans hnewline

theorem listLoop_suffix (maxKeys maxStringSize room : Nat) (output : Int) (stored : List CStr)
    (s : Stream) : (listLoop maxKeys maxStringSize room output stored s).rest <:+ s := by
  induction room generalizing output stored s with
  | zero => exact closeList_suffix maxKeys output stored s
  | succ room ih =>
      have hkey : (readString maxStringSize s).rest <:+ s :=
        readString_eq maxStringSize s ▸ Server.readString_suffix maxStringSize s
      rw [listLoop]
      split_ifs
      · exact (cleanup_suffix _).trans hkey
      · exact (closeList_suffix _ _ _ _).trans hkey
      · exact (ih _ _ _).trans hkey

theorem parseList_suffix (maxKeys maxStringSize : Nat) (s : Stream) :
    (parseList maxKeys maxStringSize s).rest <:+ s := by
  have hfirst := Server.readTest_suffix (· = LBRACK) s
  unfold parseList
  simp only
  split_ifs
  · exact (cleanup_suffix _).trans hfirst
  · exact (listLoop_suffix _ _ _ _ _ _).trans hfirst

theorem parseDelay_suffix (mem : List Byte) (s : Stream) : (parseDelay mem s).rest <:+ s := by
  have hdelay : (readUint mem s).rest <:+ s := readUint_eq mem s ▸ Server.readUint_suffix mem s
  unfold parseDelay
  simp only
  split_ifs
  · exact (cleanup_suffix _).trans hdelay
  · exact hdelay

theorem keywordSpace_suffix (keyword : List Byte) (command : Command) (s : Stream) :
    (keywordSpace keyword command s).2 <:+ s := by
  unfold keywordSpace readBytes
  simp only
  split_ifs
  · exact (cleanup_suffix _).trans (List.drop_suffix _ s)
  · exact List.drop_suffix _ s

theorem keywordD_suffix (s : Stream) : (keywordD s).2 <:+ s := by
  have hfive := List.drop_suffix 5 s
  have hnine := (List.drop_suffix 4 (s.drop 5)).trans hfive
  unfold keywordD readBytes
  simp only
  split_ifs
  · exact (cleanup_suffix _).trans hnine
  · split
    · exact List.nil_suffix
    · rename_i ch rest heq
      have hmore := (List.suffix_cons ch rest).trans (heq ▸ hnine)
      split_ifs
      · exact (cleanup_suffix _).trans hmore
      · exact hmore
  · exact hfive

theorem getNext_suffix (ch : Byte) (s : Stream) : (getNext (ch :: s)).2 <:+ s := by
  rw [getNext]
  split_ifs
  · exact keywordSpace_suffix _ _ s
  · exact keywordSpace_suffix _ _ s
  · exact keywordD_suffix s
  · exact cleanup_suffix s
  · exact List.suffix_refl s
  · exact cleanup_suffix s

/-- The position after the parser that `get_next` selects. -/
def argsRest (mem : List Byte) : Command × Stream → Stream
  | (.cmdSubscribe, s) => (parseList 1 MAX_STRING_SIZE s).rest
  | (.cmdUnsubscribe, s) => (parseList 1 MAX_STRING_SIZE s).rest
  | (.cmdDelay, s) => (parseDelay mem s).rest
  | (_, s) => s

theorem argsRest_suffix (mem : List Byte) (command : Command) (s : Stream) :
    argsRest mem (command, s) <:+ s := by
  cases command with
  | cmdSubscribe => exact parseList_suffix _ _ s
  | cmdUnsubscribe => exact parseList_suffix _ _ s
  | cmdDelay => exact parseDelay_suffix mem s
  | _ => exact List.suffix_refl s

/-- A round leaves that position. -/
theorem clientRound_rest {mem : List Byte} {s s' : Stream} {command : ClientCmd}
    (h : clientRound mem s = some (command, s')) : s' = argsRest mem (getNext s) := by
  unfold clientRound at h
  split at h
  all_goals rename_i u heq
  all_goals rw [heq]
  · exact (Prod.mk.inj (Option.some.inj h)).2.symm
  · exact (Prod.mk.inj (Option.some.inj h)).2.symm
  · exact (Prod.mk.inj (Option.some.inj h)).2.symm
  · exact (Prod.mk.inj (Option.some.inj h)).2.symm
  · exact (Prod.mk.inj (Option.some.inj h)).2.symm
  · exact (Prod.mk.inj (Option.some.inj h)).2.symm
  · exact absurd h (by simp)

/-- **Every round consumes a byte.** -/
theorem clientRound_length_lt {mem : List Byte} {s s' : Stream} {command : ClientCmd}
    (h : clientRound mem s = some (command, s')) : s'.length < s.length := by
  cases s with
  | nil => exact absurd h (by simp [clientRound, getNext])
  | cons ch s =>
      rw [clientRound_rest h]
      have hrest := argsRest_suffix mem (getNext (ch :: s)).1 (getNext (ch :: s)).2
      exact Nat.lt_succ_of_le (hrest.trans (getNext_suffix ch s)).length_le

/-- The loop: the commands of the rounds up to a `DISCONNECT` or the end of the input, and what is
    left. `mem i` is what round `i` finds on the stack. -/
def clientLoop (mem : Nat → List Byte) (s : Stream) : List ClientCmd × Stream :=
  match _h : clientRound (mem 0) s with
  | none => ([], s)
  | some (command, s') =>
      if command = .disconnect then ([.disconnect], s')
      else
        let (commands, rest) := clientLoop (fun i => mem (i + 1)) s'
        (command :: commands, rest)
termination_by s.length
decreasing_by exact clientRound_length_lt _h

end Kvs.Client
