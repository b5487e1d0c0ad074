import Kvs.Client.Commands
import Kvs.Correctness.RoundTrip

/-!
# `Correctness.ClientRoundTrip` — the client reads back every well-formed script

A script is a list of `ClientLine`s and perhaps a last `DISCONNECT`. `keywordD` tells a delay from a
disconnect by its first read, and the one key of a list takes the only row `parse_list` is given, which is
no error because the list ends with it (`parseList_render`). Each round stops right behind the newline of
its line (`clientRound_render`), so the loop recovers the script (`clientLoop_render`).
-/

namespace Kvs.Client

open Server (MAX_STRING_SIZE UINT_MAX JobString decimal)

/-! ## Scripts -/

inductive ClientLine where
  | subscribe (key : JobString)
  | unsubscribe (key : JobString)
  | delay (delayMs : Nat) (inRange : delayMs ≤ UINT_MAX)
  | comment (text : List Byte) (oneLine : NL ∉ text)
  | blank

def ClientLine.render : ClientLine → List Byte
  | .subscribe key => ascii "SUBSCRIBE [" ++ (key.bytes ++ ascii "]\n")
  | .unsubscribe key => ascii "UNSUBSCRIBE [" ++ (key.bytes ++ ascii "]\n")
  | .delay delayMs _ => ascii "DELAY " ++ (decimal delayMs ++ ascii "\n")
  | .comment text _ => ascii "#" ++ (text ++ ascii "\n")
  | .blank => ascii "\n"

/-- What a line asks for. -/
def ClientLine.command : ClientLine → ClientCmd
  | .subscribe key => .subscribe key.str
  | .unsubscribe key => .unsubscribe key.str
  | .delay delayMs _ => .delay delayMs
  | .comment _ _ => .empty
  | .blank => .empty

/-- The last line, and whatever the input holds behind it. -/
def lastText (disconnects : Bool) (rest : Stream) : Stream :=
  if disconnects then ascii "DISCONNECT\n" ++ rest else []

/-! ## One line -/

/-- The list of one key. -/
theorem parseList_render (key : JobString) (command : CStr → ClientCmd) (s : Stream) :
    accepted (parseList 1 MAX_STRING_SIZE (ascii "[" ++ (key.bytes ++ ascii "]\n") ++ s)) command
      = (command key.str, s) := by
  have htext : ascii "[" ++ (key.bytes ++ ascii "]\n") ++ s
      = LBRACK :: (key.bytes ++ RBRACK :: NL :: s) := by
    simp [ascii]
  have hread : readString MAX_STRING_SIZE (key.bytes ++ RBRACK :: NL :: s)
      = ⟨2, key.bytes ++ [0], NL :: s⟩ := by
    rw [readString_eq]
    exact @Server.readString_token _ key.bytes key.token RBRACK 2 (by simp) (NL :: s)
  have hlist : parseList 1 MAX_STRING_SIZE (LBRACK :: (key.bytes ++ RBRACK :: NL :: s))
      = listLoop 1 MAX_STRING_SIZE 1 2 [] (key.bytes ++ RBRACK :: NL :: s) := rfl
  rw [htext, hlist, listLoop, hread]
  show (command (CStr.ofBuffer (key.bytes ++ [0])), s) = _
  rw [key.ofBuffer]

theorem parseDelay_render {delayMs : Nat} (h : delayMs ≤ UINT_MAX) (mem : List Byte) (s : Stream) :
    parseDelay mem (decimal delayMs ++ ascii "\n" ++ s) = ⟨0, some delayMs, s⟩ := by
  have hread := Server.readUint_digits (Server.isDigit_decimal delayMs)
    (by decide : Server.isDigit NL = false) mem s
  rw [Server.digitsValue_decimal, if_neg (Nat.not_lt.mpr h)] at hread
  have htext : decimal delayMs ++ ascii "\n" ++ s = decimal delayMs ++ NL :: s := by simp [ascii]
  rw [htext, parseDelay, readUint_eq, hread]
  rfl

/-- **One line.** A round on a rendered line executes its command and stops behind its newline. -/
theorem clientRound_render (mem : List Byte) (line : ClientLine) (s : Stream) :
    clientRound mem (line.render ++ s) = some (line.command, s) := by
  cases line with
  | subscribe key =>
      have hnext : getNext (ascii "SUBSCRIBE [" ++ (key.bytes ++ ascii "]\n") ++ s)
          = (.cmdSubscribe, ascii "[" ++ (key.bytes ++ ascii "]\n") ++ s) := rfl
      rw [ClientLine.render, clientRound, hnext]
      show some (accepted _ _) = _
      rw [parseList_render]
      rfl
  | unsubscribe key =>
      have hnext : getNext (ascii "UNSUBSCRIBE [" ++ (key.bytes ++ ascii "]\n") ++ s)
          = (.cmdUnsubscribe, ascii "[" ++ (key.bytes ++ ascii "]\n") ++ s) := rfl
      rw [ClientLine.render, clientRound, hnext]
      show some (accepted _ _) = _
      rw [parseList_render]
      rfl
  | delay delayMs inRange =>
      have hnext : getNext (ascii "DELAY " ++ (decimal delayMs ++ ascii "\n") ++ s)
          = (.cmdDelay, decimal delayMs ++ ascii "\n" ++ s) := rfl
      rw [ClientLine.render, clientRound, hnext]
      simp only [parseDelay_render inRange]
      rfl
  | comment text oneLine =>
      have hnext : getNext (ascii "#" ++ (text ++ ascii "\n") ++ s)
          = (.cmdEmpty, cleanup (text ++ ascii "\n" ++ s)) := rfl
      have htext : text ++ ascii "\n" ++ s = text ++ NL :: s := by simp [ascii]
      rw [ClientLine.render, clientRound, hnext, htext, cleanup_eq, Server.cleanup_line oneLine]
      rfl
  | blank => rfl

/-- No line of a script but the last disconnects. -/
theorem ClientLine.command_ne_disconnect (line : ClientLine) : line.command ≠ .disconnect := by
  cases line with
  | subscribe key => exact ClientCmd.noConfusion
  | unsubscribe key => exact ClientCmd.noConfusion
  | delay delayMs inRange => exact ClientCmd.noConfusion
  | comment text oneLine => exact ClientCmd.noConfusion
  | blank => exact ClientCmd.noConfusion

/-! ## The round trip -/

/-- The loop at the end of the input, where it waits for commands that do not come. -/
theorem clientLoop_nil (mem : Nat → List Byte) : clientLoop mem [] = ([], []) := by
  rw [clientLoop]
  rfl

/-- What the loop makes of one round: nothing is read behind a `DISCONNECT`. -/
theorem clientLoop_round {mem : Nat → List Byte} {s s' : Stream} {command : ClientCmd}
    (h : clientRound (mem 0) s = some (command, s')) :
    clientLoop mem s
      = if command = .disconnect then ([command], s')
        else (command :: (clientLoop (fun i => mem (i + 1)) s').1,
          (clientLoop (fun i => mem (i + 1)) s').2) := by
  rw [clientLoop]
  split
  · rename_i hnone
    rw [h] at hnone
    exact absurd hnone (by simp)
  · rename_i command' s'' hsome
    rw [h] at hsome
    obtain ⟨rfl, rfl⟩ := Prod.mk.inj (Option.some.inj hsome)
    by_cases hcommand : command = .disconnect
    · rw [if_pos hcommand, if_pos hcommand, hcommand]
    · rw [if_neg hcommand, if_neg hcommand]

/-- One round of the loop, and the rounds behind it. -/
theorem clientLoop_cons {mem : Nat → List Byte} {s s' : Stream} {command : ClientCmd}
    (h : clientRound (mem 0) s = some (command, s')) (hgoesOn : command ≠ .disconnect) :
    clientLoop mem s
      = (command :: (clientLoop (fun i => mem (i + 1)) s').1,
          (clientLoop (fun i => mem (i + 1)) s').2) := by
  rw [clientLoop_round h, if_neg hgoesOn]

theorem clientLoop_disconnect {mem : Nat → List Byte} {s s' : Stream}
    (h : clientRound (mem 0) s = some (.disconnect, s')) : clientLoop mem s = ([.disconnect], s') := by
  rw [clientLoop_round h, if_pos rfl]

/-- **The client reads back every rendered script**: exactly its commands, with their keys and delays, and
    exactly its lines. Behind a `DISCONNECT` it reads nothing. -/
theorem clientLoop_render (mem : Nat → List Byte) (lines : List ClientLine) (disconnects : Bool)
    (rest : Stream) :
    clientLoop mem (lines.flatMap ClientLine.render ++ lastText disconnects rest)
      = (lines.map ClientLine.command ++ (if disconnects then [.disconnect] else []),
          if disconnects then rest else []) := by
  induction lines generalizing mem with
  | nil =>
      cases disconnects with
      | false => exact clientLoop_nil mem
      | true => exact clientLoop_disconnect rfl
  | cons line lines ih =>
      rw [List.flatMap_cons, List.append_assoc,
        clientLoop_cons (clientRound_render (mem 0) line _) line.command_ne_disconnect, ih]
      rfl

end Kvs.Client
