import Kvs.Correctness.Grammar

/-!
# `Correctness.RoundTrip` — the job loop reads back every well-formed job

`JobLine` is the job language: each line carries the proof that its strings, its list and its number are
within the limits of the parser. `render` writes a line as a job file spells it. Each parser stops right
behind its own newline (`jobRound_render`), so the loop recovers exactly the commands of a rendered job
and ends at the end of the text (`jobLoop_render`), whatever it finds on the stack.
-/

namespace Kvs.Server

/-! ## The job language -/

/-- A string of a job file: at most 39 bytes, no space, no delimiter, no newline, no NUL. -/
structure JobString where
  bytes : List Byte
  token : IsToken MAX_STRING_SIZE bytes
  noNewline : NL ∉ bytes
  noNul : (0 : Byte) ∉ bytes

/-- The string the program works with. -/
def JobString.str (t : JobString) : CStr := ⟨t.bytes, t.noNul⟩

/-- A list that a command may carry: its rows fit the arrays, with one to spare. -/
structure JobList (α : Type) where
  items : List α
  nonempty : items ≠ []
  length_lt : items.length < MAX_WRITE_SIZE

inductive JobLine where
  | write (pairs : JobList (JobString × JobString))
  | read (keys : JobList JobString)
  | delete (keys : JobList JobString)
  | showAll
  | backup
  | help
  | wait (delay : Nat) (inRange : delay ≤ UINT_MAX)
  | comment (text : List Byte) (oneLine : NL ∉ text)
  | blank

/-! ## Rendering -/

/-- `k,v)`: a pair behind its opening bracket. -/
def pairText (p : JobString × JobString) : List Byte :=
  p.1.bytes ++ COMMA :: (p.2.bytes ++ [RPAREN])

/-- `(k1,v1)...(kn,vn)` -/
def pairsText (pairs : List (JobString × JobString)) : List Byte :=
  pairs.flatMap (fun p => LPAREN :: pairText p)

/-- `k1,...,kn` -/
def keysText : List JobString → List Byte
  | [] => []
  | [k] => k.bytes
  | k :: keys => k.bytes ++ COMMA :: keysText keys

def JobLine.render : JobLine → List Byte
  | .write pairs => ascii "WRITE [" ++ (pairsText pairs.items ++ ascii "]\n")
  | .read keys => ascii "READ [" ++ (keysText keys.items ++ ascii "]\n")
  | .delete keys => ascii "DELETE [" ++ (keysText keys.items ++ ascii "]\n")
  | .showAll => ascii "SHOW\n"
  | .backup => ascii "BACKUP\n"
  | .help => ascii "HELP\n"
  | .wait delay _ => ascii "WAIT " ++ (decimal delay ++ ascii "\n")
  | .comment text _ => ascii "#" ++ (text ++ ascii "\n")
  | .blank => ascii "\n"

/-- What a line asks for. -/
def JobLine.command : JobLine → JobCmd
  | .write pairs => .write (pairs.items.map (fun p => (p.1.str, p.2.str)))
  | .read keys => .read (keys.items.map JobString.str)
  | .delete keys => .delete (keys.items.map JobString.str)
  | .showAll => .showAll
  | .backup => .backup
  | .help => .help
  | .wait delay _ => .wait delay
  | .comment _ _ => .empty
  | .blank => .empty

/-! ## Numbers -/

theorem digitByte_toNat {d : Nat} (h : d < 10) : (digitByte d).toNat = 48 + d := by
  show (48 + d) % 2 ^ 8 = 48 + d
  omega

theorem isDigit_decimal (n : Nat) : ∀ b ∈ decimal n, isDigit b = true := by
  intro b hb
  unfold decimal at hb
  split at hb
  · obtain rfl : b = 48 := by simpa [ascii] using hb
    rfl
  · obtain ⟨d, hd, rfl⟩ := List.mem_map.mp hb
    have hlt := Nat.digits_lt_base (by omega) (List.mem_reverse.mp hd)
    rw [isDigit_iff, digitByte_toNat hlt]
    omega

theorem digitsValue_digits {l : List Nat} (hl : ∀ d ∈ l, d < 10) :
    digitsValue (l.reverse.map digitByte) = Nat.ofDigits 10 l := by
  induction l with
  | nil => rfl
  | cons d l ih =>
      have hd := digitByte_toNat (hl d List.mem_cons_self)
      have ih' := ih (fun e he => hl e (List.mem_cons_of_mem d he))
      unfold digitsValue at ih' ⊢
      rw [List.reverse_cons, List.map_append, List.foldl_append, ih', List.map_singleton,
        List.foldl_cons, List.foldl_nil, hd, Nat.ofDigits_cons]
      omega

/-- The number written is the number read. -/
theorem digitsValue_decimal (n : Nat) : digitsValue (decimal n) = n := by
  unfold decimal
  split
  · rename_i h
    rw [h]
    rfl
  · rw [digitsValue_digits (fun d hd => Nat.digits_lt_base (by omega) hd), Nat.ofDigits_digits]

theorem decimal_ne_nil (n : Nat) : decimal n ≠ [] := by
  unfold decimal
  split
  · decide
  · rename_i hn
    simpa using Nat.digits_ne_nil_iff_ne_zero.mpr hn

/-! ## Lists -/

theorem JobString.ofBuffer (t : JobString) : CStr.ofBuffer (t.bytes ++ [0]) = t.str :=
  CStr.ofBuffer_append_nul t.str []

theorem pairsText_eq (pairs : List (JobString × JobString)) :
    pairsText pairs = entriesText (pairs.map (fun p => (p.1.str, p.2.str))) := by
  unfold pairsText entriesText
  rw [List.flatMap_map]
  rfl

theorem keysText_eq (keys : List JobString) :
    keysText keys = keyListText (keys.map JobString.bytes) := by
  induction keys with
  | nil => rfl
  | cons k keys ih =>
      cases keys with
      | nil => rfl
      | cons k' keys => exact congrArg (k.bytes ++ COMMA :: ·) ih

/-- A list accepted whole. -/
theorem accepted_all {α : Type} {l : List α} (h : l ≠ []) (command : List α → JobCmd) (s : Stream) :
    accepted ⟨l.length, l, s⟩ command = (command l, s) := by
  simp [accepted, h]

theorem JobList.length_pos {α : Type} (l : JobList α) : 1 ≤ l.items.length :=
  List.length_pos_iff.mpr l.nonempty

theorem JobList.entries (pairs : JobList (JobString × JobString)) :
    ∀ p ∈ pairs.items.map (fun p => (p.1.str, p.2.str)), IsEntry p := by
  intro p hp
  obtain ⟨q, -, rfl⟩ := List.mem_map.mp hp
  exact ⟨q.1.token, q.2.token⟩

theorem JobList.tokens (keys : JobList JobString) :
    ∀ t ∈ keys.items.map JobString.bytes, IsToken MAX_STRING_SIZE t := by
  intro t ht
  obtain ⟨k, -, rfl⟩ := List.mem_map.mp ht
  exact k.token

/-- What is stored for the keys of a list. -/
theorem JobList.stored (keys : JobList JobString) :
    (keys.items.map JobString.bytes).map keyStored = keys.items.map JobString.str := by
  rw [List.map_map]
  exact List.map_congr_left (fun k _ => k.ofBuffer)

/-- The pairs of a line up to the closing bracket. -/
theorem parseWrite_items (pairs : JobList (JobString × JobString)) (s : Stream) :
    parseWrite MAX_WRITE_SIZE (LBRACK :: (pairsText pairs.items ++ RBRACK :: s))
      = closeList MAX_WRITE_SIZE (pairs.items.map (fun p => (p.1.str, p.2.str))) s := by
  rw [pairsText_eq]
  refine parseWrite_entries ?_ pairs.entries ?_ s
  · rw [List.length_map]
    exact pairs.length_pos
  · rw [List.length_map]
    exact pairs.length_lt.le

/-- The keys of a line up to the closing bracket. -/
theorem parseReadDelete_items (keys : JobList JobString) (s : Stream) :
    parseReadDelete MAX_WRITE_SIZE MAX_STRING_SIZE
        (LBRACK :: (keysText keys.items ++ RBRACK :: s))
      = closeList MAX_WRITE_SIZE (keys.items.map JobString.str) s := by
  rw [keysText_eq, ← keys.stored]
  refine parseReadDelete_tokens ?_ keys.tokens ?_ s
  · rw [List.length_map]
    exact keys.length_pos
  · rw [List.length_map]
    exact keys.length_lt.le

theorem parseWrite_render (pairs : JobList (JobString × JobString)) (s : Stream) :
    accepted (parseWrite MAX_WRITE_SIZE (ascii "[" ++ (pairsText pairs.items ++ ascii "]\n") ++ s))
        .write
      = ((JobLine.write pairs).command, s) := by
  have htext : ascii "[" ++ (pairsText pairs.items ++ ascii "]\n") ++ s
      = LBRACK :: (pairsText pairs.items ++ RBRACK :: NL :: s) := by
    simp [ascii]
  -- the list leaves a row free, so its bracket and newline close it
  rw [htext, parseWrite_items, closeList_newline (by simpa using pairs.length_lt)]
  exact accepted_all (by simpa using pairs.nonempty) _ s

theorem parseReadDelete_render (keys : JobList JobString) (command : List CStr → JobCmd)
    (s : Stream) :
    accepted (parseReadDelete MAX_WRITE_SIZE MAX_STRING_SIZE
        (ascii "[" ++ (keysText keys.items ++ ascii "]\n") ++ s)) command
      = (command (keys.items.map JobString.str), s) := by
  have htext : ascii "[" ++ (keysText keys.items ++ ascii "]\n") ++ s
      = LBRACK :: (keysText keys.items ++ RBRACK :: NL :: s) := by
    simp [ascii]
  rw [htext, parseReadDelete_items, closeList_newline (by simpa using keys.length_lt)]
  exact accepted_all (by simpa using keys.nonempty) _ s

theorem parseWait_render {delay : Nat} (h : delay ≤ UINT_MAX) (mem mem' : List Byte) (s : Stream) :
    parseWait false mem mem' (decimal delay ++ ascii "\n" ++ s) = ⟨0, some delay, none, s⟩ := by
  have hread := readUint_digits (isDigit_decimal delay) (by decide : isDigit NL = false) mem s
  rw [digitsValue_decimal, if_neg (Nat.not_lt.mpr h)] at hread
  have htext : decimal delay ++ ascii "\n" ++ s = decimal delay ++ NL :: s := by simp [ascii]
  rw [htext, parseWait, hread]
  rfl

/-! ## The round trip -/

/-- **One line.** A round on a rendered line executes its command and stops behind its newline. -/
theorem jobRound_render (mem : List Byte) (line : JobLine) (s : Stream) :
    jobRound mem (line.render ++ s) = some (line.command, s) := by
  cases line with
  | write pairs =>
      have hnext : getNext (ascii "WRITE [" ++ (pairsText pairs.items ++ ascii "]\n") ++ s)
          = (.cmdWrite, ascii "[" ++ (pairsText pairs.items ++ ascii "]\n") ++ s) := rfl
      rw [JobLine.render, jobRound, hnext]
      show some (accepted _ _) = _
      rw [parseWrite_render]
  | read keys =>
      have hnext : getNext (ascii "READ [" ++ (keysText keys.items ++ ascii "]\n") ++ s)
          = (.cmdRead, ascii "[" ++ (keysText keys.items ++ ascii "]\n") ++ s) := rfl
      rw [JobLine.render, jobRound, hnext]
      show some (accepted _ _) = _
      rw [parseReadDelete_render]
      rfl
  | delete keys =>
      have hnext : getNext (ascii "DELETE [" ++ (keysText keys.items ++ ascii "]\n") ++ s)
          = (.cmdDelete, ascii "[" ++ (keysText keys.items ++ ascii "]\n") ++ s) := rfl
      rw [JobLine.render, jobRound, hnext]
      show some (accepted _ _) = _
      rw [parseReadDelete_render]
      rfl
  | showAll => rfl
  | backup => rfl
  | help => rfl
  | wait delay inRange =>
      have hnext : getNext (ascii "WAIT " ++ (decimal delay ++ ascii "\n") ++ s)
          = (.cmdWait, decimal delay ++ ascii "\n" ++ s) := rfl
      rw [JobLine.render, jobRound, hnext]
      simp only [parseWait_render inRange]
      rfl
  | comment text oneLine =>
      have hnext : getNext (ascii "#" ++ (text ++ ascii "\n") ++ s)
          = (.cmdEmpty, cleanup (text ++ ascii "\n" ++ s)) := rfl
      -- `cleanup` stops at the first newline, and the comment has none of its own
      have htext : text ++ ascii "\n" ++ s = text ++ NL :: s := by simp [ascii]
      rw [JobLine.render, jobRound, hnext, htext, cleanup_line oneLine]
      rfl
  | blank => rfl

theorem jobLoop_nil (mem : Nat → List Byte) : jobLoop mem [] = ([], []) := by
  rw [jobLoop]
  rfl

/-- One round of the loop, and the rounds behind it. -/
theorem jobLoop_cons {mem : Nat → List Byte} {s s' : Stream} {command : JobCmd}
    (h : jobRound (mem 0) s = some (command, s')) :
    jobLoop mem s
      = (command :: (jobLoop (fun i => mem (i + 1)) s').1, (jobLoop (fun i => mem (i + 1)) s').2) := by
  rw [jobLoop]
  split
  · rename_i hnone
    rw [h] at hnone
    exact absurd hnone (by simp)
  · rename_i command' s'' hsome
    rw [h] at hsome
    obtain ⟨rfl, rfl⟩ := Prod.mk.inj (Option.some.inj hsome)
    rfl

/-- A job up to one of its lines: the commands in front, then what the loop makes of the rest. -/
theorem jobLoop_append (mem : Nat → List Byte) (lines : List JobLine) (s : Stream) :
    jobLoop mem (lines.flatMap JobLine.render ++ s)
      = (lines.map JobLine.command ++ (jobLoop (fun i => mem (i + lines.length)) s).1,
          (jobLoop (fun i => mem (i + lines.length)) s).2) := by
  induction lines generalizing mem with
  | nil => rfl
  | cons line lines ih =>
      rw [List.flatMap_cons, List.append_assoc, jobLoop_cons (jobRound_render (mem 0) line _), ih]
      rfl

/-- **The job loop reads back every rendered job**: exactly its commands, with their arguments, and
    nothing left, whatever each round finds on the stack. -/
theorem jobLoop_render (mem : Nat → List Byte) (lines : List JobLine) :
    jobLoop mem (lines.flatMap JobLine.render) = (lines.map JobLine.command, []) := by
  have happend := jobLoop_append mem lines []
  rw [jobLoop_nil, List.append_nil, List.append_nil] at happend
  exact happend

end Kvs.Server
