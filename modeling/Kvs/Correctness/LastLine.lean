import Kvs.Correctness.RoundTrip

/-!
# `Correctness.LastLine` — a job whose last line has no newline

`get_next` takes the end of the file for the end of a `SHOW`, a `BACKUP` or a `HELP`. The parsers of the
lists do not: they ask for one more byte, and reject the command when there is none, although the test
behind it accepts a NUL. `read_uint` does end at the end of the file, but stores no NUL behind the digits,
so that `strtoul` reads on through those its buffer holds there. `EndsAtEof` says when the last command
comes out the same, and `jobLoop_unended_iff` that this is exactly when the job does.
-/

namespace Kvs.Server

/-- The line without its newline. -/
def JobLine.unended (line : JobLine) : List Byte := line.render.dropLast

theorem unended_eq {line : JobLine} {text : List Byte} (h : line.render = text ++ [NL]) :
    line.unended = text := by
  rw [JobLine.unended, h, List.dropLast_concat]

/-- The digits a buffer holds behind its first `n` bytes: those `strtoul` reads on through. -/
def digitsBehind (n : Nat) (mem : List Byte) : List Byte := (mem.drop n).takeWhile isDigit

/-- The end of the file ends the line as a newline does, when the buffer of `read_uint` holds `mem`. -/
def JobLine.EndsAtEof (mem : List Byte) : JobLine → Prop
  | .write _ => False
  | .read _ => False
  | .delete _ => False
  | .showAll => True
  | .backup => True
  | .help => True
  | .wait delay _ =>
      digitsBehind (decimal delay).length mem = [] ∨
        delay = 0 ∧ ∀ b ∈ digitsBehind (decimal delay).length mem, b = 48
  | .comment _ _ => True
  | .blank => False

/-! ## Numbers -/

theorem digitsValue_foldl (es : List Byte) (n : Nat) :
    es.foldl (fun n d => 10 * n + (d.toNat - 48)) n = n * 10 ^ es.length + digitsValue es := by
  induction es generalizing n with
  | nil => simp [digitsValue]
  | cons e es ih =>
      have hvalue : digitsValue (e :: es) = (e.toNat - 48) * 10 ^ es.length + digitsValue es := by
        unfold digitsValue
        rw [List.foldl_cons, ih, Nat.mul_zero, Nat.zero_add]
        rfl
      rw [List.foldl_cons, ih, hvalue, List.length_cons, pow_succ]
      ring

theorem digitsValue_append (ds es : List Byte) :
    digitsValue (ds ++ es) = digitsValue ds * 10 ^ es.length + digitsValue es := by
  rw [digitsValue, List.foldl_append, digitsValue_foldl]
  rfl

/-- Digits denote 0 only when all are zeros. -/
theorem digitsValue_eq_zero_iff {es : List Byte} (hes : ∀ b ∈ es, isDigit b = true) :
    digitsValue es = 0 ↔ ∀ b ∈ es, b = 48 := by
  induction es with
  | nil => simp [digitsValue]
  | cons e es ih =>
      obtain ⟨he, hrest⟩ := List.forall_mem_cons.mp hes
      have hrange := (isDigit_iff e).mp he
      have hsplit := digitsValue_append [e] es
      have hone : digitsValue [e] = e.toNat - 48 := by simp [digitsValue]
      have hpow : 0 < 10 ^ es.length := Nat.pow_pos (by decide)
      rw [List.singleton_append, hone] at hsplit
      rw [hsplit, Nat.add_eq_zero_iff, Nat.mul_eq_zero, ih hrest, List.forall_mem_cons]
      constructor
      · rintro ⟨hzero | hzero, hrest⟩
        · refine ⟨UInt8.toNat_inj.mp ?_, hrest⟩
          show e.toNat = 48
          omega
        · omega
      · rintro ⟨rfl, hrest⟩
        exact ⟨Or.inl rfl, hrest⟩

/-- Digits behind a number leave it as it is only when there are none, or when all is zero. -/
theorem digitsValue_behind_iff {es : List Byte} (hes : ∀ b ∈ es, isDigit b = true) (n : Nat) :
    n * 10 ^ es.length + digitsValue es = n ↔ es = [] ∨ n = 0 ∧ ∀ b ∈ es, b = 48 := by
  constructor
  · intro h
    cases es with
    | nil => exact Or.inl rfl
    | cons e es =>
        right
        have hpow : 10 ≤ 10 ^ (e :: es).length := Nat.le_self_pow (by simp) 10
        have hle : n * 10 ≤ n * 10 ^ (e :: es).length := Nat.mul_le_mul_left n hpow
        have hn : n = 0 := by omega
        have hvalue : digitsValue (e :: es) = 0 := by
          rw [hn] at h
          omega
        exact ⟨hn, (digitsValue_eq_zero_iff hes).mp hvalue⟩
  · rintro (rfl | ⟨rfl, hzero⟩)
    · simp [digitsValue]
    · rw [(digitsValue_eq_zero_iff hes).mpr hzero, Nat.zero_mul]

/-- `read_uint` at digits that end the file. -/
theorem readUint_end {ds : List Byte} (hds : ∀ b ∈ ds, isDigit b = true) (hne : ds ≠ [])
    (mem : List Byte) :
    readUint mem ds
      = if digitsValue (ds ++ digitsBehind ds.length mem) > UINT_MAX then ⟨1, none, 0, ds, []⟩
        else ⟨0, some (digitsValue (ds ++ digitsBehind ds.length mem)), 0, ds, []⟩ := by
  unfold readUint
  rw [readDigits_end hds]
  simp only [strtoul_append hds hne]
  exact readUint_range _ 0 ds []

/-- `parse_wait` there: the number is in range, or the command is rejected. -/
theorem parseWait_end {ds : List Byte} (hds : ∀ b ∈ ds, isDigit b = true) (hne : ds ≠ [])
    (mem mem' : List Byte) :
    parseWait false mem mem' ds
      = if digitsValue (ds ++ digitsBehind ds.length mem) > UINT_MAX then ⟨-1, none, none, []⟩
        else ⟨0, some (digitsValue (ds ++ digitsBehind ds.length mem)), none, []⟩ := by
  unfold parseWait
  rw [readUint_end hds hne]
  split
  · rfl
  · rfl

/-! ## The last round -/

theorem cleanup_end {L : List Byte} (hL : NL ∉ L) : cleanup L = [] := by
  induction L with
  | nil => rfl
  | cons b L ih =>
      rw [List.mem_cons, not_or] at hL
      rw [cleanup, if_neg (fun hb => hL.1 hb.symm), ih hL.2]

/-- At the end of the file a list is rejected. -/
theorem closeList_end {α : Type} (max : Nat) (stored : List α) :
    closeList max stored [] = ⟨0, stored, []⟩ := by
  unfold closeList
  split <;> rfl

theorem accepted_none {α : Type} (stored : List α) (command : List α → JobCmd) :
    accepted ⟨0, stored, []⟩ command = (.invalid, []) := rfl

theorem jobRound_unended_write (mem : List Byte) (pairs : JobList (JobString × JobString)) :
    jobRound mem (JobLine.write pairs).unended = some (.invalid, []) := by
  have htext : (JobLine.write pairs).unended
      = ascii "WRITE " ++ LBRACK :: (pairsText pairs.items ++ [RBRACK]) :=
    unended_eq (by simp [JobLine.render, ascii])
  have hnext : getNext (ascii "WRITE " ++ LBRACK :: (pairsText pairs.items ++ [RBRACK]))
      = (.cmdWrite, LBRACK :: (pairsText pairs.items ++ [RBRACK])) := rfl
  rw [htext, jobRound, hnext]
  show some (accepted _ _) = _
  rw [parseWrite_items, closeList_end, accepted_none]

/-- A list of keys behind a keyword that calls for one. -/
theorem accepted_unended_keys (keys : JobList JobString) (command : List CStr → JobCmd) :
    accepted (parseReadDelete MAX_WRITE_SIZE MAX_STRING_SIZE
      (LBRACK :: (keysText keys.items ++ [RBRACK]))) command = (.invalid, []) := by
  rw [parseReadDelete_items, closeList_end, accepted_none]

theorem jobRound_unended_read (mem : List Byte) (keys : JobList JobString) :
    jobRound mem (JobLine.read keys).unended = some (.invalid, []) := by
  have htext : (JobLine.read keys).unended
      = ascii "READ " ++ LBRACK :: (keysText keys.items ++ [RBRACK]) :=
    unended_eq (by simp [JobLine.render, ascii])
  have hnext : getNext (ascii "READ " ++ LBRACK :: (keysText keys.items ++ [RBRACK]))
      = (.cmdRead, LBRACK :: (keysText keys.items ++ [RBRACK])) := rfl
  rw [htext, jobRound, hnext]
  show some (accepted _ _) = _
  rw [accepted_unended_keys]

theorem jobRound_unended_delete (mem : List Byte) (keys : JobList JobString) :
    jobRound mem (JobLine.delete keys).unended = some (.invalid, []) := by
  have htext : (JobLine.delete keys).unended
      = ascii "DELETE " ++ LBRACK :: (keysText keys.items ++ [RBRACK]) :=
    unended_eq (by simp [JobLine.render, ascii])
  have hnext : getNext (ascii "DELETE " ++ LBRACK :: (keysText keys.items ++ [RBRACK]))
      = (.cmdDelete, LBRACK :: (keysText keys.items ++ [RBRACK])) := rfl
  rw [htext, jobRound, hnext]
  show some (accepted _ _) = _
  rw [accepted_unended_keys]

/-- A `WAIT` waits for the number of all the digits `strtoul` finds. -/
theorem jobRound_unended_wait (mem : List Byte) (delay : Nat) (inRange : delay ≤ UINT_MAX) :
    ∃ command, jobRound mem (JobLine.wait delay inRange).unended = some (command, []) ∧
      (command = .wait delay ↔ (JobLine.wait delay inRange).EndsAtEof mem) := by
  have htext : (JobLine.wait delay inRange).unended = ascii "WAIT " ++ decimal delay :=
    unended_eq (by simp [JobLine.render, ascii])
  have hnext : getNext (ascii "WAIT " ++ decimal delay) = (.cmdWait, decimal delay) := rfl
  have hwait := parseWait_end (isDigit_decimal delay) (decimal_ne_nil delay) mem []
  have hdigits : ∀ b ∈ digitsBehind (decimal delay).length mem, isDigit b = true :=
    fun b hb => List.mem_takeWhile_imp hb
  have hsame : _ ↔ (JobLine.wait delay inRange).EndsAtEof mem :=
    digitsValue_behind_iff hdigits delay
  rw [digitsValue_append, digitsValue_decimal] at hwait
  rw [htext, jobRound, hnext]
  simp only [hwait]
  rw [← hsame]
  generalize delay * 10 ^ (digitsBehind (decimal delay).length mem).length
    + digitsValue (digitsBehind (decimal delay).length mem) = n
  split
  · -- the number is out of range, so it is another
    rename_i hbig
    refine ⟨.invalid, rfl, ?_⟩
    simp only [reduceCtorEq, false_iff]
    rintro rfl
    exact absurd hbig (by omega)
  · refine ⟨.wait n, rfl, ?_⟩
    rw [JobCmd.wait.injEq]

/-- **The last line.** Behind the commands in front of it, the loop finds its command exactly when the
    end of the file ends it. -/
theorem jobLoop_last_iff (mem : Nat → List Byte) (last : JobLine) :
    (jobLoop mem last.unended).1 = [last.command] ↔ last.EndsAtEof (mem 0) := by
  -- after a round that reaches the end of the file the loop ends
  have hround : ∀ {command : JobCmd}, jobRound (mem 0) last.unended = some (command, []) →
      (jobLoop mem last.unended).1 = [command] := by
    intro command hcommand
    rw [jobLoop_cons hcommand, jobLoop_nil]
  cases last with
  | write pairs =>
      rw [hround (jobRound_unended_write (mem 0) pairs)]
      simp [JobLine.command, JobLine.EndsAtEof]
  | read keys =>
      rw [hround (jobRound_unended_read (mem 0) keys)]
      simp [JobLine.command, JobLine.EndsAtEof]
  | delete keys =>
      rw [hround (jobRound_unended_delete (mem 0) keys)]
      simp [JobLine.command, JobLine.EndsAtEof]
  | showAll =>
      rw [@hround .showAll rfl]
      simp [JobLine.command, JobLine.EndsAtEof]
  | backup =>
      rw [@hround .backup rfl]
      simp [JobLine.command, JobLine.EndsAtEof]
  | help =>
      rw [@hround .help rfl]
      simp [JobLine.command, JobLine.EndsAtEof]
  | wait delay inRange =>
      obtain ⟨command, hcommand, hiff⟩ := jobRound_unended_wait (mem 0) delay inRange
      rw [hround hcommand, ← hiff]
      simp [JobLine.command]
  | comment text oneLine =>
      have htext : (JobLine.comment text oneLine).unended = ascii "#" ++ text :=
        unended_eq (by simp [JobLine.render, ascii])
      have hcomment : jobRound (mem 0) (JobLine.comment text oneLine).unended
          = some (.empty, []) := by
        rw [htext]
        show some (JobCmd.empty, cleanup text) = _
        rw [cleanup_end oneLine]
      rw [hround hcomment]
      simp [JobLine.command, JobLine.EndsAtEof]
  | blank =>
      show (jobLoop mem []).1 = _ ↔ _
      rw [jobLoop_nil]
      simp [JobLine.EndsAtEof]

/-- **The end of a job without its newline.** The loop recognises the same commands with the same
    arguments as with the newline exactly when the end of the file ends the last line. -/
theorem jobLoop_unended_iff (mem : Nat → List Byte) (lines : List JobLine) (last : JobLine) :
    (jobLoop mem (lines.flatMap JobLine.render ++ last.unended)).1
        = (jobLoop mem ((lines ++ [last]).flatMap JobLine.render)).1
      ↔ last.EndsAtEof (mem lines.length) := by
  have hended := jobLoop_append mem (lines ++ [last]) []
  rw [jobLoop_nil, List.append_nil, List.append_nil] at hended
  rw [hended, jobLoop_append, List.map_append, List.append_cancel_left_eq]
  have hlast := jobLoop_last_iff (fun i => mem (i + lines.length)) last
  rw [Nat.zero_add] at hlast
  exact hlast

/-- A list of one key, as a job whose only line has no newline, and as one whose line has it. -/
theorem read_unended_invalid :
    (jobLoop (fun _ => []) (ascii "READ [a]")).1 = [.invalid] ∧
      (jobLoop (fun _ => []) (ascii "READ [a]\n")).1 = [.read [CStr.ofBuffer (ascii "a")]] := by
  have hunended : jobRound [] (ascii "READ [a]") = some (.invalid, []) := by decide
  have hended : jobRound [] (ascii "READ [a]\n")
      = some (.read [CStr.ofBuffer (ascii "a")], []) := by decide
  constructor
  · rw [@jobLoop_cons (fun _ => []) _ _ _ hunended, jobLoop_nil]
  · rw [@jobLoop_cons (fun _ => []) _ _ _ hended, jobLoop_nil]

end Kvs.Server
