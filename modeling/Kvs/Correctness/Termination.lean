import Kvs.Correctness.Resync
import Kvs.Correctness.RoundTrip
import Kvs.Server.Loops

/-!
# `Correctness.Termination` — the loops of the parser and of the job end

Every iteration that goes on has consumed a byte, so a loop ends within one iteration more than there are
bytes, and its result is the one of the recursive function in `Server.Parser`. The rounds of the job loop
consume a byte each (`jobRound_length_lt`), and the last one finds the end of the file.

That is so as long as the program goes on at all: the loop of `read_uint` puts its bytes into 16 places
without a look at the index, and a `WAIT` with a longer number leaves the array. `RoundsInside` asks every
round for a number that has room, and `loops_end_iff` says that the job ends exactly then.
-/

namespace Kvs.Server

open Loop Stores

/-! ## The loops of `parser.c` -/

theorem cleanup_solves : Solves cleanupBody cleanup := by
  intro s
  cases s with
  | nil => rfl
  | cons ch s =>
      rw [cleanup, cleanupBody]
      by_cases hnl : ch = NL
      · rw [if_pos hnl, if_neg (not_not.mpr hnl)]
      · rw [if_neg hnl, if_pos hnl]

theorem cleanup_ends (s : Stream) : iterate cleanupBody (s.length + 1) s = some (cleanup s) := by
  refine iterate_eq cleanup_solves List.length ?_ (Nat.lt_succ_self _)
  intro s s' h
  cases s with
  | nil => exact absurd h (by simp [cleanupBody])
  | cons ch s =>
      unfold cleanupBody at h
      simp only at h
      split_ifs at h
      obtain rfl := Sum.inl.inj h
      exact Nat.lt_succ_self _

/-- `read_string` from the iteration on that finds these bytes stored. -/
def readStringBehind (max : Nat) (a : List Byte × Stream) : ReadString :=
  { readString (max - a.1.length) a.2 with
    buffer := a.1 ++ (readString (max - a.1.length) a.2).buffer }

theorem readString_solves (max : Nat) : Solves (readStringBody max) (readStringBehind max) := by
  rintro ⟨stored, s⟩
  unfold readStringBody readStringBehind
  simp only
  by_cases hi : stored.length < max
  · obtain ⟨n, hn⟩ : ∃ n, max - stored.length = n + 1 := ⟨max - stored.length - 1, by omega⟩
    rw [if_pos hi, hn]
    cases s with
    | nil => simp [readString]
    | cons ch s =>
        rw [readString]
        simp only
        split_ifs with hsp hcomma hrparen hrbrack
        · simp
        · rfl
        · rfl
        · rfl
        · -- one more byte is stored
          have hn' : max - (stored ++ [ch]).length = n := by
            rw [List.length_append, List.length_singleton]
            omega
          simp only [hn', List.append_assoc, List.singleton_append]
  · have hn : max - stored.length = 0 := by omega
    rw [if_neg hi, hn]
    rfl

theorem readString_ends (max : Nat) (s : Stream) :
    iterate (readStringBody max) (s.length + 1) ([], s) = some (readString max s) := by
  have h := @iterate_eq _ _ _ _ (readString_solves max) (fun a => a.2.length) ?_ (s.length + 1) ([], s)
    (Nat.lt_succ_self _)
  · rw [h]
    rfl
  · rintro ⟨stored, s⟩ a h
    unfold readStringBody at h
    simp only at h
    split_ifs at h
    cases s with
    | nil => exact absurd h (by simp)
    | cons ch s =>
        simp only at h
        split_ifs at h
        obtain rfl := Sum.inl.inj h
        exact Nat.lt_succ_self _

theorem readDigits_solves : Solves readDigitsBodyAt (fun a => readDigitsFrom a.1 a.2.1 a.2.2) := by
  rintro ⟨i, buf, s⟩
  cases s with
  | nil => rfl
  | cons ch s =>
      simp only [readDigitsBodyAt, readDigitsFrom]
      cases store buf i ch with
      | none => rfl
      | some buf =>
          simp only [Option.bind_some]
          split_ifs <;> rfl

theorem readDigits_ends (buf : List Byte) (s : Stream) :
    iterate readDigitsBodyAt (s.length + 1) (0, buf, s) = some (readDigitsFrom 0 buf s) := by
  refine @iterate_eq _ _ _ _ readDigits_solves (fun a => a.2.2.length) ?_ (s.length + 1) (0, buf, s)
    (Nat.lt_succ_self _)
  rintro ⟨i, buf, s⟩ a h
  cases s with
  | nil => exact absurd h (by simp [readDigitsBodyAt])
  | cons ch s =>
      unfold readDigitsBodyAt at h
      simp only at h
      split at h
      · exact absurd h (by simp)
      · split_ifs at h
        obtain rfl := Sum.inl.inj h
        exact Nat.lt_succ_self _

theorem pairs_solves (maxPairs : Nat) : Solves (pairsBody maxPairs)
    (fun a => pairsLoop maxPairs (maxPairs - a.1.length) a.1 a.2) := by
  rintro ⟨stored, s⟩
  unfold pairsBody
  simp only
  by_cases hi : stored.length < maxPairs
  · obtain ⟨n, hn⟩ : ∃ n, maxPairs - stored.length = n + 1 := ⟨maxPairs - stored.length - 1, by omega⟩
    rw [if_pos hi, hn, pairsLoop]
    rcases parsePair s with ⟨_ | pair, s⟩
    · rfl
    · cases s with
      | nil => rfl
      | cons ch s =>
          simp only
          split_ifs with hlparen hrbrack
          · -- one more pair is stored
            have hn' : maxPairs - (stored ++ [pair]).length = n := by
              rw [List.length_append, List.length_singleton]
              omega
            simp only [hn']
          · rfl
          · rfl
  · have hn : maxPairs - stored.length = 0 := by omega
    rw [if_neg hi, hn]
    rfl

theorem pairs_end (maxPairs : Nat) (s : Stream) :
    iterate (pairsBody maxPairs) (s.length + 1) ([], s) = some (pairsLoop maxPairs maxPairs [] s) := by
  refine @iterate_eq _ _ _ _ (pairs_solves maxPairs) (fun a => a.2.length) ?_ (s.length + 1) ([], s)
    (Nat.lt_succ_self _)
  rintro ⟨stored, s⟩ a h
  have hpair := (parsePair_suffix s).length_le
  unfold pairsBody at h
  simp only at h
  split_ifs at h
  generalize parsePair s = p at hpair h
  rcases p with ⟨_ | pair, s'⟩
  · exact absurd h (by simp)
  · cases s' with
    | nil => exact absurd h (by simp)
    | cons ch s' =>
        simp only at h
        split_ifs at h
        obtain rfl := Sum.inl.inj h
        exact hpair

/-- A key that is followed by another one took at least its comma. -/
theorem readString_delimiter_lt {max : Nat} {s : Stream} (h : 0 ≤ (readString max s).value) :
    (readString max s).rest.length < s.length := by
  induction max generalizing s with
  | zero => exact absurd h (by simp [readString])
  | succ max ih =>
      cases s with
      | nil => exact absurd h (by simp [readString])
      | cons ch s =>
          unfold readString at h ⊢
          split_ifs at h ⊢
          · exact Nat.lt_succ_self _
          · exact Nat.lt_succ_self _
          · exact Nat.lt_succ_self _
          · exact Nat.lt_succ_self _
          · exact Nat.lt_succ_of_lt (ih h)

theorem keys_solves (maxKeys maxStringSize : Nat) : Solves (keysBody maxKeys maxStringSize)
    (fun a => keysLoop maxKeys maxStringSize (maxKeys - a.1.length) a.1 a.2) := by
  rintro ⟨stored, s⟩
  unfold keysBody
  simp only
  by_cases hi : stored.length < maxKeys
  · obtain ⟨n, hn⟩ : ∃ n, maxKeys - stored.length = n + 1 := ⟨maxKeys - stored.length - 1, by omega⟩
    rw [if_pos hi, hn, keysLoop]
    split_ifs with hbad hlast
    · rfl
    · rfl
    · have hn' : maxKeys -
          (stored ++ [CStr.ofBuffer (readString maxStringSize s).buffer]).length = n := by
        rw [List.length_append, List.length_singleton]
        omega
      simp only [hn']
  · have hn : maxKeys - stored.length = 0 := by omega
    rw [if_neg hi, hn]
    rfl

theorem keys_end (maxKeys maxStringSize : Nat) (s : Stream) :
    iterate (keysBody maxKeys maxStringSize) (s.length + 1) ([], s)
      = some (keysLoop maxKeys maxStringSize maxKeys [] s) := by
  refine @iterate_eq _ _ _ _ (keys_solves maxKeys maxStringSize) (fun a => a.2.length) ?_
    (s.length + 1) ([], s) (Nat.lt_succ_self _)
  rintro ⟨stored, s⟩ a h
  unfold keysBody at h
  simp only at h
  split_ifs at h with hi hbad hlast
  obtain rfl := Sum.inl.inj h
  exact readString_delimiter_lt (by omega)

/-! ## The loop of the job -/

/-- Only the end of the file ends the job. -/
theorem jobRound_none_iff (mem : List Byte) (s : Stream) : jobRound mem s = none ↔ s = [] := by
  cases s with
  | nil => exact iff_of_true rfl rfl
  | cons ch s =>
      refine iff_of_false ?_ (by simp)
      intro hnone
      have hrest := jobRound_rest mem ch s
      rw [hnone] at hrest
      exact absurd hrest (by simp)

theorem job_solves (mem : Nat → List Byte) : Solves (jobBody mem)
    (fun a =>
      (a.1 ++ (jobLoop (fun i => mem (a.1.length + i)) a.2).1,
        (jobLoop (fun i => mem (a.1.length + i)) a.2).2)) := by
  rintro ⟨commands, s⟩
  unfold jobBody
  simp only
  cases hround : jobRound (mem commands.length) s with
  | none =>
      rw [(jobRound_none_iff _ s).mp hround, jobLoop_nil, List.append_nil]
  | some r =>
      obtain ⟨command, s'⟩ := r
      have hmem : (fun i => mem (commands.length + (i + 1)))
          = (fun i => mem ((commands ++ [command]).length + i)) := by
        funext i
        rw [List.length_append, List.length_singleton, Nat.add_assoc, Nat.add_comm 1 i]
      have hloop := @jobLoop_cons (fun i => mem (commands.length + i)) s s' command hround
      simp only [hmem] at hloop
      rw [hloop]
      simp

/-- At most as many rounds execute a command as there are bytes; one more finds the end. -/
theorem jobLoop_rounds (mem : Nat → List Byte) (s : Stream) :
    (jobLoop mem s).1.length ≤ s.length ∧ (jobLoop mem s).2 = [] := by
  induction hn : s.length using Nat.strong_induction_on generalizing mem s with
  | _ n ih =>
      cases hround : jobRound (mem 0) s with
      | none =>
          rw [(jobRound_none_iff _ s).mp hround, jobLoop_nil]
          exact ⟨Nat.zero_le n, rfl⟩
      | some r =>
          obtain ⟨command, s'⟩ := r
          have hlt := jobRound_length_lt hround
          rw [hn] at hlt
          obtain ⟨hrounds, hrest⟩ := ih s'.length hlt (fun i => mem (i + 1)) s' rfl
          rw [jobLoop_cons hround]
          refine ⟨?_, hrest⟩
          rw [List.length_cons]
          omega

theorem job_ends (mem : Nat → List Byte) (s : Stream) :
    iterate (jobBody mem) (s.length + 1) ([], s) = some (jobLoop mem s) := by
  have h := @iterate_eq _ _ _ _ (job_solves mem) (fun a => a.2.length) ?_ (s.length + 1) ([], s)
    (Nat.lt_succ_self _)
  · rw [h]
    simp
  · rintro ⟨commands, s⟩ a h
    unfold jobBody at h
    simp only at h
    split at h
    · exact absurd h (by simp)
    · rename_i command s' hsome
      obtain rfl := Sum.inl.inj h
      exact jobRound_length_lt hsome

/-! ## The job with the buffers of `read_uint` -/

/-- The rounds of the loop on `s`: the number of those before, and the bytes left at its start. -/
inductive RoundStart (bufs : Nat → List Byte) (s : Stream) : Nat → Stream → Prop where
  | first : RoundStart bufs s 0 s
  | next {i : Nat} {t t' : Stream} {command : JobCmd} (h : RoundStart bufs s i t)
      (hround : jobRoundAt (bufs i) t = some (some (command, t'))) : RoundStart bufs s (i + 1) t'

/-- No round that the loop comes to reads a number that leaves its buffer. -/
def RoundsInside (bufs : Nat → List Byte) (s : Stream) : Prop :=
  ∀ i t, RoundStart bufs s i t → RoundInside (bufs i) t

/-- **The job loop ends.** Every inner loop ends within one iteration more than there are bytes left, that
    of `read_uint` with all its bytes inside of its buffer. Every round consumes a byte or finds the end of
    the file, and that is found after at most one round more than there are bytes. -/
structure LoopsEnd (bufs : Nat → List Byte) (s : Stream) : Prop where
  cleanups : ∀ t, iterate cleanupBody (t.length + 1) t = some (cleanup t)
  strings : ∀ max t, iterate (readStringBody max) (t.length + 1) ([], t) = some (readString max t)
  pairs : ∀ maxPairs t, iterate (pairsBody maxPairs) (t.length + 1) ([], t)
    = some (pairsLoop maxPairs maxPairs [] t)
  keys : ∀ maxKeys maxStringSize t, iterate (keysBody maxKeys maxStringSize) (t.length + 1) ([], t)
    = some (keysLoop maxKeys maxStringSize maxKeys [] t)
  numbers : ∀ i t, RoundStart bufs s i (ascii "WAIT " ++ t) →
    ∃ r, iterate readDigitsBodyAt (t.length + 1) (0, bufs i, t) = some (some r)
  rounds : ∀ i t, RoundStart bufs s i t →
    (t = [] ∧ jobRoundAt (bufs i) t = some none) ∨
      ∃ command t', jobRoundAt (bufs i) t = some (some (command, t')) ∧ t'.length < t.length
  eoc : ∃ commands, iterate (jobBodyAt bufs) (s.length + 1) ([], s) = some (some (commands, [])) ∧
    commands.length ≤ s.length

/-- A number inside of its buffer is read to its end. -/
theorem readDigitsFrom_inside {buf : List Byte} {s : Stream} (h : NumberInside buf s) :
    ∃ r, readDigitsFrom 0 buf s = some r := by
  obtain ⟨stored, hread⟩ := readUintAt_inside h
  cases hdigits : readDigitsFrom 0 buf s with
  | none =>
      rw [readUintAt, hdigits] at hread
      exact absurd hread (by simp)
  | some r => exact ⟨r, rfl⟩

/-- With the numbers inside, the loop does what it does on the bytes alone. -/
theorem jobAt_iterate {bufs : Nat → List Byte} {s : Stream} (h : RoundsInside bufs s) (n : Nat)
    {commands : List JobCmd} {t : Stream} (hstart : RoundStart bufs s commands.length t) :
    iterate (jobBodyAt bufs) n (commands, t) = (iterate (jobBody bufs) n (commands, t)).map some := by
  induction n generalizing commands t with
  | zero => rfl
  | succ n ih =>
      have hinside := jobRoundAt_inside (h _ _ hstart)
      cases hround : jobRound (bufs commands.length) t with
      | none =>
          have hbody : jobBody bufs (commands, t) = .inr (commands, t) := by
            simp only [jobBody, hround]
          have hbodyAt : jobBodyAt bufs (commands, t) = .inr (some (commands, t)) := by
            simp only [jobBodyAt, hinside, hround]
          rw [iterate_succ_inr hbody, iterate_succ_inr hbodyAt]
          rfl
      | some r =>
          obtain ⟨command, t'⟩ := r
          rw [hround] at hinside
          have hbody : jobBody bufs (commands, t) = .inl (commands ++ [command], t') := by
            simp only [jobBody, hround]
          have hbodyAt : jobBodyAt bufs (commands, t) = .inl (commands ++ [command], t') := by
            simp only [jobBodyAt, hinside]
          rw [iterate_succ_inl hbody, iterate_succ_inl hbodyAt]
          apply ih
          rw [List.length_append, List.length_singleton]
          exact hstart.next hinside

/-- **When the job ends.** It does, and every loop in it, exactly when no `WAIT` that it comes to has a
    number that leaves the buffer of `read_uint`. -/
theorem loops_end_iff (bufs : Nat → List Byte) (s : Stream) :
    LoopsEnd bufs s ↔ RoundsInside bufs s := by
  constructor
  · intro h i t hstart
    by_contra hout
    have hnone := jobRoundAt_outside hout
    rcases h.rounds i t hstart with ⟨-, hround⟩ | ⟨command, t', hround, -⟩
    · exact absurd (hnone.symm.trans hround) (by simp)
    · exact absurd (hnone.symm.trans hround) (by simp)
  · intro h
    refine ⟨cleanup_ends, readString_ends, pairs_end, keys_end, ?_, ?_, ?_⟩
    · intro i t hstart
      obtain ⟨r, hr⟩ := readDigitsFrom_inside (h i _ hstart t rfl)
      exact ⟨r, by rw [readDigits_ends, hr]⟩
    · intro i t hstart
      rw [jobRoundAt_inside (h i t hstart)]
      cases hround : jobRound (bufs i) t with
      | none => exact Or.inl ⟨(jobRound_none_iff _ t).mp hround, rfl⟩
      | some r => exact Or.inr ⟨r.1, r.2, rfl, jobRound_length_lt hround⟩
    · obtain ⟨hrounds, hrest⟩ := jobLoop_rounds bufs s
      refine ⟨(jobLoop bufs s).1, ?_, hrounds⟩
      rw [jobAt_iterate h (s.length + 1) .first, job_ends, ← hrest]
      rfl

/-- **Sixteen digits end no job**: the newline behind them is stored behind the buffer. -/
theorem wait_sixteenDigits_unended :
    ¬ LoopsEnd (fun _ => List.replicate 16 0) (ascii "WAIT 0000000000000001\n") := by
  intro h
  have hround : jobRoundAt (List.replicate 16 0) (ascii "WAIT 0000000000000001\n") = none := by
    decide +kernel
  rcases h.rounds 0 _ .first with ⟨-, hnone⟩ | ⟨command, t', hsome, -⟩
  · exact absurd (hround.symm.trans hnone) (by simp)
  · exact absurd (hround.symm.trans hsome) (by simp)

end Kvs.Server
