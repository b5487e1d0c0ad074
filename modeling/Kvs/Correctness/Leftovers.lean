import Kvs.Correctness.RoundTrip
import Kvs.Server.Arrays

/-!
# `Correctness.Leftovers` — what earlier commands leave in the arrays is never seen

A command reads only the rows its own parser has stored. `READ` and `DELETE` sort the values left over
from earlier commands along with their keys, but the sort compares keys only and the operations look at
keys only. So a round does to the table and to the output what `Sequential.processCommand` does on the
command that `jobRound` reads from the text (`roundInto_eq`), and neither of these knows the arrays.
-/

namespace Kvs.Server

/-! ## Rows -/

theorem rows_succ {κ ν : Type*} (a : (Nat → κ) × (Nat → ν)) (n : Nat) :
    rows a (n + 1) = rows a n ++ [(a.1 n, a.2 n)] := by
  simp [rows, List.range_succ]

/-- A pair stored behind the first `num` rows. -/
theorem pairs_storePair (a : Rows) (num : Nat) (pair : CStr × CStr) :
    (a.storePair num pair).pairs (num + 1) = a.pairs num ++ [pair] := by
  have hbefore : rows ((a.storePair num pair).keys, (a.storePair num pair).values) num
      = rows (a.keys, a.values) num := by
    refine rows_congr ?_
    intro i hi
    exact ⟨Function.update_of_ne (Nat.ne_of_lt hi) _ _, Function.update_of_ne (Nat.ne_of_lt hi) _ _⟩
  unfold Rows.pairs
  rw [rows_succ, hbefore]
  simp [Rows.storePair]

theorem firstKeys_storeKey (a : Rows) (num : Nat) (key : CStr) :
    (a.storeKey num key).firstKeys (num + 1) = a.firstKeys num ++ [key] := by
  unfold Rows.firstKeys
  rw [List.range_succ, List.map_append]
  congr 1
  · apply List.map_congr_left
    intro i hi
    exact Function.update_of_ne (Nat.ne_of_lt (List.mem_range.mp hi)) _ _
  · simp [Rows.storeKey]

/-- Sorting the arrays sorts the list of their rows. -/
theorem pairs_sort (a : Rows) (num : Nat) : (a.sort num).pairs num = sortRows strcmp (a.pairs num) := by
  apply List.reverse_injective
  rw [reverse_sortRows]
  exact (rows_insertionSort a.keys a.values num).1

/-- The keys come out in the same order whatever values stand beside them. -/
theorem firstKeys_sort (a : Rows) (num : Nat) :
    (a.sort num).firstKeys num
      = (sortRows strcmp ((a.firstKeys num).map (fun k => (k, ())))).map Prod.fst := by
  have hkeys : ∀ b : Rows, b.firstKeys num = (b.pairs num).map Prod.fst := by
    intro b
    unfold Rows.firstKeys Rows.pairs rows
    rw [List.map_map]
    rfl
  have hforget := @map_sortRows _ _ _ _ _ _ _ _ _ strcmp
    (fun p : CStr × CStr => (p.1, ())) (fun _ _ => rfl) (a.pairs num)
  rw [hkeys, hkeys, pairs_sort, List.map_map]
  show _ = List.map Prod.fst (sortRows strcmp ((a.pairs num).map (fun p => (p.1, ()))))
  rw [← hforget, List.map_map]
  rfl

/-! ## The parsers -/

/-- The arrays after a parser hold the rows that `p` lists, as far as they are counted. -/
structure StoresPairs (q : ParsedInto) (p : Parsed (CStr × CStr)) : Prop where
  num : q.num = p.num
  rest : q.rest = p.rest
  rows : q.rows.pairs p.num = p.stored.take p.num

/-- The same for the rows of `keys`. -/
structure StoresKeys (q : ParsedInto) (p : Parsed CStr) : Prop where
  num : q.num = p.num
  rest : q.rest = p.rest
  rows : q.rows.firstKeys p.num = p.stored.take p.num

theorem storesPairs_rejected (a : Rows) (stored : List (CStr × CStr)) (s : Stream) :
    StoresPairs ⟨0, a, cleanup s⟩ (rejected stored s) := ⟨rfl, rfl, rfl⟩

theorem storesKeys_rejected (a : Rows) (stored : List CStr) (s : Stream) :
    StoresKeys ⟨0, a, cleanup s⟩ (rejected stored s) := ⟨rfl, rfl, rfl⟩

theorem closeInto_pairs {a : Rows} {stored : List (CStr × CStr)}
    (ha : a.pairs stored.length = stored) (max : Nat) (s : Stream) :
    StoresPairs (closeInto max stored.length a s) (closeList max stored s) := by
  unfold closeInto closeList
  split_ifs
  · exact storesPairs_rejected a stored s
  · simp only
    split_ifs
    · exact ⟨rfl, rfl, ha.trans List.take_length.symm⟩
    · exact storesPairs_rejected a stored _

theorem closeInto_keys {a : Rows} {stored : List CStr} (ha : a.firstKeys stored.length = stored)
    (max : Nat) (s : Stream) :
    StoresKeys (closeInto max stored.length a s) (closeList max stored s) := by
  unfold closeInto closeList
  split_ifs
  · exact storesKeys_rejected a stored s
  · simp only
    split_ifs
    · exact ⟨rfl, rfl, ha.trans List.take_length.symm⟩
    · exact storesKeys_rejected a stored _

/-- The loop of `parse_write`, from rows that hold the pairs stored so far. -/
theorem pairsLoopInto_stores (maxPairs : Nat) {room : Nat} {a : Rows} {stored : List (CStr × CStr)}
    (ha : a.pairs stored.length = stored) (s : Stream) :
    StoresPairs (pairsLoopInto maxPairs room stored.length a s)
      (pairsLoop maxPairs room stored s) := by
  induction room generalizing a stored s with
  | zero => exact closeInto_pairs ha maxPairs s
  | succ room ih =>
      rw [pairsLoopInto, pairsLoop]
      rcases parsePair s with ⟨_ | pair, s⟩
      · exact storesPairs_rejected a stored s
      · -- the pair goes into the row behind those stored
        have ha' : (a.storePair stored.length pair).pairs (stored ++ [pair]).length
            = stored ++ [pair] := by
          rw [List.length_append, List.length_singleton, pairs_storePair, ha]
        have hlen : (stored ++ [pair]).length = stored.length + 1 := List.length_append
        cases s with
        | nil => exact storesPairs_rejected _ (stored ++ [pair]) []
        | cons ch s =>
            simp only
            rw [← hlen]
            split_ifs
            · exact ih ha' s
            · exact closeInto_pairs ha' maxPairs s
            · exact storesPairs_rejected _ (stored ++ [pair]) s

theorem parseWriteInto_stores (maxPairs : Nat) (a : Rows) (s : Stream) :
    StoresPairs (parseWriteInto maxPairs a s) (parseWrite maxPairs s) := by
  unfold parseWriteInto parseWrite
  simp only
  split_ifs
  · exact storesPairs_rejected a [] _
  · exact storesPairs_rejected a [] _
  · exact @pairsLoopInto_stores maxPairs maxPairs a [] rfl _

/-- The loop of `parse_read_delete`, from rows that hold the keys stored so far. -/
theorem keysLoopInto_stores (maxKeys maxStringSize : Nat) {room : Nat} {a : Rows} {stored : List CStr}
    (ha : a.firstKeys stored.length = stored) (s : Stream) :
    StoresKeys (keysLoopInto maxKeys maxStringSize room stored.length a s)
      (keysLoop maxKeys maxStringSize room stored s) := by
  induction room generalizing a stored s with
  | zero => exact closeInto_keys ha maxKeys s
  | succ room ih =>
      rw [keysLoopInto, keysLoop]
      generalize readString maxStringSize s = output
      have ha' : (a.storeKey stored.length (CStr.ofBuffer output.buffer)).firstKeys
          (stored ++ [CStr.ofBuffer output.buffer]).length
          = stored ++ [CStr.ofBuffer output.buffer] := by
        rw [List.length_append, List.length_singleton, firstKeys_storeKey, ha]
      have hlen : (stored ++ [CStr.ofBuffer output.buffer]).length = stored.length + 1 :=
        List.length_append
      rw [← hlen]
      split_ifs
      · exact storesKeys_rejected a stored output.rest
      · exact closeInto_keys ha' maxKeys output.rest
      · exact ih ha' output.rest

theorem parseReadDeleteInto_stores (maxKeys maxStringSize : Nat) (a : Rows) (s : Stream) :
    StoresKeys (parseReadDeleteInto maxKeys maxStringSize a s)
      (parseReadDelete maxKeys maxStringSize s) := by
  unfold parseReadDeleteInto parseReadDelete
  simp only
  split_ifs
  · exact storesKeys_rejected a [] _
  · exact @keysLoopInto_stores maxKeys maxStringSize maxKeys a [] rfl _

/-! ## The rounds -/

/-- What a round does that others can see. -/
def Round.effect (r : Round) : Option Sequential.World × Stream := (r.world, r.rest)

/-- A round whose rows, once sorted, give the operation what the command gives it. -/
theorem runRows_effect {α : Type} {q : ParsedInto} {p : Parsed α} (hnum : q.num = p.num)
    (hrest : q.rest = p.rest) {operation : Rows → Nat → Sequential.World → Option Sequential.World}
    {command : List α → JobCmd} {mem : Nat → Garbage} {w : Sequential.World}
    (hrun : operation (q.rows.sort p.num) p.num w
      = Sequential.processCommand mem (command (p.stored.take p.num)) w) :
    (runRows operation q w).effect
      = (Sequential.processCommand mem (accepted p command).1 w, p.rest) := by
  unfold runRows accepted
  rw [hnum, ← hrest]
  by_cases hzero : p.num = 0
  · rw [if_pos hzero, if_pos hzero]
    rfl
  · rw [if_neg hzero, if_neg hzero]
    exact congrArg (fun w' => (w', q.rest)) hrun

/-- `WRITE`: the sorted pairs are those of the command. -/
theorem runRows_write {q : ParsedInto} {p : Parsed (CStr × CStr)} (h : StoresPairs q p)
    (mem : Nat → Garbage) (w : Sequential.World) :
    (runRows (fun a num => Sequential.kvsWrite (a.pairs num) mem) q w).effect
      = (Sequential.processCommand mem (accepted p .write).1 w, p.rest) := by
  apply runRows_effect h.num h.rest
  rw [pairs_sort, h.rows]
  rfl

/-- `READ` and `DELETE`: the sorted keys are those of the command. -/
theorem runRows_keys {q : ParsedInto} {p : Parsed CStr} (h : StoresKeys q p)
    {operation : List CStr → Sequential.World → Option Sequential.World}
    {command : List CStr → JobCmd} {mem : Nat → Garbage}
    (hcommand : ∀ keys w, Sequential.processCommand mem (command keys) w
      = operation ((sortRows strcmp (keys.map (fun k => (k, ())))).map Prod.fst) w)
    (w : Sequential.World) :
    (runRows (fun a num => operation (a.firstKeys num)) q w).effect
      = (Sequential.processCommand mem (accepted p command).1 w, p.rest) := by
  apply runRows_effect h.num h.rest
  rw [firstKeys_sort, h.rows, hcommand]

/-- **A round on the shared arrays** does what `processCommand` does on the command read from the text. -/
theorem roundInto_eq (stack : List Byte) (mem : Nat → Garbage) (a : Rows) (w : Sequential.World)
    (s : Stream) :
    (roundInto stack mem a w s).map Round.effect
      = (jobRound stack s).map (fun r => (Sequential.processCommand mem r.1 w, r.2)) := by
  unfold roundInto jobRound
  rcases getNext s with ⟨command, s⟩
  cases command with
  | cmdWrite =>
      exact congrArg some (runRows_write (parseWriteInto_stores MAX_WRITE_SIZE a s) mem w)
  | cmdRead =>
      exact congrArg some (runRows_keys (parseReadDeleteInto_stores MAX_WRITE_SIZE MAX_STRING_SIZE a s)
        (fun _ _ => rfl) w)
  | cmdDelete =>
      exact congrArg some (runRows_keys (parseReadDeleteInto_stores MAX_WRITE_SIZE MAX_STRING_SIZE a s)
        (fun _ _ => rfl) w)
  | cmdShow => rfl
  | cmdWait =>
      simp only [Option.map_some, Round.effect]
      split
      · rfl
      · rfl
  | cmdBackup => rfl
  | cmdHelp => rfl
  | cmdEmpty => rfl
  | cmdInvalid => rfl
  | eoc => rfl

/-- The text gets shorter. -/
theorem roundInto_length_lt {stack : List Byte} {mem : Nat → Garbage} {a : Rows}
    {w : Sequential.World} {s : Stream} {r : Round}
    (h : roundInto stack mem a w s = some r) : r.rest.length < s.length := by
  have heq := roundInto_eq stack mem a w s
  rw [h] at heq
  obtain ⟨⟨command, s'⟩, hround, heffect⟩ := Option.map_eq_some_iff.mp heq.symm
  have hrest : s' = r.rest := congrArg Prod.snd heffect
  rw [← hrest]
  exact jobRound_length_lt hround

/-- The rounds of a job, from the arrays `a` on: what is left of the table and the output when the file
    ends. -/
def roundsInto (stack : Nat → List Byte) (mem : Nat → Nat → Garbage) (a : Rows)
    (w : Sequential.World) (s : Stream) : Option Sequential.World :=
  match _h : roundInto (stack 0) (mem 0) a w s with
  | none => some w
  | some r =>
      match r.world with
      | none => none
      | some w' => roundsInto (fun i => stack (i + 1)) (fun i => mem (i + 1)) r.rows w' r.rest
termination_by s.length
decreasing_by exact roundInto_length_lt _h

/-- **A job on the shared arrays** does what its commands do one after the other. -/
theorem roundsInto_eq (stack : Nat → List Byte) (mem : Nat → Nat → Garbage) (a : Rows)
    (w : Sequential.World) (s : Stream) :
    roundsInto stack mem a w s = Sequential.processJobFile stack mem s w := by
  induction hn : s.length using Nat.strong_induction_on generalizing stack mem a w s with
  | _ n ih =>
      have heq := roundInto_eq (stack 0) (mem 0) a w s
      unfold Sequential.processJobFile
      rw [roundsInto]
      split
      · rename_i hnone
        rw [hnone] at heq
        have hend : jobRound (stack 0) s = none := Option.map_eq_none_iff.mp heq.symm
        rw [jobLoop]
        split
        · rfl
        · rename_i hsome
          rw [hend] at hsome
          exact absurd hsome (by simp)
      · rename_i r hround
        have hlt := roundInto_length_lt hround
        rw [hround] at heq
        obtain ⟨⟨command, s'⟩, hjob, heffect⟩ := Option.map_eq_some_iff.mp heq.symm
        obtain ⟨hworld, hrest⟩ := Prod.mk.inj heffect
        rw [jobLoop_cons hjob, ← hworld, Sequential.processCommands]
        cases hw : Sequential.processCommand (mem 0) command w with
        | none => rfl
        | some w' =>
            rw [hn] at hlt
            obtain rfl : s' = r.rest := hrest
            exact ih _ hlt _ _ r.rows w' r.rest rfl

/-- **Nothing that earlier commands left in the arrays is seen.** From any two contents of `keys` and
    `values` a round leaves the same table, output and position, and so does a whole job. -/
theorem leftovers_unseen (stack : Nat → List Byte) (mem : Nat → Nat → Garbage) (a b : Rows)
    (w : Sequential.World) (s : Stream) :
    (roundInto (stack 0) (mem 0) a w s).map Round.effect
        = (roundInto (stack 0) (mem 0) b w s).map Round.effect ∧
      roundsInto stack mem a w s = roundsInto stack mem b w s := by
  refine ⟨?_, ?_⟩
  · rw [roundInto_eq, roundInto_eq]
  · rw [roundsInto_eq, roundsInto_eq]

end Kvs.Server
