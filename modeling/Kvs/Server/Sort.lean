import Kvs.Base.Bytes

/-!
# `Server.Sort` — `insertionSort`, which orders the keys of a command before it runs

The function is the same in `main.c` of the server and of exercise 3. Two parallel arrays, rows moved whole by `strcpy`, keys compared by `strcmp`. The rows are generic here,
with the comparison as a parameter, since the code only moves and compares them. Read backwards, the
first `n` rows end up as Mathlib's insertion sort of the rows read backwards (`rows_insertionSort`),
which gives the permutation, the order and the stability; rows from `n` on are not touched.
-/

namespace Kvs.Server

section Arrays

variable {κ ν : Type*} (strcmp : κ → κ → Int)

/-- The inner loop from index `j`: rows greater than `keyTemp` move up by one. The last component is the
    index at which the loop stops. -/
def insertShift (keyTemp : κ) : Nat → (Nat → κ) → (Nat → ν) → (Nat → κ) × (Nat → ν) × Nat
  | 0, keys, values => (keys, values, 0)
  | j + 1, keys, values =>
      if strcmp (keys j) keyTemp > 0 then
        insertShift keyTemp j (Function.update keys (j + 1) (keys j))
          (Function.update values (j + 1) (values j))
      else (keys, values, j + 1)

/-- One round of the outer loop: row `i` is set aside, and put back where the inner loop stops. -/
def insertRound (i : Nat) (a : (Nat → κ) × (Nat → ν)) : (Nat → κ) × (Nat → ν) :=
  let keyTemp := a.1 i
  let valueTemp := a.2 i
  let (keys, values, j) := insertShift strcmp keyTemp i a.1 a.2
  (Function.update keys j keyTemp, Function.update values j valueTemp)

/-- `for (i = 1; i < n; i++)` -/
def insertionSort (keys : Nat → κ) (values : Nat → ν) (n : Nat) : (Nat → κ) × (Nat → ν) :=
  (List.range' 1 (n - 1)).foldl (fun a i => insertRound strcmp i a) (keys, values)

/-- The first `n` rows. -/
def rows (a : (Nat → κ) × (Nat → ν)) (n : Nat) : List (κ × ν) :=
  (List.range n).map (fun i => (a.1 i, a.2 i))

/-- Row `x` may stay behind row `y`: the test at which the inner loop stops. -/
def NotAbove (x y : κ × ν) : Prop := strcmp y.1 x.1 ≤ 0

instance : DecidableRel (NotAbove strcmp (ν := ν)) :=
  fun _ _ => inferInstanceAs (Decidable (_ ≤ _))

variable {strcmp}

theorem reverse_rows_succ (a : (Nat → κ) × (Nat → ν)) (n : Nat) :
    (rows a (n + 1)).reverse = (a.1 n, a.2 n) :: (rows a n).reverse := by
  simp [rows, List.range_succ]

theorem rows_congr {a b : (Nat → κ) × (Nat → ν)} {n : Nat}
    (h : ∀ i < n, a.1 i = b.1 i ∧ a.2 i = b.2 i) : rows a n = rows b n := by
  apply List.map_congr_left
  intro i hi
  obtain ⟨hk, hv⟩ := h i (List.mem_range.mp hi)
  rw [hk, hv]

/-- The inner loop and the store after it insert the row set aside, and leave what lies above. -/
theorem insertShift_spec (keyTemp : κ) (valueTemp : ν) (j : Nat) (keys : Nat → κ) (values : Nat → ν) :
    let r := insertShift strcmp keyTemp j keys values
    let a := (Function.update r.1 r.2.2 keyTemp, Function.update r.2.1 r.2.2 valueTemp)
    (rows a (j + 1)).reverse
        = List.orderedInsert (NotAbove strcmp) (keyTemp, valueTemp) (rows (keys, values) j).reverse ∧
      ∀ p, j < p → a.1 p = keys p ∧ a.2 p = values p := by
  induction j generalizing keys values with
  | zero =>
      refine ⟨by simp [insertShift, rows], fun p hp => ?_⟩
      have hp0 : p ≠ 0 := by omega
      simp [insertShift, hp0]
  | succ j ih =>
      rw [reverse_rows_succ (keys, values) j]
      by_cases hgt : strcmp (keys j) keyTemp > 0
      · -- row `j` moves up to `j + 1` and the loop goes on below it
        have hstay : ¬ NotAbove strcmp (keyTemp, valueTemp) (keys j, values j) := by
          show ¬ strcmp (keys j) keyTemp ≤ 0
          omega
        obtain ⟨hins, habove⟩ := ih (Function.update keys (j + 1) (keys j))
          (Function.update values (j + 1) (values j))
        have hbelow : rows (Function.update keys (j + 1) (keys j),
            Function.update values (j + 1) (values j)) j = rows (keys, values) j := by
          apply rows_congr
          intro i hi
          have hne : i ≠ j + 1 := by omega
          simp [hne]
        rw [hbelow] at hins
        obtain ⟨hk, hv⟩ := habove (j + 1) (by omega)
        simp only [insertShift, if_pos hgt]
        refine ⟨?_, fun p hp => ?_⟩
        · rw [reverse_rows_succ, hins, List.orderedInsert_cons, if_neg hstay]
          rw [Function.update_self] at hk hv
          exact congrArg (· :: _) (Prod.ext hk hv)
        · obtain ⟨hkp, hvp⟩ := habove p (by omega)
          have hne : p ≠ j + 1 := by omega
          exact ⟨hkp.trans (Function.update_of_ne hne _ _), hvp.trans (Function.update_of_ne hne _ _)⟩
      · -- the row set aside goes in at `j + 1`
        have hstay : NotAbove strcmp (keyTemp, valueTemp) (keys j, values j) := by
          show strcmp (keys j) keyTemp ≤ 0
          omega
        have hbelow : rows (Function.update keys (j + 1) keyTemp,
            Function.update values (j + 1) valueTemp) (j + 1) = rows (keys, values) (j + 1) := by
          apply rows_congr
          intro i hi
          have hne : i ≠ j + 1 := by omega
          simp [hne]
        simp only [insertShift, if_neg hgt]
        refine ⟨?_, fun p hp => ?_⟩
        · rw [reverse_rows_succ, hbelow, reverse_rows_succ, List.orderedInsert_cons, if_pos hstay]
          show (Function.update keys (j + 1) keyTemp (j + 1),
            Function.update values (j + 1) valueTemp (j + 1)) :: _ = _
          rw [Function.update_self, Function.update_self]
        · have hne : p ≠ j + 1 := by omega
          simp [hne]

theorem insertionSort_succ (keys : Nat → κ) (values : Nat → ν) (n : Nat) :
    insertionSort strcmp keys values (n + 2)
      = insertRound strcmp (n + 1) (insertionSort strcmp keys values (n + 1)) := by
  have h : List.range' 1 (n + 2 - 1) = List.range' 1 (n + 1 - 1) ++ [n + 1] := by
    have hc : List.range' 1 (n + 1) = List.range' 1 n ++ [1 + 1 * n] := List.range'_concat
    simpa [Nat.add_comm] using hc
  rw [insertionSort, h, List.foldl_append]
  rfl

/-- **`insertionSort` sorts the first `n` rows and leaves the others.** Read backwards they are the
    insertion sort of the rows read backwards. -/
theorem rows_insertionSort (keys : Nat → κ) (values : Nat → ν) (n : Nat) :
    (rows (insertionSort strcmp keys values n) n).reverse
        = List.insertionSort (NotAbove strcmp) (rows (keys, values) n).reverse ∧
      ∀ p, n ≤ p → (insertionSort strcmp keys values n).1 p = keys p ∧
        (insertionSort strcmp keys values n).2 p = values p := by
  induction n with
  | zero => simp [rows, insertionSort]
  | succ n ih =>
      cases n with
      | zero =>
          refine ⟨?_, fun p _ => ⟨rfl, rfl⟩⟩
          simp [rows, insertionSort]
      | succ n =>
          obtain ⟨hsorted, hrest⟩ := ih
          obtain ⟨hk, hv⟩ := hrest (n + 1) (Nat.le_refl _)
          have hround := @insertShift_spec _ _ strcmp
            ((insertionSort strcmp keys values (n + 1)).1 (n + 1))
            ((insertionSort strcmp keys values (n + 1)).2 (n + 1)) (n + 1)
            (insertionSort strcmp keys values (n + 1)).1
            (insertionSort strcmp keys values (n + 1)).2
          obtain ⟨hins, habove⟩ := hround
          rw [insertionSort_succ]
          refine ⟨?_, fun p hp => ?_⟩
          · show (rows (insertRound strcmp (n + 1) _) (n + 1 + 1)).reverse = _
            rw [reverse_rows_succ (keys, values) (n + 1), List.insertionSort_cons, ← hsorted]
            show _ = List.orderedInsert _ (keys (n + 1), values (n + 1)) _
            rw [← hk, ← hv]
            exact hins
          · obtain ⟨hkp, hvp⟩ := hrest p (by omega)
            obtain ⟨hka, hva⟩ := habove p (by omega)
            exact ⟨hka.trans hkp, hva.trans hvp⟩

/-- Sorting only reorders the rows. -/
theorem rows_insertionSort_perm (keys : Nat → κ) (values : Nat → ν) (n : Nat) :
    (rows (insertionSort strcmp keys values n) n).Perm (rows (keys, values) n) := by
  have h := List.perm_insertionSort (NotAbove strcmp) (rows (keys, values) n).reverse
  rw [← (rows_insertionSort keys values n).1] at h
  exact (List.reverse_perm _).symm.trans (h.trans (List.reverse_perm _))

/-- Sorted rows are in the order of the comparison. -/
theorem rows_insertionSort_sorted (htotal : ∀ x y, strcmp x y ≤ 0 ∨ strcmp y x ≤ 0)
    (htrans : ∀ x y z, strcmp x y ≤ 0 → strcmp y z ≤ 0 → strcmp x z ≤ 0) (keys : Nat → κ)
    (values : Nat → ν) (n : Nat) :
    (rows (insertionSort strcmp keys values n) n).Pairwise (fun x y => strcmp x.1 y.1 ≤ 0) := by
  have : Std.Total (NotAbove strcmp (ν := ν)) := ⟨fun x y => htotal y.1 x.1⟩
  have : IsTrans (κ × ν) (NotAbove strcmp) := ⟨fun x y z hxy hyz => htrans z.1 y.1 x.1 hyz hxy⟩
  have h := List.pairwise_insertionSort (NotAbove strcmp) (rows (keys, values) n).reverse
  rw [← (rows_insertionSort keys values n).1, List.pairwise_reverse] at h
  exact h

/-- **Stability.** Rows that compare equal to each other keep their order. -/
theorem rows_insertionSort_filter {p : κ × ν → Bool}
    (hp : ∀ x y, p x = true → p y = true → strcmp x.1 y.1 ≤ 0) (keys : Nat → κ) (values : Nat → ν)
    (n : Nat) :
    (rows (insertionSort strcmp keys values n) n).filter p = (rows (keys, values) n).filter p := by
  -- backwards, such rows are in order already, so the insertion sort leaves them as they are
  have hordered : ((rows (keys, values) n).reverse.filter p).Pairwise (NotAbove strcmp) := by
    rw [List.pairwise_filter]
    exact List.pairwise_of_forall (fun x y hx hy => hp y x hy hx)
  have hsub : ((rows (keys, values) n).reverse.filter p).Sublist
      (rows (insertionSort strcmp keys values n) n).reverse := by
    rw [(rows_insertionSort keys values n).1]
    exact List.sublist_insertionSort hordered List.filter_sublist
  have hsub' := hsub.filter p
  simp only [List.filter_filter, Bool.and_self, List.filter_reverse] at hsub'
  have hlen := ((@rows_insertionSort_perm _ _ strcmp keys values n).filter p).length_eq
  exact ((List.reverse_sublist.mp hsub').eq_of_length hlen.symm).symm

/-! ## Lists of rows -/

/-- The rows of a list, loaded into arrays, sorted and read back. -/
def sortRows [Inhabited κ] [Inhabited ν] (strcmp : κ → κ → Int) (l : List (κ × ν)) : List (κ × ν) :=
  rows (insertionSort strcmp (fun i => (l.getD i default).1) (fun i => (l.getD i default).2)
    l.length) l.length

theorem rows_load [Inhabited κ] [Inhabited ν] (l : List (κ × ν)) :
    rows (fun i => (l.getD i default).1, fun i => (l.getD i default).2) l.length = l := by
  apply List.ext_getElem
  · simp [rows]
  · intro i hi _
    have hlt : i < l.length := by simpa [rows] using hi
    simp [rows, hlt]

theorem reverse_sortRows [Inhabited κ] [Inhabited ν] (l : List (κ × ν)) :
    (sortRows strcmp l).reverse = List.insertionSort (NotAbove strcmp) l.reverse := by
  rw [sortRows, (rows_insertionSort _ _ _).1, rows_load]

theorem sortRows_perm [Inhabited κ] [Inhabited ν] (l : List (κ × ν)) :
    (sortRows strcmp l).Perm l := by
  have h := @rows_insertionSort_perm _ _ strcmp (fun i => (l.getD i default).1)
    (fun i => (l.getD i default).2) l.length
  rw [rows_load] at h
  exact h

/-- Keys sorted without values beside them stay the same keys. -/
theorem sortRows_keys_perm [Inhabited κ] (keys : List κ) :
    ((sortRows strcmp (keys.map (fun k => (k, ())))).map Prod.fst).Perm keys := by
  have hrows : (sortRows strcmp (keys.map (fun k => (k, ())))).Perm (keys.map (fun k => (k, ()))) :=
    sortRows_perm _
  have hfst := hrows.map Prod.fst
  rw [List.map_map] at hfst
  exact hfst.trans (List.Perm.of_eq (List.map_id keys))

theorem sortRows_sorted [Inhabited κ] [Inhabited ν] (htotal : ∀ x y, strcmp x y ≤ 0 ∨ strcmp y x ≤ 0)
    (htrans : ∀ x y z, strcmp x y ≤ 0 → strcmp y z ≤ 0 → strcmp x z ≤ 0) (l : List (κ × ν)) :
    (sortRows strcmp l).Pairwise (fun x y => strcmp x.1 y.1 ≤ 0) :=
  rows_insertionSort_sorted htotal htrans _ _ _

theorem sortRows_filter [Inhabited κ] [Inhabited ν] {p : κ × ν → Bool}
    (hp : ∀ x y, p x = true → p y = true → strcmp x.1 y.1 ≤ 0) (l : List (κ × ν)) :
    (sortRows strcmp l).filter p = l.filter p := by
  have h := rows_insertionSort_filter hp (fun i => (l.getD i default).1)
    (fun i => (l.getD i default).2) l.length
  rw [rows_load] at h
  exact h

/-- Renaming the rows commutes with sorting them when it keeps their order. -/
theorem map_sortRows {κ' ν' : Type*} [Inhabited κ] [Inhabited ν] [Inhabited κ'] [Inhabited ν']
    {strcmp' : κ' → κ' → Int} (f : κ × ν → κ' × ν')
    (hf : ∀ x y, strcmp' (f x).1 (f y).1 = strcmp x.1 y.1) (l : List (κ × ν)) :
    (sortRows strcmp l).map f = sortRows strcmp' (l.map f) := by
  apply List.reverse_injective
  rw [← List.map_reverse, reverse_sortRows, reverse_sortRows, ← List.map_reverse]
  apply List.map_insertionSort
  intro x _ y _
  show strcmp y.1 x.1 ≤ 0 ↔ strcmp' (f y).1 (f x).1 ≤ 0
  rw [hf]

end Arrays

/-! ## Arrays of strings -/

/-- **`insertionSort` on the arrays of a command.** The first `n` rows are a permutation of what they
    were, each value still beside its key, in the order of `strcmp`, and those with equal keys in the
    order they had; the rows from `n` on are unchanged. -/
theorem insertionSort_sorts (keys values : Nat → CStr) (n : Nat) :
    (rows (insertionSort strcmp keys values n) n).Perm (rows (keys, values) n) ∧
      (∀ i j, i < j → j < n →
        strcmp ((insertionSort strcmp keys values n).1 i)
          ((insertionSort strcmp keys values n).1 j) ≤ 0) ∧
      (∀ key, (rows (insertionSort strcmp keys values n) n).filter (fun row => row.1 = key)
        = (rows (keys, values) n).filter (fun row => row.1 = key)) ∧
      ∀ p, n ≤ p → (insertionSort strcmp keys values n).1 p = keys p ∧
        (insertionSort strcmp keys values n).2 p = values p := by
  refine ⟨rows_insertionSort_perm keys values n, ?_, ?_, (rows_insertionSort keys values n).2⟩
  · intro i j hij hj
    have hsorted := rows_insertionSort_sorted strcmp_le_total
      (fun x y z hxy hyz => strcmp_le_trans hxy hyz) keys values n
    unfold rows at hsorted
    rw [List.pairwise_map, List.pairwise_iff_getElem] at hsorted
    have hpair := hsorted i j (by simpa using hij.trans hj) (by simpa using hj) hij
    simpa using hpair
  · intro key
    refine rows_insertionSort_filter ?_ keys values n
    intro x y hx hy
    -- a key compares equal to itself
    have hxy : x.1 = y.1 := (of_decide_eq_true hx).trans (of_decide_eq_true hy).symm
    rw [hxy]
    exact le_of_eq ((strcmp_eq_zero y.1 y.1).mpr rfl)

end Kvs.Server
