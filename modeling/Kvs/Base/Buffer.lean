import Kvs.Base.Bytes

/-!
# `Base.Buffer` — buffers that are read into again and again

A `read` into the start of a buffer replaces as many bytes as it returns and leaves the bytes behind them
as they were. `fill` is what a zeroed buffer holds after a history of reads. When the messages carry no
NUL, a byte is non-zero exactly when some message of the history was long enough to reach it
(`fill_getD_ne_zero_iff`), so a message read last is seen as it was sent exactly when no earlier one is
longer (`untilNul_overwrite_fill_iff`).
-/

namespace Kvs

/-- `read(fd, buffer, size)` that returns `data`. -/
def overwrite (buffer data : List Byte) : List Byte := data ++ buffer.drop data.length

/-- A zeroed buffer of `n` bytes after these have been read into it. -/
def fill (n : Nat) (history : List (List Byte)) : List Byte :=
  history.foldl overwrite (List.replicate n 0)

theorem fill_concat (n : Nat) (history : List (List Byte)) (data : List Byte) :
    fill n (history ++ [data]) = overwrite (fill n history) data := by
  simp [fill]

theorem overwrite_length {buffer data : List Byte} (h : data.length ≤ buffer.length) :
    (overwrite buffer data).length = buffer.length := by
  simp only [overwrite, List.length_append, List.length_drop]
  omega

theorem fill_length {n : Nat} {history : List (List Byte)} (h : ∀ m ∈ history, m.length ≤ n) :
    (fill n history).length = n := by
  induction history using List.reverseRecOn with
  | nil => simp [fill]
  | append_singleton history data ih =>
      have ih' := ih (fun m hm => h m (List.mem_append_left _ hm))
      rw [fill_concat, overwrite_length (by rw [ih']; exact h data (by simp)), ih']

/-- A byte is non-zero exactly when a message of the history has reached it. -/
theorem fill_getD_ne_zero_iff {n : Nat} {history : List (List Byte)}
    (h : ∀ m ∈ history, (0 : Byte) ∉ m) (i : Nat) :
    (fill n history).getD i 0 ≠ 0 ↔ ∃ m ∈ history, i < m.length := by
  induction history using List.reverseRecOn with
  | nil =>
      have hzero : (fill n []).getD i 0 = 0 := by
        simp only [fill, List.foldl_nil, List.getD_eq_getElem?_getD, List.getElem?_replicate]
        split <;> rfl
      exact iff_of_false (not_not.mpr hzero) (by simp)
  | append_singleton history data ih =>
      have ih' := ih (fun m hm => h m (List.mem_append_left _ hm))
      rw [fill_concat, overwrite]
      by_cases hi : i < data.length
      · -- the last message covers the byte
        have hbyte : (data ++ (fill n history).drop data.length).getD i 0 = data[i] := by
          rw [List.getD_append _ _ _ _ hi, List.getD_eq_getElem _ _ hi]
        rw [hbyte]
        refine iff_of_true (fun hzero => ?_) ⟨data, by simp, hi⟩
        exact h data (by simp) (hzero ▸ List.getElem_mem hi)
      · -- behind the last message the byte is what it was
        have hbyte : (data ++ (fill n history).drop data.length).getD i 0
            = (fill n history).getD i 0 := by
          rw [List.getD_append_right _ _ _ _ (Nat.le_of_not_lt hi)]
          simp only [List.getD_eq_getElem?_getD, List.getElem?_drop]
          rw [Nat.add_sub_cancel' (Nat.le_of_not_lt hi)]
        rw [hbyte, ih']
        constructor
        · rintro ⟨m, hm, hlt⟩
          exact ⟨m, List.mem_append_left _ hm, hlt⟩
        · rintro ⟨m, hm, hlt⟩
          rcases List.mem_append.mp hm with hm' | hm'
          · exact ⟨m, hm', hlt⟩
          · obtain rfl := List.mem_singleton.mp hm'
            exact absurd hlt hi

/-- Every byte is zero or comes from a message of the history. -/
theorem mem_fill {n : Nat} {history : List (List Byte)} {b : Byte} (hb : b ∈ fill n history) :
    b = 0 ∨ ∃ m ∈ history, b ∈ m := by
  induction history using List.reverseRecOn with
  | nil => exact Or.inl (List.eq_of_mem_replicate hb)
  | append_singleton history data ih =>
      rw [fill_concat, overwrite] at hb
      rcases List.mem_append.mp hb with hb | hb
      · exact Or.inr ⟨data, by simp, hb⟩
      · rcases ih (List.mem_of_mem_drop hb) with hzero | ⟨m, hm, hbm⟩
        · exact Or.inl hzero
        · exact Or.inr ⟨m, List.mem_append_left _ hm, hbm⟩

/-- A string in front of other bytes runs on to the next NUL. -/
theorem untilNul_append {m : List Byte} (hm : (0 : Byte) ∉ m) (rest : List Byte) :
    untilNul (m ++ rest) = m ++ untilNul rest := by
  unfold untilNul
  apply List.takeWhile_append_of_pos
  intro b hb
  simp only [ne_eq, decide_eq_true_eq]
  rintro rfl
  exact hm hb

theorem untilNul_eq_nil_iff (s : List Byte) : untilNul s = [] ↔ s.getD 0 0 = 0 := by
  cases s with
  | nil => simp [untilNul]
  | cons b s =>
      by_cases hb : b = 0
      · simp [untilNul, hb]
      · simp [untilNul, hb]

theorem untilNul_zeros (n : Nat) : untilNul (List.replicate n 0) = [] := by
  rw [untilNul_eq_nil_iff, List.getD_eq_getElem?_getD, List.getElem?_replicate]
  split <;> rfl

/-- A buffer holds this string when it has its bytes and a NUL behind them. -/
theorem untilNul_eq_iff {t : List Byte} (ht : (0 : Byte) ∉ t) (s : List Byte) :
    untilNul s = t ↔ (∀ i < t.length, s.getD i 0 = t.getD i 0) ∧ s.getD t.length 0 = 0 := by
  induction t generalizing s with
  | nil =>
      rw [untilNul_eq_nil_iff]
      exact ⟨fun h => ⟨fun i hi => absurd hi (Nat.not_lt_zero i), h⟩, fun h => h.2⟩
  | cons b t ih =>
      have hb : b ≠ 0 := fun h => ht (h ▸ List.mem_cons_self)
      have ih' := ih (fun h => ht (List.mem_cons_of_mem b h))
      cases s with
      | nil =>
          refine iff_of_false (by simp [untilNul]) (fun h => hb ?_)
          exact (h.1 0 (Nat.succ_pos _)).symm
      | cons a s =>
          rw [List.length_cons, Nat.forall_lt_succ_left']
          by_cases hab : a = b
          · subst hab
            have huntil : untilNul (a :: s) = a :: untilNul s := by simp [untilNul, hb]
            simp [huntil, ih' s]
          · refine iff_of_false (fun h => hab ?_) (fun h => hab h.1.1)
            by_cases ha : a = 0
            · simp [untilNul, ha] at h
            · simp [untilNul, ha] at h
              exact h.1

/-- A copy of at most `n` bytes, and what stands behind it, read as a string shorter than that. -/
theorem untilNul_strncpy_append {t : List Byte} {n : Nat} (ht : t.length < n) (src rest : List Byte) :
    untilNul (strncpy src n ++ rest) = t ↔ untilNul (src.take n) = t := by
  have hlen : (untilNul (src.take n)).length ≤ n :=
    (List.takeWhile_sublist _).length_le.trans (List.length_take_le n src)
  rw [strncpy, List.append_assoc, untilNul_append (nul_notMem_untilNul _)]
  rcases Nat.lt_or_eq_of_le hlen with hlt | heq
  · -- the padding ends the string
    obtain ⟨m, hm⟩ := Nat.exists_eq_succ_of_ne_zero (Nat.sub_ne_zero_of_lt hlt)
    rw [hm, List.replicate_succ, List.cons_append]
    simp [untilNul]
  · refine iff_of_false (fun h => ?_) (fun h => ?_)
    · have := congrArg List.length h
      rw [List.length_append] at this
      omega
    · rw [h] at heq
      omega

/-- What `strncpy` leaves has a NUL in it exactly when the first `n` bytes have one or there are fewer. -/
theorem nul_mem_strncpy_iff (src : List Byte) (n : Nat) :
    (0 : Byte) ∈ strncpy src n ↔ (0 : Byte) ∈ src.take n ∨ src.length < n := by
  have hlen := List.length_take_le n src
  rw [strncpy, List.mem_append, or_iff_right (nul_notMem_untilNul _), List.mem_replicate,
    and_iff_left rfl]
  by_cases hnul : (0 : Byte) ∈ src.take n
  · have hlt := untilNul_length_lt hnul
    exact iff_of_true (by omega) (Or.inl hnul)
  · rw [untilNul_of_noNul hnul, or_iff_right hnul, List.length_take]
    omega

/-- What a copy of at most `n` bytes denotes. -/
theorem ofBuffer_strncpy (src : List Byte) (n : Nat) :
    (CStr.ofBuffer (strncpy src n)).bytes = untilNul (src.take n) := by
  show untilNul (untilNul (src.take n) ++ List.replicate _ 0) = untilNul (src.take n)
  rw [untilNul_append (nul_notMem_untilNul _), untilNul_zeros, List.append_nil]

/-- **A message read last** is seen as it was sent exactly when no earlier one is longer. -/
theorem untilNul_overwrite_fill_iff {n : Nat} {history : List (List Byte)}
    (h : ∀ m ∈ history, (0 : Byte) ∉ m) {data : List Byte} (hdata : (0 : Byte) ∉ data) :
    untilNul (overwrite (fill n history) data) = data ↔ ∀ m ∈ history, m.length ≤ data.length := by
  have htail : untilNul ((fill n history).drop data.length) = [] ↔
      ¬ (fill n history).getD data.length 0 ≠ 0 := by
    rw [untilNul_eq_nil_iff, not_not]
    simp [List.getD_eq_getElem?_getD]
  rw [overwrite, untilNul_append hdata, List.append_right_eq_self, htail, fill_getD_ne_zero_iff h]
  constructor
  · intro hnone m hm
    by_contra hlt
    exact hnone ⟨m, hm, Nat.lt_of_not_le hlt⟩
  · rintro hall ⟨m, hm, hlt⟩
    exact absurd (hall m hm) (Nat.not_le_of_lt hlt)

end Kvs
