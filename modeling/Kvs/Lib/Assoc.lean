import Mathlib

/-!
# `Lib.Assoc` — keyed lists with in-place overwrite

A list of nodes with a key each, searched from the front, as a chained hash bucket is. Three operations:
look up the first node with a key, change that node where it stands, unlink it. The laws say how each
look-up sees each change, under the invariant that no key occurs twice, which the operations keep.
-/

namespace Assoc

variable {N κ : Type*} [DecidableEq κ] (key : N → κ)

/-- The first node with key `k`. -/
def find (k : κ) : List N → Option N
  | [] => none
  | n :: l => if key n = k then some n else find k l

/-- Change the first node with key `k` where it stands. -/
def overwrite (k : κ) (f : N → N) : List N → List N
  | [] => []
  | n :: l => if key n = k then f n :: l else n :: overwrite k f l

/-- Take the first node with key `k` out of the list. -/
def unlink (k : κ) : List N → List N
  | [] => []
  | n :: l => if key n = k then l else n :: unlink k l

variable {key}

theorem find_eq_none_iff {k : κ} {l : List N} : find key k l = none ↔ k ∉ l.map key := by
  induction l with
  | nil => simp [find]
  | cons n l ih =>
      by_cases hn : key n = k
      · simp [find, hn]
      · simp only [find, if_neg hn, ih, List.map_cons, List.mem_cons, not_or]
        exact ⟨fun h => ⟨fun hk => hn hk.symm, h⟩, fun h => h.2⟩

theorem find_some {k : κ} {l : List N} {n : N} (h : find key k l = some n) : n ∈ l ∧ key n = k := by
  induction l with
  | nil => exact absurd h (by simp [find])
  | cons m l ih =>
      by_cases hm : key m = k
      · rw [find, if_pos hm] at h
        obtain rfl := Option.some.inj h
        exact ⟨List.mem_cons_self, hm⟩
      · rw [find, if_neg hm] at h
        exact ⟨List.mem_cons_of_mem m (ih h).1, (ih h).2⟩

/-- With no key twice, a node is what the search for its key finds. -/
theorem find_of_mem {l : List N} (hnd : (l.map key).Nodup) {n : N} (hn : n ∈ l) :
    find key (key n) l = some n := by
  induction l with
  | nil => exact absurd hn List.not_mem_nil
  | cons m l ih =>
      rw [List.map_cons, List.nodup_cons] at hnd
      rcases List.mem_cons.mp hn with rfl | hl
      · rw [find, if_pos rfl]
      · have hne : key m ≠ key n := fun heq => hnd.1 (heq ▸ List.mem_map_of_mem hl)
        rw [find, if_neg hne]
        exact ih hnd.2 hl

/-! ## Overwriting -/

theorem find_overwrite_self {k : κ} {f : N → N} (hf : ∀ n, key (f n) = key n) (l : List N) :
    find key k (overwrite key k f l) = (find key k l).map f := by
  induction l with
  | nil => rfl
  | cons n l ih =>
      by_cases hn : key n = k
      · simp [find, overwrite, hn, hf]
      · simp [find, overwrite, hn, ih]

theorem find_overwrite_ne {j k : κ} (hjk : j ≠ k) {f : N → N} (hf : ∀ n, key (f n) = key n)
    (l : List N) : find key j (overwrite key k f l) = find key j l := by
  induction l with
  | nil => rfl
  | cons n l ih =>
      by_cases hn : key n = k
      · have hnj : key n ≠ j := fun h => hjk (h.symm.trans hn)
        simp only [overwrite, if_pos hn, find, hf, if_neg hnj]
      · simp only [overwrite, if_neg hn, find, ih]

/-- Overwriting moves no node and changes no key. -/
theorem map_key_overwrite {k : κ} {f : N → N} (hf : ∀ n, key (f n) = key n) (l : List N) :
    (overwrite key k f l).map key = l.map key := by
  induction l with
  | nil => rfl
  | cons n l ih =>
      by_cases hn : key n = k
      · simp [overwrite, hn, hf]
      · simp [overwrite, hn, ih]

/-- A change that leaves the node as it is leaves the list as it is. -/
theorem overwrite_eq_self {k : κ} {f : N → N} {l : List N}
    (h : ∀ n, find key k l = some n → f n = n) : overwrite key k f l = l := by
  induction l with
  | nil => rfl
  | cons n l ih =>
      by_cases hn : key n = k
      · rw [overwrite, if_pos hn, h n (by rw [find, if_pos hn])]
      · rw [overwrite, if_neg hn, ih (fun m hm => h m (by rw [find, if_neg hn, hm]))]

/-- A node after overwriting is one from before, or the changed one with the key. -/
theorem mem_overwrite {k : κ} {f : N → N} {l : List N} {n' : N} (h : n' ∈ overwrite key k f l) :
    n' ∈ l ∨ ∃ n ∈ l, key n = k ∧ n' = f n := by
  induction l with
  | nil => exact absurd h List.not_mem_nil
  | cons n l ih =>
      by_cases hn : key n = k
      · rw [overwrite, if_pos hn] at h
        rcases List.mem_cons.mp h with rfl | hl
        · exact Or.inr ⟨n, List.mem_cons_self, hn, rfl⟩
        · exact Or.inl (List.mem_cons_of_mem n hl)
      · rw [overwrite, if_neg hn] at h
        rcases List.mem_cons.mp h with rfl | hl
        · exact Or.inl List.mem_cons_self
        · rcases ih hl with hold | ⟨m, hm, hk, rfl⟩
          · exact Or.inl (List.mem_cons_of_mem n hold)
          · exact Or.inr ⟨m, List.mem_cons_of_mem n hm, hk, rfl⟩

/-- With no key twice, the node with the key is changed and the others stay. -/
theorem mem_overwrite_of_nodup {k : κ} {f : N → N} {l : List N} (hnd : (l.map key).Nodup) {n' : N}
    (h : n' ∈ overwrite key k f l) :
    (n' ∈ l ∧ key n' ≠ k) ∨ ∃ n, find key k l = some n ∧ n' = f n := by
  induction l with
  | nil => exact absurd h List.not_mem_nil
  | cons n l ih =>
      rw [List.map_cons, List.nodup_cons] at hnd
      by_cases hn : key n = k
      · rw [overwrite, if_pos hn] at h
        rcases List.mem_cons.mp h with rfl | hl
        · exact Or.inr ⟨n, by rw [find, if_pos hn], rfl⟩
        · -- behind the node with the key there is no other
          refine Or.inl ⟨List.mem_cons_of_mem n hl, fun hkey => hnd.1 ?_⟩
          rw [hn, ← hkey]
          exact List.mem_map_of_mem hl
      · rw [overwrite, if_neg hn] at h
        rcases List.mem_cons.mp h with rfl | hl
        · exact Or.inl ⟨List.mem_cons_self, hn⟩
        · rcases ih hnd.2 hl with ⟨hold, hkey⟩ | ⟨m, hm, hrest⟩
          · exact Or.inl ⟨List.mem_cons_of_mem n hold, hkey⟩
          · exact Or.inr ⟨m, by rw [find, if_neg hn, hm], hrest⟩

/-! ## Unlinking -/

theorem unlink_sublist (k : κ) (l : List N) : (unlink key k l).Sublist l := by
  induction l with
  | nil => exact List.Sublist.refl _
  | cons n l ih =>
      by_cases hn : key n = k
      · rw [unlink, if_pos hn]; exact List.sublist_cons_self n l
      · rw [unlink, if_neg hn]; exact ih.cons_cons n

/-- With no key twice, an unlinked key is gone. -/
theorem find_unlink_self {k : κ} {l : List N} (hnd : (l.map key).Nodup) :
    find key k (unlink key k l) = none := by
  induction l with
  | nil => rfl
  | cons n l ih =>
      rw [List.map_cons, List.nodup_cons] at hnd
      by_cases hn : key n = k
      · rw [unlink, if_pos hn, find_eq_none_iff, ← hn]
        exact hnd.1
      · rw [unlink, if_neg hn, find, if_neg hn]
        exact ih hnd.2

theorem find_unlink_ne {j k : κ} (hjk : j ≠ k) (l : List N) :
    find key j (unlink key k l) = find key j l := by
  induction l with
  | nil => rfl
  | cons n l ih =>
      by_cases hn : key n = k
      · have hnj : key n ≠ j := fun h => hjk (h.symm.trans hn)
        rw [unlink, if_pos hn, find, if_neg hnj]
      · rw [unlink, if_neg hn, find, find, ih]

end Assoc
