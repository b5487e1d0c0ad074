import Mathlib

/-!
# `Lib.Keyed` — operations that work at one key each

A store is a function from keys to values, and each operation reads and writes the value of its own key.
What a row of operations leaves at a key, and what those on that key return, depends on the operations on
that key and their order alone (`run_filter`). So two rows that have the same operations on every key, in
the same order, leave the same store and return the same results, in another order at most
(`run_reorder`).
-/

namespace Keyed

variable {κ V O R : Type*} [DecidableEq κ] (key : O → κ) (act : O → V → V × R)

/-- The operations one after the other: the store they leave, and each with what it returned. -/
def run : List O → (κ → V) → (κ → V) × List (O × R)
  | [], m => (m, [])
  | o :: os, m =>
      let r := act o (m (key o))
      let (m', results) := run os (Function.update m (key o) r.1)
      (m', (o, r.2) :: results)

variable {key act}

/-- **What happens at a key** is what the operations on that key do, from any store with its value. -/
theorem run_filter (k : κ) (os : List O) {m m' : κ → V} (hm : m k = m' k) :
    (run key act os m).1 k = (run key act (os.filter (fun o => key o = k)) m').1 k ∧
      (run key act os m).2.filter (fun r => key r.1 = k)
        = (run key act (os.filter (fun o => key o = k)) m').2 := by
  induction os generalizing m m' with
  | nil => exact ⟨hm, rfl⟩
  | cons o os ih =>
      by_cases hk : key o = k
      · have hupd : Function.update m (key o) (act o (m (key o))).1 k
            = Function.update m' (key o) (act o (m' (key o))).1 k := by
          subst hk
          rw [Function.update_self, Function.update_self, hm]
        obtain ⟨hval, hres⟩ := ih hupd
        have hact : act o (m (key o)) = act o (m' (key o)) := by rw [hk, hm]
        rw [List.filter_cons_of_pos (by simpa using hk)]
        refine ⟨hval, ?_⟩
        show ((o, _) :: _ : List (O × R)).filter _ = (o, _) :: _
        rw [List.filter_cons_of_pos (by simpa using hk), hres, hact]
      · have hupd : Function.update m (key o) (act o (m (key o))).1 k = m' k := by
          rw [Function.update_of_ne (Ne.symm hk), hm]
        obtain ⟨hval, hres⟩ := ih hupd
        rw [List.filter_cons_of_neg (by simpa using hk)]
        refine ⟨hval, ?_⟩
        show ((o, _) :: _ : List (O × R)).filter _ = _
        rw [List.filter_cons_of_neg (by simpa using hk), hres]

/-- Lists with the same elements, in the same order, in every class have the same elements. -/
theorem perm_of_filter {α : Type*} (f : α → κ) {l l' : List α}
    (h : ∀ k, l.filter (fun a => f a = k) = l'.filter (fun a => f a = k)) : l.Perm l' := by
  classical
  rw [List.perm_iff_count]
  intro a
  calc l.count a = (l.filter (fun b => f b = f a)).count a := (List.count_filter (by simp)).symm
    _ = (l'.filter (fun b => f b = f a)).count a := by rw [h]
    _ = l'.count a := List.count_filter (by simp)

/-- **Reordering.** Operations that are the same, and in the same order, key by key leave the same store
    and return the same results. -/
theorem run_reorder {os os' : List O}
    (h : ∀ k, os.filter (fun o => key o = k) = os'.filter (fun o => key o = k)) (m : κ → V) :
    (run key act os m).1 = (run key act os' m).1 ∧
      (run key act os m).2.Perm (run key act os' m).2 := by
  constructor
  · funext k
    rw [(run_filter k os rfl).1, (run_filter k os' rfl).1, h]
  · apply perm_of_filter (fun r => key r.1)
    intro k
    rw [(run_filter k os rfl).2, (run_filter k os' rfl).2, h]

end Keyed
