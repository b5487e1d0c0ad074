import Mathlib

/-!
# `Lib.Stores` — stores into an array that has an end

An array is the list of its elements. A store at a place the array does not have is undefined, so `store`
gives `none` there. A loop that fills an array from a place on stays inside it exactly when there is room
for all that it stores (`storeAll_overflows`), and then replaces that many elements (`storeAll_fits`).
-/

namespace Stores

variable {α : Type*}

/-- `a[i] = x`, or `none` where the array has no place `i`. -/
def store (a : List α) (i : Nat) (x : α) : Option (List α) :=
  if i < a.length then some (a.set i x) else none

/-- `a[i++] = x` for every `x` of the list. -/
def storeAll (a : List α) : Nat → List α → Option (List α)
  | _, [] => some a
  | i, x :: xs => (store a i x).bind (fun a => storeAll a (i + 1) xs)

theorem store_inside {a : List α} {i : Nat} (h : i < a.length) (x : α) :
    store a i x = some (a.set i x) := if_pos h

theorem store_outside {a : List α} {i : Nat} (h : a.length ≤ i) (x : α) : store a i x = none :=
  if_neg (Nat.not_lt.mpr h)

/-- What is stored behind the elements of `l`. -/
theorem store_behind (l : List α) (y : α) (r : List α) (x : α) :
    store (l ++ y :: r) l.length x = some (l ++ x :: r) := by
  rw [store_inside (by simp)]
  simp

/-- With room for all of `xs` behind `l` they replace as many elements. -/
theorem storeAll_behind {xs r : List α} (h : xs.length ≤ r.length) (l : List α) :
    storeAll (l ++ r) l.length xs = some (l ++ (xs ++ r.drop xs.length)) := by
  induction xs generalizing l r with
  | nil => rfl
  | cons x xs ih =>
      cases r with
      | nil => exact absurd h (by simp)
      | cons y r =>
          have hnext := ih (Nat.le_of_succ_le_succ h) (l ++ [x])
          rw [List.append_assoc, List.singleton_append, List.length_append,
            List.length_singleton, List.append_assoc] at hnext
          rw [storeAll, store_behind]
          exact hnext

/-- A loop that fills the array from its start. -/
theorem storeAll_fits {a xs : List α} (h : xs.length ≤ a.length) :
    storeAll a 0 xs = some (xs ++ a.drop xs.length) := storeAll_behind h []

/-- Without room the first store behind the end is reached. -/
theorem storeAll_overflows {xs : List α} {i : Nat} {a : List α} (hi : i ≤ a.length)
    (h : a.length < i + xs.length) : storeAll a i xs = none := by
  induction xs generalizing i a with
  | nil => exact absurd h (by simpa using hi)
  | cons x xs ih =>
      by_cases hlt : i < a.length
      · rw [storeAll, store_inside hlt]
        apply ih
        · rw [List.length_set]
          exact hlt
        · rw [List.length_set]
          rw [List.length_cons] at h
          omega
      · rw [storeAll, store_outside (Nat.le_of_not_lt hlt)]
        rfl

/-- A run that stores behind the end where `P` holds, and gives `x` where it does not. -/
theorem isSome_iff_not {o : Option α} {x : α} {P : Prop} (houtside : P → o = none)
    (hinside : ¬ P → o = some x) : o.isSome ↔ ¬ P := by
  constructor
  · intro h hP
    rw [houtside hP] at h
    exact absurd h (by simp)
  · intro hP
    rw [hinside hP]
    rfl

end Stores
