import Mathlib

/-!
# `Lib.Mutex` — places inside a critical section, and the thread that holds its mutex

Threads stand at places, some of them inside the critical section. `Exclusive` says that the thread
inside is the holder of the mutex and that nobody else is inside. It is kept when the mutex is locked on
the way in and unlocked on the way out, and by any other move.
-/

namespace Mutex

variable {T P : Type*}

/-- The thread that holds the mutex, and no other, stands inside. -/
def Exclusive (inside : P → Bool) (threads : T → P) (mutex : Option T) : Prop :=
  ∀ t, inside (threads t) = true ↔ mutex = some t

variable {inside : P → Bool} {threads : T → P} {mutex : Option T}

/-- Two threads inside are one thread. -/
theorem Exclusive.alone (h : Exclusive inside threads mutex) {t u : T}
    (ht : inside (threads t) = true) (hu : inside (threads u) = true) : u = t := by
  have hholder : mutex = some t := (h t).mp ht
  have hother : mutex = some u := (h u).mp hu
  rw [hholder] at hother
  exact (Option.some.inj hother).symm

variable [DecidableEq T]

/-- A thread that locks the free mutex goes inside. -/
theorem Exclusive.lock (h : Exclusive inside threads mutex) (hfree : mutex = none) (t : T) {place : P}
    (hplace : inside place = true) : Exclusive inside (Function.update threads t place) (some t) := by
  intro u
  by_cases hu : u = t
  · subst hu
    rw [Function.update_self]
    exact iff_of_true hplace rfl
  · rw [Function.update_of_ne hu, h u, hfree]
    exact iff_of_false (by simp) (fun heq => hu (Option.some.inj heq).symm)

/-- The thread inside unlocks the mutex on its way out. -/
theorem Exclusive.unlock (h : Exclusive inside threads mutex) {t : T}
    (ht : inside (threads t) = true) {place : P} (hplace : inside place = false) :
    Exclusive inside (Function.update threads t place) none := by
  intro u
  refine iff_of_false ?_ (by simp)
  intro hin
  by_cases hu : u = t
  · subst hu
    rw [Function.update_self, hplace] at hin
    exact absurd hin (by simp)
  · rw [Function.update_of_ne hu] at hin
    exact hu (h.alone ht hin)

/-- A move that stays inside, or stays outside. -/
theorem Exclusive.move (h : Exclusive inside threads mutex) {t : T} {place : P}
    (hplace : inside place = inside (threads t)) :
    Exclusive inside (Function.update threads t place) mutex := by
  intro u
  by_cases hu : u = t
  · subst hu
    rw [Function.update_self, hplace]
    exact h u
  · rw [Function.update_of_ne hu]
    exact h u

end Mutex
