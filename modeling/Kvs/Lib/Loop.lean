import Mathlib

/-!
# `Lib.Loop` — loops with a body and a bound

The body of a loop maps its variables to their next values (`.inl`) or leaves the loop with a result
(`.inr`). `iterate` runs it a bounded number of times. A number that every further iteration makes smaller
bounds the iterations (`iterate_ends`), and a function that satisfies the equation of the body is what the
loop computes (`iterate_computes`).
-/

namespace Loop

variable {σ ρ : Type*}

/-- The result of the loop, if it ends within that many iterations. -/
def iterate (body : σ → σ ⊕ ρ) : Nat → σ → Option ρ
  | 0, _ => none
  | n + 1, s =>
      match body s with
      | .inl s' => iterate body n s'
      | .inr r => some r

variable {body : σ → σ ⊕ ρ}

theorem iterate_succ_inl {s s' : σ} (h : body s = .inl s') (n : Nat) :
    iterate body (n + 1) s = iterate body n s' := by
  rw [iterate, h]

theorem iterate_succ_inr {s : σ} {r : ρ} (h : body s = .inr r) (n : Nat) :
    iterate body (n + 1) s = some r := by
  rw [iterate, h]

/-- **Loops that end.** Every iteration that does not leave makes `μ` smaller, so `μ` and one more are
    enough iterations. -/
theorem iterate_ends (μ : σ → Nat) (hμ : ∀ s s', body s = .inl s' → μ s' < μ s) {n : Nat} {s : σ}
    (hn : μ s < n) : ∃ r, iterate body n s = some r := by
  induction n generalizing s with
  | zero => exact absurd hn (Nat.not_lt_zero _)
  | succ n ih =>
      cases hb : body s with
      | inl s' =>
          rw [iterate_succ_inl hb]
          have hlt := hμ s s' hb
          exact ih (by omega)
      | inr r => exact ⟨r, iterate_succ_inr hb n⟩

/-- The equation of the body, for the function the loop computes. -/
def Solves (body : σ → σ ⊕ ρ) (f : σ → ρ) : Prop :=
  ∀ s, f s = match body s with
    | .inl s' => f s'
    | .inr r => r

/-- **What a loop computes.** -/
theorem iterate_computes {f : σ → ρ} (hf : Solves body f) {n : Nat} {s : σ} {r : ρ}
    (h : iterate body n s = some r) : r = f s := by
  induction n generalizing s with
  | zero => exact absurd h (by simp [iterate])
  | succ n ih =>
      have heq := hf s
      cases hb : body s with
      | inl s' =>
          rw [iterate_succ_inl hb] at h
          rw [hb] at heq
          exact (ih h).trans heq.symm
      | inr r' =>
          rw [iterate_succ_inr hb] at h
          rw [hb] at heq
          exact (Option.some.inj h).symm.trans heq.symm

/-- A loop with a measure and an equation. -/
theorem iterate_eq {f : σ → ρ} (hf : Solves body f) (μ : σ → Nat)
    (hμ : ∀ s s', body s = .inl s' → μ s' < μ s) {n : Nat} {s : σ} (hn : μ s < n) :
    iterate body n s = some (f s) := by
  obtain ⟨r, hr⟩ := iterate_ends μ hμ hn
  rw [hr, iterate_computes hf hr]

end Loop
