import Mathlib

/-!
# `Lib.Transition` — runs of a partial step function

A system is a function that gives the next state for an event, or `none` where the event cannot happen.
A run is given by its events. Invariants are carried along runs, of all events or of those events that
are taken in states where a condition is met.

A machine may also reply to each of its events. `AnswersAlike` compares two machines, one of them a
specification, on the same events: both can take them, they reply the same, and end in related states.
-/

namespace Transition

variable {σ ε : Type*} (step : σ → ε → Option σ)

/-- The state after these events, if each of them can happen. -/
def run : List ε → σ → Option σ
  | [], s => some s
  | e :: es, s => (step s e).bind (run es)

/-- Every event of the run is taken in a state that meets `P` with it. -/
def StepsMeet (P : σ → ε → Prop) : List ε → σ → Prop
  | [], _ => True
  | e :: es, s => P s e ∧
      match step s e with
      | none => True
      | some s' => StepsMeet P es s'

instance decidableStepsMeet (P : σ → ε → Prop) [∀ s e, Decidable (P s e)] :
    (es : List ε) → (s : σ) → Decidable (StepsMeet step P es s)
  | [], _ => isTrue trivial
  | e :: es, s =>
      @instDecidableAnd (P s e) _ _
        (match step s e with
          | none => isTrue trivial
          | some s' => decidableStepsMeet P es s')

variable {step}

theorem run_cons_eq_some {e : ε} {es : List ε} {s s' : σ} :
    run step (e :: es) s = some s' ↔ ∃ u, step s e = some u ∧ run step es u = some s' := by
  simp [run, Option.bind_eq_some_iff]

theorem run_append {es fs : List ε} {s : σ} :
    run step (es ++ fs) s = (run step es s).bind (run step fs) := by
  induction es generalizing s with
  | nil => rfl
  | cons e es ih =>
      rw [List.cons_append, run, run]
      cases step s e with
      | none => rfl
      | some u => exact ih

theorem stepsMeet_cons {P : σ → ε → Prop} {e : ε} {es : List ε} {s u : σ} (hu : step s e = some u) :
    StepsMeet step P (e :: es) s ↔ P s e ∧ StepsMeet step P es u := by
  simp [StepsMeet, hu]

theorem stepsMeet_and {P Q : σ → ε → Prop} {es : List ε} {s : σ} (hP : StepsMeet step P es s)
    (hQ : StepsMeet step Q es s) : StepsMeet step (fun s e => P s e ∧ Q s e) es s := by
  induction es generalizing s with
  | nil => trivial
  | cons e es ih =>
      obtain ⟨hPe, hPes⟩ := hP
      obtain ⟨hQe, hQes⟩ := hQ
      refine ⟨⟨hPe, hQe⟩, ?_⟩
      cases hs : step s e with
      | none => trivial
      | some u =>
          rw [hs] at hPes hQes
          exact ih hPes hQes

theorem stepsMeet_mono {P Q : σ → ε → Prop} (hPQ : ∀ s e, P s e → Q s e) {es : List ε} {s : σ}
    (hP : StepsMeet step P es s) : StepsMeet step Q es s := by
  induction es generalizing s with
  | nil => trivial
  | cons e es ih =>
      obtain ⟨hPe, hPes⟩ := hP
      refine ⟨hPQ s e hPe, ?_⟩
      cases hs : step s e with
      | none => trivial
      | some u =>
          rw [hs] at hPes
          exact ih hPes

/-- Two conditions that agree on the steps that can be taken agree on a run. -/
theorem stepsMeet_congr {P Q : σ → ε → Prop} (hPQ : ∀ s e s', step s e = some s' → (P s e ↔ Q s e))
    {es : List ε} {s s' : σ} (hrun : run step es s = some s') :
    StepsMeet step P es s ↔ StepsMeet step Q es s := by
  induction es generalizing s with
  | nil => exact Iff.rfl
  | cons e es ih =>
      obtain ⟨u, hu, hrest⟩ := run_cons_eq_some.mp hrun
      rw [stepsMeet_cons hu, stepsMeet_cons hu]
      exact and_congr (hPQ s e u hu) (ih hrest)

/-- **Invariants of runs.** What holds at the start and is kept by every step holds after every run. -/
theorem run_invariant (Inv : σ → Prop) (hstep : ∀ s e s', Inv s → step s e = some s' → Inv s')
    {es : List ε} {s s' : σ} (hs : Inv s) (hrun : run step es s = some s') : Inv s' := by
  induction es generalizing s with
  | nil => exact Option.some.inj hrun ▸ hs
  | cons e es ih =>
      obtain ⟨u, hu, hrest⟩ := run_cons_eq_some.mp hrun
      exact ih (hstep s e u hs hu) hrest

/-- **Invariants of guarded runs.** Each step may use that it is taken in a state that meets `P`. -/
theorem run_invariant_guarded {P : σ → ε → Prop} (Inv : σ → Prop)
    (hstep : ∀ s e s', P s e → Inv s → step s e = some s' → Inv s') {es : List ε} {s s' : σ}
    (hP : StepsMeet step P es s) (hs : Inv s) (hrun : run step es s = some s') : Inv s' := by
  induction es generalizing s with
  | nil => exact Option.some.inj hrun ▸ hs
  | cons e es ih =>
      obtain ⟨u, hu, hrest⟩ := run_cons_eq_some.mp hrun
      obtain ⟨hPe, hPes⟩ := (stepsMeet_cons hu).mp hP
      exact ih hPes (hstep s e u hPe hs hu) hrest

/-- **Runs of bounded length come to a stop**: each can be continued until no event can happen. -/
theorem run_stops_of_bounded {s₀ : σ} {n : Nat}
    (hbound : ∀ es s, run step es s₀ = some s → es.length ≤ n) {es : List ε} {s : σ}
    (hrun : run step es s₀ = some s) :
    ∃ fs s', run step fs s = some s' ∧ ∀ e, step s' e = none := by
  induction hleft : n - es.length generalizing es s with
  | zero =>
      -- one more event would make the run too long
      refine ⟨[], s, rfl, fun e => ?_⟩
      by_contra hsome
      obtain ⟨s', hs'⟩ := Option.ne_none_iff_exists'.mp hsome
      have hlong := hbound (es ++ [e]) s' (by rw [run_append, hrun]; exact run_cons_eq_some.mpr ⟨s', hs', rfl⟩)
      rw [List.length_append, List.length_singleton] at hlong
      omega
  | succ m ih =>
      by_cases hstop : ∀ e, step s e = none
      · exact ⟨[], s, rfl, hstop⟩
      · obtain ⟨e, hsome⟩ := not_forall.mp hstop
        obtain ⟨u, hu⟩ := Option.ne_none_iff_exists'.mp hsome
        have hlonger : run step (es ++ [e]) s₀ = some u := by
          rw [run_append, hrun]
          exact run_cons_eq_some.mpr ⟨u, hu, rfl⟩
        obtain ⟨fs, s', hfs, hend⟩ := ih hlonger (by rw [List.length_append, List.length_singleton]; omega)
        exact ⟨e :: fs, s', run_cons_eq_some.mpr ⟨u, hu, hfs⟩, hend⟩

section Decreasing

variable {α : Type*} [Preorder α] [WellFoundedLT α] {P : ε → Prop} {rank : σ → α}

/-- **Steps that lower a rank come to a stop**: from every state, these events lead to one in which none
    of them can happen. -/
theorem stops_of_decreasing (hstep : ∀ s e s', P e → step s e = some s' → rank s' < rank s) (s : σ) :
    ∃ es s', (∀ e ∈ es, P e) ∧ run step es s = some s' ∧ ∀ e, P e → step s' e = none := by
  induction hr : rank s using WellFoundedLT.induction generalizing s with
  | ind r ih =>
      by_cases hstop : ∀ e, P e → step s e = none
      · exact ⟨[], s, by simp, rfl, hstop⟩
      · simp only [not_forall] at hstop
        obtain ⟨e, he, hsome⟩ := hstop
        obtain ⟨u, hu⟩ := Option.ne_none_iff_exists'.mp hsome
        obtain ⟨es, s', hes, hrun, hend⟩ := ih (rank u) (hr ▸ hstep s e u he hu) u rfl
        refine ⟨e :: es, s', ?_, run_cons_eq_some.mpr ⟨u, hu, hrun⟩, hend⟩
        intro e' he'
        rcases List.mem_cons.mp he' with rfl | hmem
        · exact he
        · exact hes e' hmem

/-- … and cannot go on forever. -/
theorem not_forever_of_decreasing (hstep : ∀ s e s', P e → step s e = some s' → rank s' < rank s) :
    ¬ ∃ (states : Nat → σ) (events : Nat → ε),
      ∀ n, P (events n) ∧ step (states n) (events n) = some (states (n + 1)) := by
  rintro ⟨states, events, h⟩
  obtain ⟨n, hn⟩ := WellFounded.not_rel_apply_succ (r := (· < ·)) (fun n => rank (states n))
  exact hn (hstep _ _ _ (h n).1 (h n).2)

end Decreasing

/-! ## Machines that reply -/

section Replies

variable {τ ρ : Type*}

/-- The state after these events and the replies to them, if each can happen. -/
def replies (step : σ → ε → Option (σ × ρ)) : List ε → σ → Option (σ × List ρ)
  | [], s => some (s, [])
  | e :: es, s => (step s e).bind (fun a => (replies step es a.1).map (fun b => (b.1, a.2 :: b.2)))

/-- Both machines take these events with the same replies, and end in states that `R` relates. -/
def AnswersAlike (step : σ → ε → Option (σ × ρ)) (spec : τ → ε → Option (τ × ρ)) (R : σ → τ → Prop)
    (es : List ε) (s : σ) (t : τ) : Prop :=
  ∃ s' t' rs, replies step es s = some (s', rs) ∧ replies spec es t = some (t', rs) ∧ R s' t'

theorem replies_cons_eq_some {step : σ → ε → Option (σ × ρ)} {e : ε} {es : List ε} {s s' : σ}
    {rs : List ρ} :
    replies step (e :: es) s = some (s', rs) ↔
      ∃ u r rs', step s e = some (u, r) ∧ replies step es u = some (s', rs') ∧ rs = r :: rs' := by
  constructor
  · intro h
    obtain ⟨⟨u, r⟩, hu, hrest⟩ := Option.bind_eq_some_iff.mp h
    obtain ⟨⟨v, rs'⟩, hv, heq⟩ := Option.map_eq_some_iff.mp hrest
    obtain ⟨rfl, rfl⟩ := Prod.mk.inj heq
    exact ⟨u, r, rs', hu, hv, rfl⟩
  · rintro ⟨u, r, rs', hu, hrest, rfl⟩
    rw [replies, hu, Option.bind_some, hrest]
    rfl

variable {spec : τ → ε → Option (τ × ρ)} {R : σ → τ → Prop}

theorem answersAlike_nil (step : σ → ε → Option (σ × ρ)) {s : σ} {t : τ} :
    AnswersAlike step spec R [] s t ↔ R s t := by
  constructor
  · rintro ⟨s', t', rs, hs, ht, hR⟩
    obtain ⟨rfl, rfl⟩ := Prod.mk.inj (Option.some.inj hs)
    obtain ⟨rfl, -⟩ := Prod.mk.inj (Option.some.inj ht)
    exact hR
  · intro hR
    exact ⟨s, t, [], rfl, rfl, hR⟩

/-- **One event, then the others.** -/
theorem answersAlike_cons {step : σ → ε → Option (σ × ρ)} {e : ε} {es : List ε} {s : σ} {t : τ} :
    AnswersAlike step spec R (e :: es) s t ↔
      ∃ s' t' r, step s e = some (s', r) ∧ spec t e = some (t', r) ∧
        AnswersAlike step spec R es s' t' := by
  constructor
  · rintro ⟨s', t', rs, hs, ht, hR⟩
    obtain ⟨u, r, rs', hu, hrest, rfl⟩ := replies_cons_eq_some.mp hs
    obtain ⟨v, r', rs'', hv, hrest', heq⟩ := replies_cons_eq_some.mp ht
    obtain ⟨rfl, rfl⟩ := List.cons.inj heq
    exact ⟨u, v, r, hu, hv, s', t', rs', hrest, hrest', hR⟩
  · rintro ⟨u, v, r, hu, hv, s', t', rs, hs, ht, hR⟩
    exact ⟨s', t', r :: rs, replies_cons_eq_some.mpr ⟨u, r, rs, hu, hs, rfl⟩,
      replies_cons_eq_some.mpr ⟨v, r, rs, hv, ht, rfl⟩, hR⟩

end Replies

end Transition
