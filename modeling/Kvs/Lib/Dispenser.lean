import Mathlib

/-!
# `Lib.Dispenser` — a dispenser of numbered tickets

Whoever takes a ticket gets the next number and holds it until it is used. However tickets are taken and
used, no number is out twice, and when nobody holds one, the tickets used are the numbers below the next.
-/

/-- The next number, the ticket that each taker holds, and the tickets used so far. -/
structure Dispenser (T : Type*) where
  next : Nat
  held : T → Option Nat
  used : List Nat

namespace Dispenser

variable {T : Type*}

def init : Dispenser T := ⟨0, fun _ => none, []⟩

/-- Each number below the next is held by one taker or has been used once, and no other number is. -/
structure Inv (d : Dispenser T) : Prop where
  heldBelow : ∀ t i, d.held t = some i → i < d.next
  heldOnce : ∀ t u i, d.held t = some i → d.held u = some i → u = t
  heldUnused : ∀ t i, d.held t = some i → i ∉ d.used
  usedBelow : ∀ i ∈ d.used, i < d.next
  usedOnce : d.used.Nodup
  given : ∀ i < d.next, i ∈ d.used ∨ ∃ t, d.held t = some i

theorem inv_init : Inv (init (T := T)) where
  heldBelow _ _ h := absurd h (by simp [init])
  heldOnce _ _ _ h := absurd h (by simp [init])
  heldUnused _ _ h := absurd h (by simp [init])
  usedBelow _ h := absurd h (by simp [init])
  usedOnce := List.nodup_nil
  given _ h := absurd h (Nat.not_lt_zero _)

variable [DecidableEq T]

/-- `t` takes the next ticket. -/
def take (d : Dispenser T) (t : T) : Dispenser T :=
  { d with next := d.next + 1, held := Function.update d.held t (some d.next) }

/-- `t` uses its ticket `i`. -/
def use (d : Dispenser T) (t : T) (i : Nat) : Dispenser T :=
  { d with held := Function.update d.held t none, used := d.used ++ [i] }

theorem held_take (d : Dispenser T) (t u : T) :
    (d.take t).held u = if u = t then some d.next else d.held u :=
  Function.update_apply _ _ _ _

theorem held_use (d : Dispenser T) (t : T) (i : Nat) (u : T) :
    (d.use t i).held u = if u = t then none else d.held u :=
  Function.update_apply _ _ _ _

/-- What is held after a ticket was taken is that ticket, or was held before. -/
theorem held_take_eq_some {d : Dispenser T} {t u : T} {i : Nat} (h : (d.take t).held u = some i) :
    (u = t ∧ i = d.next) ∨ d.held u = some i := by
  rw [held_take] at h
  split at h
  · next heq => exact Or.inl ⟨heq, (Option.some.inj h).symm⟩
  · exact Or.inr h

/-- What is held after a ticket was used is held by another. -/
theorem held_use_eq_some {d : Dispenser T} {t u : T} {i j : Nat} (h : (d.use t i).held u = some j) :
    u ≠ t ∧ d.held u = some j := by
  rw [held_use] at h
  split at h
  · exact absurd h (by simp)
  · next hne => exact ⟨hne, h⟩

theorem mem_used_use {d : Dispenser T} {t : T} {i j : Nat} :
    j ∈ (d.use t i).used ↔ j ∈ d.used ∨ j = i := by
  show j ∈ d.used ++ [i] ↔ _
  rw [List.mem_append, List.mem_singleton]

/-- A ticket taken is a new one. -/
theorem Inv.take {d : Dispenser T} (h : Inv d) {t : T} (hnone : d.held t = none) :
    Inv (d.take t) where
  heldBelow u i hu := by
    show i < d.next + 1
    rcases held_take_eq_some hu with ⟨_, rfl⟩ | hold
    · exact Nat.lt_succ_self _
    · exact Nat.lt_succ_of_lt (h.heldBelow u i hold)
  heldOnce u v i hu hv := by
    rcases held_take_eq_some hu with ⟨hut, hnew⟩ | hold
    · rcases held_take_eq_some hv with ⟨hvt, _⟩ | hother
      · exact hvt.trans hut.symm
      · exact absurd (hnew ▸ h.heldBelow v i hother) (lt_irrefl _)
    · rcases held_take_eq_some hv with ⟨_, hnew⟩ | hother
      · exact absurd (hnew ▸ h.heldBelow u i hold) (lt_irrefl _)
      · exact h.heldOnce u v i hold hother
  heldUnused u i hu := by
    rcases held_take_eq_some hu with ⟨_, rfl⟩ | hold
    · intro hused
      exact lt_irrefl _ (h.usedBelow _ hused)
    · exact h.heldUnused u i hold
  usedBelow i hi := Nat.lt_succ_of_lt (h.usedBelow i hi)
  usedOnce := h.usedOnce
  given i hi := by
    rcases Nat.lt_succ_iff_lt_or_eq.mp hi with hlt | rfl
    · rcases h.given i hlt with hused | ⟨u, hu⟩
      · exact Or.inl hused
      · have hne : u ≠ t := by
          rintro rfl
          rw [hnone] at hu
          exact absurd hu (by simp)
        refine Or.inr ⟨u, ?_⟩
        rw [held_take, if_neg hne]
        exact hu
    · exact Or.inr ⟨t, by rw [held_take, if_pos rfl]⟩

/-- A ticket used was not used before. -/
theorem Inv.use {d : Dispenser T} (h : Inv d) {t : T} {i : Nat} (hi : d.held t = some i) :
    Inv (d.use t i) where
  heldBelow u j hu := h.heldBelow u j (held_use_eq_some hu).2
  heldOnce u v j hu hv := h.heldOnce u v j (held_use_eq_some hu).2 (held_use_eq_some hv).2
  heldUnused u j hu hused := by
    obtain ⟨hne, hold⟩ := held_use_eq_some hu
    rcases mem_used_use.mp hused with hbefore | rfl
    · exact h.heldUnused u j hold hbefore
    · exact hne (h.heldOnce t u j hi hold)
  usedBelow j hj := by
    rcases mem_used_use.mp hj with hbefore | rfl
    · exact h.usedBelow j hbefore
    · exact h.heldBelow t j hi
  usedOnce := by
    have hnew := h.heldUnused t i hi
    refine List.nodup_append.mpr ⟨h.usedOnce, List.nodup_singleton i, ?_⟩
    intro j hj k hk heq
    rw [List.mem_singleton.mp hk] at heq
    exact hnew (heq ▸ hj)
  given j hj := by
    rcases h.given j hj with hused | ⟨u, hu⟩
    · exact Or.inl (mem_used_use.mpr (Or.inl hused))
    · by_cases hut : u = t
      · subst hut
        rw [hi] at hu
        exact Or.inl (mem_used_use.mpr (Or.inr (Option.some.inj hu).symm))
      · refine Or.inr ⟨u, ?_⟩
        rw [held_use, if_neg hut]
        exact hu

omit [DecidableEq T] in
/-- When nobody holds a ticket, the numbers below the next have each been used once. -/
theorem Inv.used_perm {d : Dispenser T} (h : Inv d) (hnone : ∀ t, d.held t = none) :
    d.used.Perm (List.range d.next) := by
  refine (List.perm_ext_iff_of_nodup h.usedOnce List.nodup_range).mpr ?_
  intro i
  rw [List.mem_range]
  constructor
  · exact h.usedBelow i
  · intro hi
    rcases h.given i hi with hused | ⟨t, ht⟩
    · exact hused
    · rw [hnone t] at ht
      exact absurd ht (by simp)

end Dispenser
