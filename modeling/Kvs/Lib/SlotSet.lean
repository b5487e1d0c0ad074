import Mathlib

/-!
# `Lib.SlotSet` — a bounded set in an array of slots

A fixed array of slots holds the members of a set, one marker value saying that a slot is free. What the
array is for is a set with a capacity: `add` takes a new member while there is room, `remove` takes a
member out. The laws say what filling a free slot and freeing a slot do to the members, and that there is
a free slot exactly when there is room, under the invariant that no member is in two slots.
-/

namespace SlotSet

/-! ## Bounded sets -/

section Bounded

variable {α : Type*} [DecidableEq α]

/-- `s` with `a`, or `none` when `a` is there or `s` is full. -/
def add (capacity : ℕ) (a : α) (s : Finset α) : Option (Finset α) :=
  if a ∉ s ∧ s.card < capacity then some (insert a s) else none

/-- `s` without `a`, or `none` when `a` is not there. -/
def remove (a : α) (s : Finset α) : Option (Finset α) := if a ∈ s then some (s.erase a) else none

end Bounded

/-! ## Slots -/

variable {ι α : Type*} [Fintype ι] [DecidableEq α] {free : α} {slots : ι → α}

/-- The values in the slots that are not free. -/
def members (free : α) (slots : ι → α) : Finset α := (Finset.univ.image slots).erase free

/-- No member is in two slots. -/
def Distinct (free : α) (slots : ι → α) : Prop :=
  ∀ i j, slots i ≠ free → slots i = slots j → i = j

theorem mem_members {a : α} : a ∈ members free slots ↔ a ≠ free ∧ ∃ i, slots i = a := by
  simp [members]

theorem notMem_members {a : α} (ha : a ≠ free) : a ∉ members free slots ↔ ∀ i, slots i ≠ a := by
  rw [mem_members, not_and, not_exists]
  exact ⟨fun h => h ha, fun h _ => h⟩

theorem members_eq_empty (h : ∀ i, slots i = free) : members free slots = ∅ := by
  refine Finset.eq_empty_of_forall_notMem ?_
  intro a ha
  obtain ⟨hne, i, rfl⟩ := mem_members.mp ha
  exact hne (h i)

/-- As many members as slots that are not free. -/
theorem card_members (h : Distinct free slots) :
    (members free slots).card = (Finset.univ.filter (fun i => slots i ≠ free)).card := by
  have himage : members free slots = (Finset.univ.filter (fun i => slots i ≠ free)).image slots := by
    ext a
    simp only [mem_members, Finset.mem_image, Finset.mem_filter, Finset.mem_univ, true_and]
    constructor
    · rintro ⟨ha, i, rfl⟩
      exact ⟨i, ha, rfl⟩
    · rintro ⟨i, hi, rfl⟩
      exact ⟨hi, i, rfl⟩
  rw [himage, Finset.card_image_of_injOn]
  intro i hi j _ hij
  exact h i j (Finset.mem_filter.mp hi).2 hij

/-- There is a free slot exactly when there is room. -/
theorem exists_free_iff (h : Distinct free slots) :
    (∃ i, slots i = free) ↔ (members free slots).card < Fintype.card ι := by
  rw [card_members h, ← Finset.card_univ]
  constructor
  · rintro ⟨i, hi⟩
    refine Finset.card_lt_card (Finset.filter_ssubset.mpr ⟨i, Finset.mem_univ i, ?_⟩)
    exact not_not.mpr hi
  · intro hlt
    by_contra hnone
    have hall : Finset.univ.filter (fun i => slots i ≠ free) = Finset.univ :=
      Finset.filter_true_of_mem (fun i _ hi => hnone ⟨i, hi⟩)
    rw [hall] at hlt
    exact absurd hlt (lt_irrefl _)

/-- All slots are taken exactly when the set is full. -/
theorem forall_ne_free_iff (h : Distinct free slots) :
    (∀ i, slots i ≠ free) ↔ (members free slots).card = Fintype.card ι := by
  have hle : (members free slots).card ≤ Fintype.card ι := by
    rw [card_members h]
    exact Finset.card_le_univ _
  rw [← not_exists, exists_free_iff h]
  omega

variable [DecidableEq ι]

/-! ## Filling a slot -/

theorem members_fill {i : ι} (hi : slots i = free) {a : α} (ha : a ≠ free) :
    members free (Function.update slots i a) = insert a (members free slots) := by
  ext b
  rw [Finset.mem_insert, mem_members, mem_members]
  constructor
  · rintro ⟨hb, j, hj⟩
    by_cases hji : j = i
    · subst hji
      rw [Function.update_self] at hj
      exact Or.inl hj.symm
    · rw [Function.update_of_ne hji] at hj
      exact Or.inr ⟨hb, j, hj⟩
  · rintro (rfl | ⟨hb, j, hj⟩)
    · exact ⟨ha, i, Function.update_self _ _ _⟩
    · -- a slot that is not free is another
      have hji : j ≠ i := fun hji => hb (hj.symm.trans (hji ▸ hi))
      exact ⟨hb, j, (Function.update_of_ne hji _ _).trans hj⟩

omit [Fintype ι] [DecidableEq α] in
theorem Distinct.fill (h : Distinct free slots) {a : α} (hnew : ∀ j, slots j ≠ a) (i : ι) :
    Distinct free (Function.update slots i a) := by
  intro j k hj hjk
  by_cases hji : j = i
  · by_cases hki : k = i
    · exact hji.trans hki.symm
    · rw [hji, Function.update_self, Function.update_of_ne hki] at hjk
      exact absurd hjk.symm (hnew k)
  · rw [Function.update_of_ne hji] at hj hjk
    by_cases hki : k = i
    · rw [hki, Function.update_self] at hjk
      exact absurd hjk (hnew j)
    · rw [Function.update_of_ne hki] at hjk
      exact h j k hj hjk

/-- A slot that is filled is one free slot less. -/
theorem card_vacant_fill {i : ι} (hi : slots i = free) {a : α} (ha : a ≠ free) :
    (Finset.univ.filter (fun j => Function.update slots i a j = free)).card + 1
      = (Finset.univ.filter (fun j => slots j = free)).card := by
  have herase : Finset.univ.filter (fun j => Function.update slots i a j = free)
      = (Finset.univ.filter (fun j => slots j = free)).erase i := by
    ext j
    simp only [Finset.mem_filter, Finset.mem_univ, true_and, Finset.mem_erase]
    by_cases hji : j = i
    · subst hji
      simp [ha]
    · simp [hji]
  have hmem : i ∈ Finset.univ.filter (fun j => slots j = free) :=
    Finset.mem_filter.mpr ⟨Finset.mem_univ i, hi⟩
  rw [herase, Finset.card_erase_add_one hmem]

/-! ## Freeing a slot -/

theorem members_clear (h : Distinct free slots) {i : ι} (hi : slots i ≠ free) :
    members free (Function.update slots i free) = (members free slots).erase (slots i) := by
  ext b
  rw [Finset.mem_erase, mem_members, mem_members]
  constructor
  · rintro ⟨hb, j, hj⟩
    have hji : j ≠ i := by
      rintro rfl
      rw [Function.update_self] at hj
      exact hb hj.symm
    rw [Function.update_of_ne hji] at hj
    refine ⟨?_, hb, j, hj⟩
    rintro rfl
    exact hji (h i j hi hj.symm).symm
  · rintro ⟨hne, hb, j, rfl⟩
    have hji : j ≠ i := fun hji => hne (congrArg slots hji)
    exact ⟨hb, j, Function.update_of_ne hji _ _⟩

omit [Fintype ι] [DecidableEq α] in
theorem Distinct.clear (h : Distinct free slots) (i : ι) :
    Distinct free (Function.update slots i free) := by
  intro j k hj hjk
  by_cases hji : j = i
  · rw [hji, Function.update_self] at hj
    exact absurd rfl hj
  · rw [Function.update_of_ne hji] at hj hjk
    by_cases hki : k = i
    · rw [hki, Function.update_self] at hjk
      exact absurd hjk hj
    · rw [Function.update_of_ne hki] at hjk
      exact h j k hj hjk

end SlotSet
