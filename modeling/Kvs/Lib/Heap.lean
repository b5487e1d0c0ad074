import Mathlib

/-!
# `Lib.Heap` — programs with pointers

Blocks of memory at addresses, and programs that allocate, load, store and free them. An access to a
block that is not there, and a second `free`, end the program with no result. The allocator is any
function that gives an address not in use; it may give one that was freed before, and may give another
one when it is asked again.

Assertions describe the blocks a program owns, all of them. `Triple P c Q` says that in a memory with
blocks as in `P`, and any others, `c` ends with a result, has left the others alone, and owns what `Q`
describes: no access goes astray, and what is neither in `Q` nor was somewhere else has been freed.

## Contents
- **Programs.** `Heap`, `Allocator`, `Prog` and its primitives.
- **Assertions.** `emp`, `pointsTo`, `sep`, `fact`, `ex`, `bigSep`.
- **Triples.** The rules of consequence, of the frame and of the primitives.
- **Lists.** `chain`: cells that point to one another.
-/

namespace HeapLogic

abbrev Addr := Nat

/-- A pointer; `none` is `NULL`. -/
abbrev Ptr := Option Addr

/-- The blocks in use. -/
abbrev Heap (β : Type) := Finmap (fun _ : Addr => β)

/-- Where the `n`-th allocation finds its block. -/
structure Allocator (β : Type) where
  pick : Nat → Heap β → Addr
  fresh : ∀ n h, pick n h ∉ h

/-- The blocks in use, and the number of allocations so far. -/
structure Memory (β : Type) where
  heap : Heap β
  mallocs : Nat

/-- A program; no result where its behaviour is undefined. -/
def Prog (β : Type) : Type → Type := StateT (Memory β) Option

instance (β : Type) : Monad (Prog β) := inferInstanceAs (Monad (StateT (Memory β) Option))

variable {β α γ : Type}

namespace Prog

def fail : Prog β α := fun _ => none

/-- A result that may be missing. -/
def ofOption (x : Option α) : Prog β α := fun m => x.map (fun a => (a, m))

def malloc (A : Allocator β) (b : β) : Prog β Addr := fun m =>
  some (A.pick m.mallocs m.heap,
    ⟨Finmap.insert (A.pick m.mallocs m.heap) b m.heap, m.mallocs + 1⟩)

def load (a : Addr) : Prog β β := fun m => (m.heap.lookup a).map (fun b => (b, m))

def store (a : Addr) (b : β) : Prog β Unit := fun m =>
  if a ∈ m.heap then some ((), { m with heap := m.heap.insert a b }) else none

/-- `free(NULL)` does nothing. -/
def free : Ptr → Prog β Unit
  | none => pure ()
  | some a => fun m => if a ∈ m.heap then some ((), { m with heap := m.heap.erase a }) else none

theorem bind_apply (c : Prog β α) (k : α → Prog β γ) (m : Memory β) :
    (c >>= k) m = (c m).bind (fun r => k r.1 r.2) := rfl

end Prog

/-! ## Assertions -/

abbrev Assertion (β : Type) := Heap β → Prop

/-- No block. -/
def emp : Assertion β := fun h => h = ∅

/-- One block, at `a`. -/
def pointsTo (a : Addr) (b : β) : Assertion β := fun h => h = Finmap.singleton a b

/-- The blocks of both, which are no block of each other. -/
def sep (P Q : Assertion β) : Assertion β :=
  fun h => ∃ h₁ h₂, h₁.Disjoint h₂ ∧ h = h₁ ∪ h₂ ∧ P h₁ ∧ Q h₂

/-- A fact, and no block. -/
def fact (φ : Prop) : Assertion β := fun h => φ ∧ h = ∅

/-- The blocks of one of them. -/
def ex (P : γ → Assertion β) : Assertion β := fun h => ∃ x, P x h

/-- The blocks of all of them. -/
def bigSep {ι : Type} (l : List ι) (P : ι → Assertion β) : Assertion β :=
  (l.map P).foldr sep emp

section Algebra

variable {P Q R : Assertion β}

theorem sep_comm (P Q : Assertion β) : sep P Q = sep Q P := by
  have hswap : ∀ (P Q : Assertion β) h, sep P Q h → sep Q P h := by
    rintro P Q h ⟨h₁, h₂, hd, rfl, hP, hQ⟩
    exact ⟨h₂, h₁, Finmap.Disjoint.symm _ _ hd, Finmap.union_comm_of_disjoint hd, hQ, hP⟩
  funext h
  exact propext ⟨hswap P Q h, hswap Q P h⟩

theorem sep_assoc (P Q R : Assertion β) : sep (sep P Q) R = sep P (sep Q R) := by
  funext h
  apply propext
  constructor
  · rintro ⟨_, h₃, hd, rfl, ⟨h₁, h₂, hd', rfl, hP, hQ⟩, hR⟩
    obtain ⟨h13, h23⟩ := (Finmap.disjoint_union_left _ _ _).mp hd
    exact ⟨h₁, h₂ ∪ h₃, (Finmap.disjoint_union_right _ _ _).mpr ⟨hd', h13⟩, Finmap.union_assoc, hP,
      h₂, h₃, h23, rfl, hQ, hR⟩
  · rintro ⟨h₁, _, hd, rfl, hP, h₂, h₃, hd', rfl, hQ, hR⟩
    obtain ⟨h12, h13⟩ := (Finmap.disjoint_union_right _ _ _).mp hd
    exact ⟨h₁ ∪ h₂, h₃, (Finmap.disjoint_union_left _ _ _).mpr ⟨h13, hd'⟩, Finmap.union_assoc.symm,
      ⟨h₁, h₂, h12, rfl, hP, hQ⟩, hR⟩

instance : Std.Commutative (α := Assertion β) sep := ⟨sep_comm⟩

instance : Std.Associative (α := Assertion β) sep := ⟨sep_assoc⟩

theorem sep_left_comm (P Q R : Assertion β) : sep P (sep Q R) = sep Q (sep P R) := by
  rw [← sep_assoc, sep_comm P Q, sep_assoc]

theorem sep_rotate (P Q R : Assertion β) : sep P (sep Q R) = sep R (sep P Q) := by
  rw [← sep_assoc, sep_comm]

@[simp] theorem emp_sep (P : Assertion β) : sep emp P = P := by
  funext h
  apply propext
  constructor
  · rintro ⟨_, h₂, _, rfl, rfl, hP⟩
    rwa [Finmap.empty_union]
  · intro hP
    exact ⟨∅, h, Finmap.disjoint_empty h, by rw [Finmap.empty_union], rfl, hP⟩

@[simp] theorem sep_emp (P : Assertion β) : sep P emp = P := by
  rw [sep_comm, emp_sep]

theorem fact_sep_iff {φ : Prop} {h : Heap β} : sep (fact φ) P h ↔ φ ∧ P h := by
  constructor
  · rintro ⟨_, h₂, _, rfl, ⟨hφ, rfl⟩, hP⟩
    rw [Finmap.empty_union]
    exact ⟨hφ, hP⟩
  · rintro ⟨hφ, hP⟩
    exact ⟨∅, h, Finmap.disjoint_empty h, by rw [Finmap.empty_union], ⟨hφ, rfl⟩, hP⟩

theorem ex_sep (P : γ → Assertion β) (Q : Assertion β) :
    sep (ex P) Q = ex (fun x => sep (P x) Q) := by
  funext h
  apply propext
  constructor
  · rintro ⟨h₁, h₂, hd, rfl, ⟨x, hx⟩, hQ⟩
    exact ⟨x, h₁, h₂, hd, rfl, hx, hQ⟩
  · rintro ⟨x, h₁, h₂, hd, rfl, hx, hQ⟩
    exact ⟨h₁, h₂, hd, rfl, ⟨x, hx⟩, hQ⟩

theorem sep_mono {P' Q' : Assertion β} (hP : ∀ h, P h → P' h) (hQ : ∀ h, Q h → Q' h) {h : Heap β}
    (hs : sep P Q h) : sep P' Q' h := by
  obtain ⟨h₁, h₂, hd, heq, h1, h2⟩ := hs
  exact ⟨h₁, h₂, hd, heq, hP _ h1, hQ _ h2⟩

/-! ### All of a list -/

variable {ι : Type}

@[simp] theorem bigSep_nil (P : ι → Assertion β) : bigSep [] P = emp := rfl

@[simp] theorem bigSep_cons (i : ι) (l : List ι) (P : ι → Assertion β) :
    bigSep (i :: l) P = sep (P i) (bigSep l P) := rfl

theorem bigSep_congr {l : List ι} {P P' : ι → Assertion β} (h : ∀ i ∈ l, P i = P' i) :
    bigSep l P = bigSep l P' := by
  unfold bigSep
  rw [List.map_congr_left h]

/-- One of them apart from the others. -/
theorem bigSep_erase [DecidableEq ι] {l : List ι} {i : ι} (hi : i ∈ l) (P : ι → Assertion β) :
    bigSep l P = sep (P i) (bigSep (l.erase i) P) := by
  induction l with
  | nil => exact absurd hi List.not_mem_nil
  | cons j l ih =>
      by_cases hij : j = i
      · subst hij
        rw [List.erase_cons_head, bigSep_cons]
      · have hmem : i ∈ l := (List.mem_cons.mp hi).resolve_left (fun h => hij h.symm)
        rw [List.erase_cons_tail (by simpa using hij), bigSep_cons, bigSep_cons, ih hmem,
          sep_left_comm]

/-- One of them replaced. -/
theorem bigSep_update [DecidableEq ι] {l : List ι} (hnd : l.Nodup) {i : ι} (hi : i ∈ l)
    (P P' : ι → Assertion β) (h : ∀ j ≠ i, P j = P' j) :
    bigSep l P' = sep (P' i) (bigSep (l.erase i) P) := by
  rw [bigSep_erase hi P']
  refine congrArg (sep (P' i)) (bigSep_congr (fun j hj => ?_)).symm
  exact h j (hnd.mem_erase_iff.mp hj).1

end Algebra

/-! ## Counting blocks -/

section Count

theorem card_union {h₁ h₂ : Heap β} (hd : h₁.Disjoint h₂) :
    (h₁ ∪ h₂).keys.card = h₁.keys.card + h₂.keys.card := by
  rw [Finmap.keys_union]
  refine Finset.card_union_of_disjoint (Finset.disjoint_left.mpr (fun a h1 h2 => ?_))
  exact hd a (Finmap.mem_keys.mp h1) (Finmap.mem_keys.mp h2)

/-- Every memory that `P` describes has that many blocks. -/
def Counts (P : Assertion β) (n : Nat) : Prop := ∀ h, P h → h.keys.card = n

theorem counts_emp : Counts (emp : Assertion β) 0 := by
  rintro h rfl
  rfl

theorem counts_pointsTo (a : Addr) (b : β) : Counts (pointsTo a b) 1 := by
  rintro h rfl
  rw [Finmap.keys_singleton, Finset.card_singleton]

theorem Counts.sep {P Q : Assertion β} {n m : Nat} (hP : Counts P n) (hQ : Counts Q m) :
    Counts (sep P Q) (n + m) := by
  rintro h ⟨h₁, h₂, hd, rfl, h1, h2⟩
  rw [card_union hd, hP _ h1, hQ _ h2]

theorem Counts.ex {P : γ → Assertion β} {n : Nat} (h : ∀ x, Counts (P x) n) : Counts (ex P) n := by
  rintro heap ⟨x, hx⟩
  exact h x heap hx

theorem Counts.bigSep {ι : Type} {P : ι → Assertion β} {n : ι → Nat} (h : ∀ i, Counts (P i) (n i))
    (l : List ι) : Counts (bigSep l P) (l.map n).sum := by
  induction l with
  | nil => exact counts_emp
  | cons i l ih => exact (h i).sep ih

end Count

/-! ## Triples -/

/-- **Total correctness**, with every other block of the memory left alone. -/
def Triple (P : Assertion β) (c : Prog β α) (Q : α → Assertion β) : Prop :=
  ∀ h f n, h.Disjoint f → P h → ∃ a h' n', c ⟨h ∪ f, n⟩ = some (a, ⟨h' ∪ f, n'⟩) ∧ h'.Disjoint f ∧ Q a h'

section Rules

variable {P P' R : Assertion β} {Q Q' : α → Assertion β} {c : Prog β α}

theorem Triple.pure {a : α} (h : ∀ heap, P heap → Q a heap) : Triple P (pure a) Q := by
  intro heap f n hd hP
  exact ⟨a, heap, n, rfl, hd, h heap hP⟩

theorem Triple.bind {k : α → Prog β γ} {S : γ → Assertion β} (hc : Triple P c Q)
    (hk : ∀ a, Triple (Q a) (k a) S) : Triple P (c >>= k) S := by
  intro h f n hd hP
  obtain ⟨a, h', n', hrun, hd', hQ⟩ := hc h f n hd hP
  obtain ⟨b, h'', n'', hrun', hd'', hS⟩ := hk a h' f n' hd' hQ
  refine ⟨b, h'', n'', ?_, hd'', hS⟩
  rw [Prog.bind_apply, hrun]
  exact hrun'

theorem Triple.consequence (hc : Triple P c Q) (hP : ∀ h, P' h → P h) (hQ : ∀ a h, Q a h → Q' a h) :
    Triple P' c Q' := by
  intro h f n hd hP'
  obtain ⟨a, h', n', hrun, hd', hQa⟩ := hc h f n hd (hP h hP')
  exact ⟨a, h', n', hrun, hd', hQ a h' hQa⟩

/-- The same blocks in another order. -/
theorem Triple.pre (heq : P' = P) (hc : Triple P c Q) : Triple P' c Q := heq ▸ hc

/-- **The frame rule.** -/
theorem Triple.frame (hc : Triple P c Q) (R : Assertion β) :
    Triple (sep P R) c (fun a => sep (Q a) R) := by
  rintro _ f n hd ⟨h₁, h₂, hd12, rfl, hP, hR⟩
  obtain ⟨h1f, h2f⟩ := (Finmap.disjoint_union_left _ _ _).mp hd
  obtain ⟨a, h', n', hrun, hd', hQ⟩ := hc h₁ (h₂ ∪ f) n
    ((Finmap.disjoint_union_right _ _ _).mpr ⟨hd12, h1f⟩) hP
  obtain ⟨h'2, h'f⟩ := (Finmap.disjoint_union_right _ _ _).mp hd'
  refine ⟨a, h' ∪ h₂, n', ?_, (Finmap.disjoint_union_left _ _ _).mpr ⟨h'f, h2f⟩, h', h₂, h'2, rfl, hQ, hR⟩
  rw [Finmap.union_assoc, Finmap.union_assoc]
  exact hrun

/-- A program run on a part of the blocks, and what comes after it. -/
theorem Triple.seq {k : α → Prog β γ} {S : γ → Assertion β} (hc : Triple P c Q) (R : Assertion β)
    (hk : ∀ a, Triple (sep (Q a) R) (k a) S) : Triple (sep P R) (c >>= k) S :=
  (hc.frame R).bind hk

theorem Triple.of_ex {P : γ → Assertion β} (h : ∀ x, Triple (P x) c Q) : Triple (ex P) c Q := by
  rintro heap f n hd ⟨x, hx⟩
  exact h x heap f n hd hx

theorem Triple.of_fact {φ : Prop} (h : φ → Triple P c Q) : Triple (sep (fact φ) P) c Q := by
  intro heap f n hd hs
  obtain ⟨hφ, hP⟩ := fact_sep_iff.mp hs
  exact h hφ heap f n hd hP

/-- A program that only looks at `P`, and what comes after it. -/
theorem Triple.reads {k : α → Prog β γ} {S : γ → Assertion β} {v : α}
    (hc : Triple P c (fun x => sep (fact (x = v)) P)) (h : Triple (sep P R) (k v) S) :
    Triple (sep P R) (c >>= k) S := by
  refine hc.seq R (fun x => ?_)
  rw [sep_assoc]
  refine Triple.of_fact (fun hx => ?_)
  rw [hx]
  exact h

/-- A known result, passed on. -/
theorem Triple.returns {v : α} {f : α → γ} (hc : Triple P c (fun r => sep (fact (r = v)) R)) :
    Triple P (c >>= fun r => Pure.pure (f r)) (fun r => sep (fact (r = f v)) R) := by
  refine hc.bind (fun r => Triple.of_fact (fun hr => Triple.pure (fun h hR => ?_)))
  exact fact_sep_iff.mpr ⟨congrArg f hr, hR⟩

/-- **Loops over a list**, `I` being what is owned when these elements are left. -/
theorem Triple.forM {ι : Type} {I : List ι → Assertion β} {f : ι → Prog β PUnit}
    (h : ∀ i rest, Triple (I (i :: rest)) (f i) (fun _ => I rest)) (l : List ι) :
    Triple (I l) (l.forM f) (fun _ => I []) := by
  induction l with
  | nil => exact Triple.pure (fun _ hI => hI)
  | cons i l ih => exact (h i l).bind (fun _ => ih)

/-! ### The primitives -/

theorem disjoint_singleton {f : Heap β} {a : Addr} {b : β} :
    (Finmap.singleton a b : Heap β).Disjoint f ↔ a ∉ f := by
  constructor
  · intro h
    exact h a ((Finmap.mem_singleton _ _ _).mpr rfl)
  · intro h x hx
    obtain rfl := (Finmap.mem_singleton _ _ _).mp hx
    exact h

/-- The memory after a store to the block of its own. -/
theorem insert_singleton_union (a : Addr) (b b' : β) (f : Heap β) :
    Finmap.insert a b' (Finmap.singleton a b ∪ f) = Finmap.singleton a b' ∪ f := by
  rw [Finmap.insert_union, Finmap.insert_singleton_eq]

theorem triple_malloc (A : Allocator β) (b : β) :
    Triple emp (Prog.malloc A b) (fun a => pointsTo a b) := by
  rintro _ f n _ rfl
  rw [Finmap.empty_union]
  refine ⟨_, Finmap.singleton (A.pick n f) b, n + 1, ?_, disjoint_singleton.mpr (A.fresh n f), rfl⟩
  refine congrArg (fun h => some (A.pick n f, Memory.mk h (n + 1))) ?_
  apply Finmap.ext_lookup
  intro x
  show (Finmap.insert (A.pick n f) b f).lookup x = _
  by_cases hx : x = A.pick n f
  · subst hx
    rw [Finmap.lookup_insert, Finmap.lookup_union_left ((Finmap.mem_singleton _ _ _).mpr rfl),
      Finmap.lookup_singleton_eq]
  · rw [Finmap.lookup_insert_of_ne _ hx, Finmap.lookup_union_right]
    exact fun h => hx ((Finmap.mem_singleton _ _ _).mp h)

theorem triple_load (a : Addr) (b : β) :
    Triple (pointsTo a b) (Prog.load a) (fun x => sep (fact (x = b)) (pointsTo a b)) := by
  rintro _ f n hd rfl
  refine ⟨b, _, n, ?_, hd, fact_sep_iff.mpr ⟨rfl, rfl⟩⟩
  show Option.map _ (Finmap.lookup a (Finmap.singleton a b ∪ f)) = _
  rw [Finmap.lookup_union_left ((Finmap.mem_singleton _ _ _).mpr rfl), Finmap.lookup_singleton_eq]
  rfl

theorem triple_store (a : Addr) (b b' : β) :
    Triple (pointsTo a b) (Prog.store a b') (fun _ => pointsTo a b') := by
  rintro _ f n hd rfl
  have hmem : a ∈ (Finmap.singleton a b : Heap β) ∪ f :=
    Finmap.mem_union.mpr (Or.inl ((Finmap.mem_singleton _ _ _).mpr rfl))
  refine ⟨(), Finmap.singleton a b', n, ?_, disjoint_singleton.mpr (disjoint_singleton.mp hd), rfl⟩
  show (if _ then _ else _) = _
  rw [if_pos hmem]
  exact congrArg (fun h => some ((), Memory.mk h n)) (insert_singleton_union a b b' f)

theorem triple_free (a : Addr) (b : β) :
    Triple (pointsTo a b) (Prog.free (some a)) (fun _ => emp) := by
  rintro _ f n hd rfl
  have hmem : a ∈ (Finmap.singleton a b : Heap β) ∪ f :=
    Finmap.mem_union.mpr (Or.inl ((Finmap.mem_singleton _ _ _).mpr rfl))
  have hf : a ∉ f := disjoint_singleton.mp hd
  refine ⟨(), ∅, n, ?_, Finmap.disjoint_empty f, rfl⟩
  show (if _ then _ else _) = _
  rw [if_pos hmem]
  refine congrArg (fun h => some ((), Memory.mk h n)) ?_
  apply Finmap.ext_lookup
  intro x
  rw [Finmap.empty_union]
  by_cases hx : x = a
  · subst hx
    rw [Finmap.lookup_erase, Finmap.lookup_eq_none.mpr hf]
  · rw [Finmap.lookup_erase_ne hx, Finmap.lookup_union_right]
    exact fun h => hx ((Finmap.mem_singleton _ _ _).mp h)

/-! ### The primitives, and what comes after them -/

variable {k : Addr → Prog β γ} {S : γ → Assertion β} {a : Addr} {b b' : β}

theorem Triple.malloc {A : Allocator β} (h : ∀ a, Triple (sep (pointsTo a b) P) (k a) S) :
    Triple P (Prog.malloc A b >>= k) S :=
  Triple.pre (emp_sep P).symm ((triple_malloc A b).seq P h)

theorem Triple.load {k : β → Prog β γ} (h : Triple (sep (pointsTo a b) P) (k b) S) :
    Triple (sep (pointsTo a b) P) (Prog.load a >>= k) S :=
  (triple_load a b).reads h

theorem Triple.store {k : Unit → Prog β γ} (h : Triple (sep (pointsTo a b') P) (k ()) S) :
    Triple (sep (pointsTo a b) P) (Prog.store a b' >>= k) S :=
  (triple_store a b b').seq P (fun _ => h)

theorem Triple.free {k : Unit → Prog β γ} (h : Triple P (k ()) S) :
    Triple (sep (pointsTo a b) P) (Prog.free (some a) >>= k) S :=
  (triple_free a b).seq P (fun _ => Triple.pre (emp_sep P) h)

theorem Triple.ofOption {x : Option α} {k : α → Prog β γ} {y : α} (hx : x = some y)
    (h : Triple P (k y) S) : Triple P (Prog.ofOption x >>= k) S := by
  subst hx
  exact h

end Rules

/-! ## Lists -/

section Chain

variable {cell : Addr → α → Ptr → Assertion β}

/-- Cells that point to one another, from `p` on; `cell a x next` is the cell at `a` with `x` in it that
    points to `next`. -/
def chain (cell : Addr → α → Ptr → Assertion β) : List α → Ptr → Assertion β
  | [], none => emp
  | x :: xs, some a => ex (fun next => sep (cell a x next) (chain cell xs next))
  | _, _ => fun _ => False

theorem chain_nil_iff {p : Ptr} {h : Heap β} : chain cell [] p h ↔ p = none ∧ h = ∅ := by
  cases p with
  | none => simp [chain, emp]
  | some a => simp [chain]

/-- What follows from a chain follows from each of its two forms. -/
theorem Triple.chain_cases {xs : List α} {p : Ptr} {P : Assertion β} {c : Prog β γ}
    {Q : γ → Assertion β} (hnil : xs = [] → p = none → Triple P c Q)
    (hcons : ∀ x rest a next, xs = x :: rest → p = some a →
      Triple (sep (cell a x next) (sep (chain cell rest next) P)) c Q) :
    Triple (sep (chain cell xs p) P) c Q := by
  match xs, p with
  | [], none => exact Triple.pre (emp_sep P) (hnil rfl rfl)
  | x :: rest, some a =>
      refine Triple.pre (ex_sep _ P) (Triple.of_ex (fun next => ?_))
      rw [sep_assoc]
      exact hcons x rest a next rfl rfl
  | [], some a =>
      rintro h f n _ ⟨_, _, _, _, hfalse, _⟩
      exact hfalse.elim
  | x :: rest, none =>
      rintro h f n _ ⟨_, _, _, _, hfalse, _⟩
      exact hfalse.elim

/-- A cell in front of a chain is a chain. -/
theorem chain_fold {a : Addr} {x : α} {next : Ptr} {xs : List α} {h : Heap β}
    (hs : sep (cell a x next) (chain cell xs next) h) : chain cell (x :: xs) (some a) h :=
  ⟨next, hs⟩

theorem Counts.chain {n : Nat} (hcell : ∀ a x next, Counts (cell a x next) n) (xs : List α) (p : Ptr) :
    Counts (chain cell xs p) (n * xs.length) := by
  induction xs generalizing p with
  | nil =>
      intro h hchain
      obtain ⟨_, rfl⟩ := chain_nil_iff.mp hchain
      rfl
  | cons x xs ih =>
      cases p with
      | none => exact fun _ hfalse => hfalse.elim
      | some a =>
          have hlength : n * (x :: xs).length = n + n * xs.length := by
            rw [List.length_cons]
            ring
          rw [hlength]
          exact Counts.ex (fun next => (hcell a x next).sep (ih next))

end Chain

end HeapLogic
