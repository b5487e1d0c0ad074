import Kvs.Lib.TwoPhase

/-!
# `Lib.LockTrace` — what a command takes, holds and gives back

The trace of a command is the list of its instructions. This file reads off it the locks taken, the
operations performed and the locks given back, each in order, and the locks held after any prefix
(`heldAfter`). A command is *balanced* when it takes no lock that it holds, gives back only what it
holds and ends with nothing held. In any run of balanced commands a thread holds exactly what the
prefix it has run says (`Follows.held_eq_heldAfter`), whatever the other threads do, so a property of all
prefixes of the trace is a property of all reachable states.

For commands in three phases everything is explicit: `phases_split` says where an operation can stand.
-/

namespace Locking

variable {K Op : Type*}

/-! ## What an instruction does -/

/-- The lock an instruction takes, with its mode. -/
def Instr.taken : Instr K Op → Option (K × Mode)
  | .acquire k m => some (k, m)
  | .perform _ => none
  | .release _ => none

/-- The operation an instruction performs. -/
def Instr.operation : Instr K Op → Option Op
  | .acquire _ _ => none
  | .perform o => some o
  | .release _ => none

/-- The lock an instruction gives back. -/
def Instr.returned : Instr K Op → Option K
  | .acquire _ _ => none
  | .perform _ => none
  | .release k => some k

/-- The locks taken, in order. -/
def acquired (p : List (Instr K Op)) : List (K × Mode) := p.filterMap Instr.taken

/-- The operations performed, in order. -/
def performed (p : List (Instr K Op)) : List Op := p.filterMap Instr.operation

@[simp] theorem performed_nil : performed ([] : List (Instr K Op)) = [] := rfl

@[simp] theorem performed_acquire (k : K) (m : Mode) (p : List (Instr K Op)) :
    performed (.acquire k m :: p) = performed p := rfl

@[simp] theorem performed_perform (o : Op) (p : List (Instr K Op)) :
    performed (.perform o :: p) = o :: performed p := rfl

@[simp] theorem performed_release (k : K) (p : List (Instr K Op)) :
    performed (.release k :: p) = performed p := rfl

/-- The locks given back, in order. -/
def released (p : List (Instr K Op)) : List K := p.filterMap Instr.returned

/-- The locks held after the instructions, from those held before (`H`). -/
def heldAfter [DecidableEq K] : (K → Option Mode) → List (Instr K Op) → K → Option Mode
  | H, [] => H
  | H, .acquire k m :: p => heldAfter (Function.update H k (some m)) p
  | H, .perform _ :: p => heldAfter H p
  | H, .release k :: p => heldAfter (Function.update H k none) p

theorem heldAfter_append [DecidableEq K] (p q : List (Instr K Op)) (H : K → Option Mode) :
    heldAfter H (p ++ q) = heldAfter (heldAfter H p) q := by
  induction p generalizing H with
  | nil => rfl
  | cons i p ih => cases i <;> exact ih _

/-! ## Balanced commands -/

/-- **Balance**, from the locks held (`H`): a lock is taken only when it is not held, given back only
    when it is, and nothing is left held. -/
def Balanced [DecidableEq K] : (K → Option Mode) → List (Instr K Op) → Prop
  | H, [] => H = fun _ => none
  | H, .acquire k m :: p => H k = none ∧ Balanced (Function.update H k (some m)) p
  | H, .perform _ :: p => Balanced H p
  | H, .release k :: p => H k ≠ none ∧ Balanced (Function.update H k none) p

theorem Balanced.heldAfter_eq [DecidableEq K] {H : K → Option Mode} {p : List (Instr K Op)}
    (h : Balanced H p) : heldAfter H p = fun _ => none := by
  induction p generalizing H with
  | nil => exact h
  | cons i p ih =>
      cases i with
      | acquire k m => exact ih h.2
      | perform o => exact ih h
      | release k => exact ih h.2

/-- Commands disciplined in the sense of `Lib.TwoPhase` are balanced. -/
theorem Disciplined.balanced [DecidableEq K] {L V Out : Type*} {exec : Op → (L → V) → (L → V) × Out}
    {fp : Footprint exec} {guard : L → K} {H : K → Option Mode} {p : List (Instr K Op)}
    (h : Disciplined fp guard H p) : Balanced H p := by
  induction p generalizing H with
  | nil => exact funext h
  | cons i p ih =>
      cases i with
      | acquire k m => exact ⟨h.1, ih h.2⟩
      | perform o => exact ih h.2.2
      | release k => exact ⟨h.1, ih h.2.2⟩

/-- Operations alone, without any lock. -/
theorem balanced_performs [DecidableEq K] (ops : List Op) :
    Balanced (fun _ => none) (ops.map (.perform : Op → Instr K Op)) := by
  induction ops with
  | nil => rfl
  | cons o ops ih => exact ih

section Runs

variable {T Cmd S Out : Type*} [DecidableEq T] [DecidableEq K] {M : Machine K Op Cmd S Out}

/-- A command `c` with `p` left holds what the instructions before `p` leave held. -/
def Traced (M : Machine K Op Cmd S Out) (c : Cmd) (H : K → Option Mode) (p : List (Instr K Op)) :
    Prop :=
  Balanced H p ∧ ∃ pre, M.code c = pre ++ p ∧ H = heldAfter (fun _ => none) pre

omit [DecidableEq T] in
theorem discipline_traced (M : Machine K Op Cmd S Out) : Discipline (Traced M) where
  settled h := h.1
  acquire := by
    rintro c H k m p ⟨⟨hnew, hp⟩, pre, hcode, rfl⟩
    refine ⟨hnew, hp, pre ++ [.acquire k m], ?_, ?_⟩
    · rw [hcode, List.append_assoc, List.singleton_append]
    · rw [heldAfter_append]
      rfl
  perform := by
    rintro c H o p ⟨hp, pre, hcode, rfl⟩
    refine ⟨hp, pre ++ [.perform o], ?_, ?_⟩
    · rw [hcode, List.append_assoc, List.singleton_append]
    · rw [heldAfter_append]
      rfl
  release := by
    rintro c H k p ⟨⟨_, hp⟩, pre, hcode, rfl⟩
    refine ⟨hp, pre ++ [.release k], ?_, ?_⟩
    · rw [hcode, List.append_assoc, List.singleton_append]
    · rw [heldAfter_append]
      rfl

/-- Every run of balanced commands follows the traces. -/
theorem follows_traced {σ : S} {todo : T → List Cmd}
    (htodo : ∀ t, ∀ c ∈ todo t, Balanced (fun _ => none) (M.code c)) {sched : List T}
    {s : State T K Op Cmd S Out} (hrun : run M sched (State.init σ todo) = some s) :
    Follows M (Traced M) s := by
  apply follows_run (discipline_traced M) _ hrun
  intro t c hc
  exact ⟨htodo t c hc, [], rfl, rfl⟩

/-- **The trace tells what a thread holds**: what the instructions it has run leave held, whatever the
    other threads do. -/
theorem Follows.held_eq_heldAfter {s : State T K Op Cmd S Out} (hF : Follows M (Traced M) s) {t : T}
    {r : Running K Op Cmd Out} (hr : (s.threads t).running = some r) :
    ∃ pre, M.code r.cmd = pre ++ r.rest ∧ s.held t = heldAfter (fun _ => none) pre :=
  (hF.running t r hr).2

end Runs

/-! ## The operations that are left -/

section Operations

variable {T Cmd S Out : Type*} {M : Machine K Op Cmd S Out}

/-- What a thread has left of the command it is in. -/
def Thread.rest (th : Thread K Op Cmd Out) : List (Instr K Op) := th.running.elim [] Running.rest

/-- The operation that a thread performs next, if that is its next instruction. -/
def Thread.nextOperation (th : Thread K Op Cmd Out) : Option Op := th.rest.head?.bind Instr.operation

/-- What a thread still performs: the rest of the command it is in, and the commands to come. -/
def Machine.operations (M : Machine K Op Cmd S Out) (th : Thread K Op Cmd Out) : List Op :=
  performed th.rest ++ th.todo.flatMap (fun c => performed (M.code c))

variable [DecidableEq T] [DecidableEq K] {s u : State T K Op Cmd S Out} {t : T}

/-- A step takes the operation it performs off the front of those the thread has left. -/
theorem operations_step (h : Step M t s u) :
    M.operations (s.threads t)
        = (s.threads t).nextOperation.toList ++ M.operations (u.threads t) ∧
      u.store = (s.threads t).nextOperation.elim s.store (fun o => (M.exec o s.store).1) := by
  unfold Machine.operations Thread.nextOperation Thread.rest
  cases h with
  | start hrun htodo =>
      rw [hrun, htodo]
      simp
  | finish hrun =>
      rw [hrun]
      simp
  | acquire hrun hfree =>
      rw [hrun]
      simp [Instr.operation]
  | perform hrun =>
      rw [hrun]
      simp [Instr.operation]
  | release hrun =>
      rw [hrun]
      simp [Instr.operation]

theorem operations_step_ne {v : T} (h : Step M t s u) (hv : v ≠ t) :
    M.operations (u.threads v) = M.operations (s.threads v) := by
  cases h <;> exact congrArg M.operations (setThread_ne _ _ _ hv)

/-- **What the operations keep.** When every operation that the commands perform meets `P`, and those keep
    `Q` of the store, every state of every run has a store that meets `Q` and only such operations left. -/
theorem operations_run {P : Op → Prop} {Q : S → Prop} (hexec : ∀ o σ, P o → Q σ → Q (M.exec o σ).1)
    {σ : S} (hσ : Q σ) {todo : T → List Cmd}
    (htodo : ∀ t, ∀ c ∈ todo t, ∀ o ∈ performed (M.code c), P o) {sched : List T}
    (hrun : run M sched (State.init σ todo) = some s) :
    Q s.store ∧ ∀ t, ∀ o ∈ M.operations (s.threads t), P o := by
  refine run_invariant (fun s => Q s.store ∧ ∀ t, ∀ o ∈ M.operations (s.threads t), P o) ?_ ⟨hσ, ?_⟩ hrun
  · rintro t s u ⟨hstore, hleft⟩ hstep
    obtain ⟨hself, hstore'⟩ := operations_step hstep
    have hnext : ∀ o ∈ (s.threads t).nextOperation, P o := by
      intro o ho
      refine hleft t o ?_
      rw [hself, Option.mem_def.mp ho]
      exact List.mem_cons_self
    refine ⟨?_, fun v o ho => ?_⟩
    · rw [hstore']
      cases hop : (s.threads t).nextOperation with
      | none => exact hstore
      | some o => exact hexec o s.store (hnext o hop) hstore
    · by_cases hv : v = t
      · subst hv
        refine hleft v o ?_
        rw [hself]
        exact List.mem_append_right _ ho
      · rw [operations_step_ne hstep hv] at ho
        exact hleft v o ho
  · intro t o ho
    obtain ⟨c, hc, ho⟩ := List.mem_flatMap.mp ho
    exact htodo t c hc o ho

end Operations

/-! ## Commands in three phases -/

section Phases

variable {acqs : List (K × Mode)} {ops : List Op} {rels : List K}

theorem acquired_phases : acquired (phases acqs ops rels) = acqs := by
  simp [acquired, phases, List.filterMap_map, Function.comp_def, Instr.taken]

theorem performed_phases : performed (phases acqs ops rels) = ops := by
  simp [performed, phases, List.filterMap_map, Function.comp_def, Instr.operation]

theorem released_phases : released (phases acqs ops rels) = rels := by
  simp [released, phases, List.filterMap_map, Function.comp_def, Instr.returned]

/-- Where an operation stands: behind all acquisitions and some of the operations, before the others
    and all releases. -/
theorem phases_split {pre post : List (Instr K Op)} {o : Op}
    (h : phases acqs ops rels = pre ++ .perform o :: post) :
    ∃ before after, ops = before ++ o :: after ∧ pre = phases acqs before [] ∧
      post = phases [] after rels := by
  induction acqs generalizing pre with
  | nil =>
      induction ops generalizing pre with
      | nil =>
          -- a release is not an operation
          have hmem : Instr.perform o ∈ rels.map (Instr.release : K → Instr K Op) := by
            have h' : rels.map (Instr.release : K → Instr K Op) = pre ++ .perform o :: post := h
            rw [h']
            simp
          obtain ⟨k, _, hk⟩ := List.mem_map.mp hmem
          exact absurd hk (by simp)
      | cons o' ops ih =>
          cases pre with
          | nil =>
              obtain ⟨ho, hpost⟩ := List.cons.inj h
              obtain rfl := Instr.perform.inj ho
              exact ⟨[], ops, rfl, rfl, hpost.symm⟩
          | cons i pre =>
              obtain ⟨rfl, hrest⟩ := List.cons.inj h
              obtain ⟨before, after, rfl, rfl, hpost⟩ := ih hrest
              exact ⟨o' :: before, after, rfl, rfl, hpost⟩
  | cons a acqs ih =>
      cases pre with
      | nil => exact absurd (List.cons.inj h).1 (by simp)
      | cons i pre =>
          obtain ⟨rfl, hrest⟩ := List.cons.inj h
          obtain ⟨before, after, hops, rfl, hpost⟩ := ih hrest
          exact ⟨before, after, hops, rfl, hpost⟩

variable [DecidableEq K]

theorem heldAfter_acquires (acqs : List (K × Mode)) (H : K → Option Mode) :
    heldAfter H (acqs.map (fun a => (.acquire a.1 a.2 : Instr K Op))) = holding H acqs := by
  induction acqs generalizing H with
  | nil => rfl
  | cons a acqs ih => exact ih _

theorem heldAfter_performs (ops : List Op) (H : K → Option Mode) :
    heldAfter H (ops.map (.perform : Op → Instr K Op)) = H := by
  induction ops with
  | nil => rfl
  | cons o ops ih => exact ih

/-- Through the second phase all the locks taken are held. -/
theorem heldAfter_phases (acqs : List (K × Mode)) (ops : List Op) (H : K → Option Mode) :
    heldAfter H (phases acqs ops []) = holding H acqs := by
  rw [phases, heldAfter_append, heldAfter_acquires, heldAfter_append, heldAfter_performs]
  rfl

end Phases

end Locking
