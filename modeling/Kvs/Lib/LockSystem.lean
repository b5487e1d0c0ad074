import Mathlib

/-!
# `Lib.LockSystem` — threads that run commands under reader/writer locks

A generic interleaving semantics. A command compiles to a list of instructions: take a lock in a mode,
perform one operation on the shared store, give a lock back. Each thread works off a list of commands;
a step of the system is one instruction of one thread, or the start or the end of a command. A step is
a partial function of the thread that is scheduled (`step`), so a run is given by its schedule, and
`Step` is its inversion: one rule for each kind of step, guards included.

What every run keeps is proved one step at a time (`run_invariant`). For a rule about single commands, what
they may still run while they hold what (`Discipline`), that is done once here: commands that start out
following it do so in every state of every run (`follows_run`).

The commands, the locks, the store, the operations and the threads are all parameters.
-/

namespace Locking

/-- The mode in which a reader/writer lock is taken. -/
inductive Mode where
  | shared
  | exclusive
  deriving DecidableEq, Repr

/-- One atomic step of a command. -/
inductive Instr (K Op : Type*) where
  | acquire (k : K) (m : Mode)
  | perform (o : Op)
  | release (k : K)
  deriving DecidableEq, Repr

/-- Whether an instruction takes a lock. -/
def Instr.isAcquire {K Op : Type*} : Instr K Op → Bool
  | .acquire _ _ => true
  | .perform _ => false
  | .release _ => false

/-- Whether an instruction is an operation on the store. -/
def Instr.isPerform {K Op : Type*} : Instr K Op → Bool
  | .acquire _ _ => false
  | .perform _ => true
  | .release _ => false

/-- How commands compile and what an operation does to the store, with the output it gives. -/
structure Machine (K Op Cmd S Out : Type*) where
  code : Cmd → List (Instr K Op)
  exec : Op → S → S × Out

/-- A command in progress: the instructions still to run and the outputs so far. -/
structure Running (K Op Cmd Out : Type*) where
  cmd : Cmd
  rest : List (Instr K Op)
  outs : List Out
  deriving DecidableEq

/-- A thread: commands to run, the one in progress, and those finished with their outputs. -/
structure Thread (K Op Cmd Out : Type*) where
  todo : List Cmd
  running : Option (Running K Op Cmd Out)
  finished : List (Cmd × List Out)
  deriving DecidableEq

/-- The start or the end of the `i`-th command of thread `t`. -/
inductive Event (T : Type*) where
  | start (t : T) (i : Nat)
  | finish (t : T) (i : Nat)
  deriving DecidableEq, Repr

/-- The shared store, the holders of each lock, the threads, and the history of starts and ends. -/
structure State (T K Op Cmd S Out : Type*) where
  store : S
  locks : K → List (T × Mode)
  threads : T → Thread K Op Cmd Out
  log : List (Event T)

variable {T K Op Cmd S Out : Type*} [DecidableEq T] [DecidableEq K]

/-- Whether a lock with these holders can be taken in mode `m` now. -/
def compatible (m : Mode) (holders : List (T × Mode)) : Bool :=
  match m with
  | .shared => holders.all (fun h => decide (h.2 = .shared))
  | .exclusive => holders.isEmpty

namespace State

/-- The state with thread `t` replaced. -/
def setThread (s : State T K Op Cmd S Out) (t : T) (th : Thread K Op Cmd Out) :
    State T K Op Cmd S Out :=
  { s with threads := Function.update s.threads t th }

/-- The state with the holders of `k` replaced. -/
def setLock (s : State T K Op Cmd S Out) (k : K) (holders : List (T × Mode)) :
    State T K Op Cmd S Out :=
  { s with locks := Function.update s.locks k holders }

/-- The mode in which thread `t` holds lock `k`, if it does. -/
def held (s : State T K Op Cmd S Out) (t : T) (k : K) : Option Mode := (s.locks k).lookup t

/-- The state before anything has run. -/
def init (σ : S) (todo : T → List Cmd) : State T K Op Cmd S Out :=
  { store := σ, locks := fun _ => [], threads := fun t => ⟨todo t, none, []⟩, log := [] }

end State

/-- One step of thread `t`; `none` when it has nothing left or waits for a lock. -/
def step (M : Machine K Op Cmd S Out) (t : T) (s : State T K Op Cmd S Out) :
    Option (State T K Op Cmd S Out) :=
  let th := s.threads t
  match th.running with
  | none =>
      match th.todo with
      | [] => none
      | c :: cs =>
          some { s.setThread t { th with todo := cs, running := some ⟨c, M.code c, []⟩ } with
            log := s.log ++ [.start t th.finished.length] }
  | some r =>
      match r.rest with
      | [] =>
          some { s.setThread t
              { th with running := none, finished := th.finished ++ [(r.cmd, r.outs)] } with
            log := s.log ++ [.finish t th.finished.length] }
      | .acquire k m :: rest =>
          if compatible m (s.locks k) then
            some ((s.setLock k ((t, m) :: s.locks k)).setThread t
              { th with running := some { r with rest := rest } })
          else none
      | .perform o :: rest =>
          let (σ, out) := M.exec o s.store
          some { s.setThread t
              { th with running := some { r with rest := rest, outs := r.outs ++ [out] } } with
            store := σ }
      | .release k :: rest =>
          some ((s.setLock k ((s.locks k).eraseP (fun h => h.1 = t))).setThread t
            { th with running := some { r with rest := rest } })

/-- The run of a schedule: the threads step in the order given. -/
def run (M : Machine K Op Cmd S Out) :
    List T → State T K Op Cmd S Out → Option (State T K Op Cmd S Out)
  | [], s => some s
  | t :: ts, s => (step M t s).bind (run M ts)

/-- What one step of thread `t` can do, one rule for each kind of step. -/
inductive Step (M : Machine K Op Cmd S Out) (t : T) (s : State T K Op Cmd S Out) :
    State T K Op Cmd S Out → Prop where
  | start {c : Cmd} {cs : List Cmd} (hrun : (s.threads t).running = none)
      (htodo : (s.threads t).todo = c :: cs) :
      Step M t s { s.setThread t ⟨cs, some ⟨c, M.code c, []⟩, (s.threads t).finished⟩ with
        log := s.log ++ [.start t (s.threads t).finished.length] }
  | finish {c : Cmd} {outs : List Out} (hrun : (s.threads t).running = some ⟨c, [], outs⟩) :
      Step M t s { s.setThread t
          ⟨(s.threads t).todo, none, (s.threads t).finished ++ [(c, outs)]⟩ with
        log := s.log ++ [.finish t (s.threads t).finished.length] }
  | acquire {c : Cmd} {k : K} {m : Mode} {rest : List (Instr K Op)} {outs : List Out}
      (hrun : (s.threads t).running = some ⟨c, .acquire k m :: rest, outs⟩)
      (hfree : compatible m (s.locks k) = true) :
      Step M t s ((s.setLock k ((t, m) :: s.locks k)).setThread t
        ⟨(s.threads t).todo, some ⟨c, rest, outs⟩, (s.threads t).finished⟩)
  | perform {c : Cmd} {o : Op} {rest : List (Instr K Op)} {outs : List Out}
      (hrun : (s.threads t).running = some ⟨c, .perform o :: rest, outs⟩) :
      Step M t s { s.setThread t ⟨(s.threads t).todo,
          some ⟨c, rest, outs ++ [(M.exec o s.store).2]⟩, (s.threads t).finished⟩ with
        store := (M.exec o s.store).1 }
  | release {c : Cmd} {k : K} {rest : List (Instr K Op)} {outs : List Out}
      (hrun : (s.threads t).running = some ⟨c, .release k :: rest, outs⟩) :
      Step M t s ((s.setLock k ((s.locks k).eraseP (fun h => h.1 = t))).setThread t
        ⟨(s.threads t).todo, some ⟨c, rest, outs⟩, (s.threads t).finished⟩)

/-- **Inversion.** A step of the executable semantics is one of the five rules. -/
theorem step_inv {M : Machine K Op Cmd S Out} {t : T} {s s' : State T K Op Cmd S Out}
    (h : step M t s = some s') : Step M t s s' := by
  unfold step at h
  simp only at h
  split at h
  · rename_i hrun
    split at h
    · exact absurd h (by simp)
    · rename_i c cs htodo
      rw [← Option.some.inj h]
      exact Step.start hrun htodo
  · rename_i r hrun
    obtain ⟨c, rest, outs⟩ := r
    split at h
    · rename_i hrest
      simp only at hrest
      subst hrest
      rw [← Option.some.inj h]
      exact Step.finish hrun
    · rename_i k m rest' hrest
      simp only at hrest
      subst hrest
      split at h
      · rename_i hfree
        rw [← Option.some.inj h]
        exact Step.acquire hrun hfree
      · exact absurd h (by simp)
    · rename_i o rest' hrest
      simp only at hrest
      subst hrest
      rw [← Option.some.inj h]
      exact Step.perform hrun
    · rename_i k rest' hrest
      simp only at hrest
      subst hrest
      rw [← Option.some.inj h]
      exact Step.release hrun

/-- What a rule allows, the executable semantics does. -/
theorem Step.step_eq {M : Machine K Op Cmd S Out} {t : T} {s s' : State T K Op Cmd S Out}
    (h : Step M t s s') : step M t s = some s' := by
  cases h with
  | start hrun htodo => simp [step, hrun, htodo]
  | finish hrun => simp [step, hrun]
  | acquire hrun hfree => simp [step, hrun, hfree]
  | perform hrun => simp [step, hrun]
  | release hrun => simp [step, hrun]

/-! ## Runs -/

theorem run_singleton (M : Machine K Op Cmd S Out) (t : T) (s : State T K Op Cmd S Out) :
    run M [t] s = step M t s := by
  cases h : step M t s <;> simp [run, h]

theorem run_cons_eq_some {M : Machine K Op Cmd S Out} {t : T} {ts : List T}
    {s s' : State T K Op Cmd S Out} :
    run M (t :: ts) s = some s' ↔ ∃ u, step M t s = some u ∧ run M ts u = some s' := by
  simp [run, Option.bind_eq_some_iff]

theorem run_append {M : Machine K Op Cmd S Out} (ts us : List T) (s : State T K Op Cmd S Out) :
    run M (ts ++ us) s = (run M ts s).bind (run M us) := by
  induction ts generalizing s with
  | nil => rfl
  | cons t ts ih =>
      simp only [List.cons_append, run]
      cases step M t s with
      | none => rfl
      | some u => exact ih u

/-- **Invariants of runs.** What holds at the start and is kept by every step holds after every run. -/
theorem run_invariant {M : Machine K Op Cmd S Out} (Inv : State T K Op Cmd S Out → Prop)
    (hstep : ∀ t s s', Inv s → Step M t s s' → Inv s') {ts : List T}
    {s s' : State T K Op Cmd S Out} (hs : Inv s) (h : run M ts s = some s') : Inv s' := by
  induction ts generalizing s with
  | nil => exact Option.some.inj h ▸ hs
  | cons t ts ih =>
      obtain ⟨u, hu, hrest⟩ := run_cons_eq_some.mp h
      exact ih (hstep t s u hs (step_inv hu)) hrest

/-- Every step of the schedule is taken in a state that meets `P`. -/
def StepsMeet (M : Machine K Op Cmd S Out) (P : State T K Op Cmd S Out → T → Prop) :
    List T → State T K Op Cmd S Out → Prop
  | [], _ => True
  | t :: ts, s => P s t ∧
      match step M t s with
      | none => True
      | some s' => StepsMeet M P ts s'

instance decidableStepsMeet (M : Machine K Op Cmd S Out) (P : State T K Op Cmd S Out → T → Prop)
    [∀ s t, Decidable (P s t)] :
    (ts : List T) → (s : State T K Op Cmd S Out) → Decidable (StepsMeet M P ts s)
  | [], _ => isTrue trivial
  | t :: ts, s =>
      @instDecidableAnd (P s t) _ _
        (match step M t s with
          | none => isTrue trivial
          | some s' => decidableStepsMeet M P ts s')

/-- **Invariants of guarded runs.** The invariant may speak of the schedule so far, and each step may
    use that it is taken in a state that meets `P`. -/
theorem run_invariant_guarded {M : Machine K Op Cmd S Out} {P : State T K Op Cmd S Out → T → Prop}
    {s₀ : State T K Op Cmd S Out} (Inv : List T → State T K Op Cmd S Out → Prop)
    (hstep : ∀ pre t s s', run M pre s₀ = some s → P s t → Inv pre s → Step M t s s' →
      Inv (pre ++ [t]) s') (h₀ : Inv [] s₀) {sched : List T} {s : State T K Op Cmd S Out}
    (hP : StepsMeet M P sched s₀) (h : run M sched s₀ = some s) : Inv sched s := by
  suffices hgen : ∀ (ts pre : List T) (u : State T K Op Cmd S Out), run M pre s₀ = some u →
      Inv pre u → StepsMeet M P ts u → run M ts u = some s → Inv (pre ++ ts) s from
    hgen sched [] s₀ rfl h₀ hP h
  intro ts
  induction ts with
  | nil =>
      intro pre u _ hI _ hrun
      rw [List.append_nil]
      exact Option.some.inj hrun ▸ hI
  | cons t ts ih =>
      intro pre u hpre hI hmeet hrun
      obtain ⟨u', hu', hrest⟩ := run_cons_eq_some.mp hrun
      obtain ⟨hPt, hmeet'⟩ := hmeet
      rw [hu'] at hmeet'
      have hpre' : run M (pre ++ [t]) s₀ = some u' := by
        rw [run_append, hpre]
        simp [run, hu']
      -- the step joins the schedule so far
      have hsplit : pre ++ t :: ts = (pre ++ [t]) ++ ts := by simp
      rw [hsplit]
      exact ih (pre ++ [t]) u' hpre' (hstep pre t u u' hpre hPt hI (step_inv hu')) hmeet' hrest

/-! ## Association lists of holders -/

section Holders

variable {A B : Type*} [DecidableEq A]

theorem lookup_eq_none_iff_notMem {a : A} {l : List (A × B)} :
    l.lookup a = none ↔ ∀ b, (a, b) ∉ l := by
  rw [List.lookup_eq_none_iff]
  constructor
  · intro h b hb
    simpa using h _ hb
  · rintro h ⟨a', b⟩ hb
    simp only [bne_iff_ne, ne_eq]
    rintro rfl
    exact h b hb

theorem mem_of_lookup_eq {a : A} {b : B} {l : List (A × B)} (h : l.lookup a = some b) :
    (a, b) ∈ l := by
  induction l with
  | nil => exact absurd h (by simp)
  | cons x l ih =>
      rw [List.lookup_cons] at h
      split at h
      · rename_i hax
        have ha : a = x.1 := by simpa using hax
        rw [← Option.some.inj h, ha]
        exact List.mem_cons_self
      · exact List.mem_cons_of_mem x (ih h)

theorem lookup_eraseP_self {a : A} {l : List (A × B)} (hnd : (l.map Prod.fst).Nodup) :
    (l.eraseP (fun h => h.1 = a)).lookup a = none := by
  rw [lookup_eq_none_iff_notMem]
  intro b hb
  induction l with
  | nil => exact absurd hb (by simp)
  | cons x l ih =>
      rw [List.map_cons, List.nodup_cons] at hnd
      by_cases hxa : x.1 = a
      · rw [List.eraseP_cons_of_pos (by simpa using hxa)] at hb
        exact hnd.1 (List.mem_map.mpr ⟨(a, b), hb, hxa.symm⟩)
      · rw [List.eraseP_cons_of_neg (by simpa using hxa)] at hb
        rcases List.mem_cons.mp hb with rfl | hb'
        · exact hxa rfl
        · exact ih hnd.2 hb'

/-- With every name once, erasing a name leaves the entries of the others. -/
theorem mem_eraseP_iff {a : A} {l : List (A × B)} (hnd : (l.map Prod.fst).Nodup) {x : A × B} :
    x ∈ l.eraseP (fun h => h.1 = a) ↔ x ∈ l ∧ x.1 ≠ a := by
  constructor
  · intro hx
    refine ⟨List.mem_of_mem_eraseP hx, ?_⟩
    rintro rfl
    exact lookup_eq_none_iff_notMem.mp (lookup_eraseP_self hnd) x.2 hx
  · rintro ⟨hx, hne⟩
    rw [List.mem_eraseP_of_neg (by simpa using hne)]
    exact hx

theorem lookup_eraseP_ne {a c : A} (hca : c ≠ a) (l : List (A × B)) :
    (l.eraseP (fun h => h.1 = a)).lookup c = l.lookup c := by
  induction l with
  | nil => rfl
  | cons x l ih =>
      obtain ⟨a', b⟩ := x
      by_cases hxa : a' = a
      · have hcx : (c == a') = false := by simp [hxa, hca]
        rw [List.eraseP_cons_of_pos (by simpa using hxa), List.lookup_cons, hcx]
      · rw [List.eraseP_cons_of_neg (by simpa using hxa), List.lookup_cons, List.lookup_cons, ih]

end Holders

/-! ## The parts of an updated state -/

section Threads

variable {T K Op Cmd S Out : Type*} [DecidableEq T]
variable (s : State T K Op Cmd S Out) (t : T) (th : Thread K Op Cmd Out)

@[simp] theorem setThread_self : (s.setThread t th).threads t = th := by
  simp [State.setThread]

theorem setThread_ne {u : T} (h : u ≠ t) : (s.setThread t th).threads u = s.threads u := by
  simp [State.setThread, h]

@[simp] theorem setThread_store : (s.setThread t th).store = s.store := rfl
@[simp] theorem setThread_locks : (s.setThread t th).locks = s.locks := rfl
@[simp] theorem setThread_log : (s.setThread t th).log = s.log := rfl

@[simp] theorem setThread_held : (s.setThread t th).held = s.held := rfl

theorem held_eq_none_iff {s : State T K Op Cmd S Out} {t : T} {k : K} :
    s.held t k = none ↔ ∀ m, (t, m) ∉ s.locks k := lookup_eq_none_iff_notMem

theorem mem_of_held {s : State T K Op Cmd S Out} {t : T} {k : K} {m : Mode}
    (h : s.held t k = some m) : (t, m) ∈ s.locks k := mem_of_lookup_eq h

end Threads

section Locks

variable {T K Op Cmd S Out : Type*} [DecidableEq K]
variable (s : State T K Op Cmd S Out) (k : K) (holders : List (T × Mode))

@[simp] theorem setLock_self : (s.setLock k holders).locks k = holders := by
  simp [State.setLock]

theorem setLock_ne {j : K} (h : j ≠ k) : (s.setLock k holders).locks j = s.locks j := by
  simp [State.setLock, h]

@[simp] theorem setLock_store : (s.setLock k holders).store = s.store := rfl
@[simp] theorem setLock_threads : (s.setLock k holders).threads = s.threads := rfl
@[simp] theorem setLock_log : (s.setLock k holders).log = s.log := rfl

end Locks

/-! ## Who holds which lock -/

/-- The lock table is sound: no thread holds a lock twice, and a lock held exclusively has one
    holder. -/
structure LockInv (s : State T K Op Cmd S Out) : Prop where
  nodup : ∀ k, ((s.locks k).map Prod.fst).Nodup
  alone : ∀ k t, (t, Mode.exclusive) ∈ s.locks k → s.locks k = [(t, .exclusive)]

omit [DecidableEq T] [DecidableEq K] in
theorem lockInv_init (σ : S) (todo : T → List Cmd) :
    LockInv (State.init σ todo : State T K Op Cmd S Out) where
  nodup _ := List.nodup_nil
  alone _ _ h := absurd h (by simp [State.init])

omit [DecidableEq T] [DecidableEq K] in
theorem LockInv.congr {s s' : State T K Op Cmd S Out} (hI : LockInv s) (h : s'.locks = s.locks) :
    LockInv s' := ⟨h ▸ hI.nodup, h ▸ hI.alone⟩

omit [DecidableEq K] in
/-- **Mutual exclusion.** While one thread holds a lock exclusively, no other holds it at all. -/
theorem LockInv.exclusion {s : State T K Op Cmd S Out} (hI : LockInv s) {t u : T} {k : K} {m : Mode}
    (ht : s.held t k = some .exclusive) (hu : s.held u k = some m) : u = t := by
  have hone := hI.alone k t (mem_of_held ht)
  have hmem := mem_of_held hu
  rw [hone, List.mem_singleton] at hmem
  exact (Prod.mk.inj hmem).1

omit [DecidableEq K] in
/-- An exclusive entry of the lock table is what the thread holds. -/
theorem LockInv.held_exclusive {s : State T K Op Cmd S Out} (hI : LockInv s) {t : T} {k : K}
    (h : (t, Mode.exclusive) ∈ s.locks k) : s.held t k = some .exclusive := by
  rw [State.held, hI.alone k t h]
  simp

/-- Taking a lock the thread does not hold keeps the lock table sound. -/
theorem LockInv.acquire {s : State T K Op Cmd S Out} (hI : LockInv s) {t : T} {k : K} {m : Mode}
    (hfree : compatible m (s.locks k) = true) (hnew : s.held t k = none) :
    LockInv (s.setLock k ((t, m) :: s.locks k)) where
  nodup j := by
    by_cases hj : j = k
    · subst hj
      rw [setLock_self, List.map_cons, List.nodup_cons]
      refine ⟨?_, hI.nodup j⟩
      rintro hmem
      obtain ⟨⟨u, m'⟩, hmem', rfl⟩ := List.mem_map.mp hmem
      exact held_eq_none_iff.mp hnew m' hmem'
    · rw [setLock_ne _ _ _ hj]
      exact hI.nodup j
  alone j u hmem := by
    by_cases hj : j = k
    · subst hj
      rw [setLock_self] at hmem ⊢
      rcases List.mem_cons.mp hmem with heq | hin
      · -- the new holder is the exclusive one, so the lock was free
        obtain ⟨rfl, hm⟩ := Prod.mk.inj heq
        subst hm
        simp only [compatible, List.isEmpty_iff] at hfree
        rw [hfree]
      · -- an exclusive holder excludes every further acquisition
        have hone := hI.alone j u hin
        cases m <;> simp [compatible, hone] at hfree
    · rw [setLock_ne _ _ _ hj] at hmem ⊢
      exact hI.alone j u hmem

/-- Giving a lock back keeps the lock table sound. -/
theorem LockInv.release {s : State T K Op Cmd S Out} (hI : LockInv s) (t : T) (k : K) :
    LockInv (s.setLock k ((s.locks k).eraseP (fun h => h.1 = t))) where
  nodup j := by
    by_cases hj : j = k
    · subst hj
      rw [setLock_self]
      exact (hI.nodup j).sublist (List.eraseP_sublist.map _)
    · rw [setLock_ne _ _ _ hj]
      exact hI.nodup j
  alone j u hmem := by
    by_cases hj : j = k
    · subst hj
      rw [setLock_self] at hmem ⊢
      have hone := hI.alone j u (List.mem_of_mem_eraseP hmem)
      rw [hone] at hmem ⊢
      by_cases hut : u = t
      · subst hut
        simp at hmem
      · simp [hut]
    · rw [setLock_ne _ _ _ hj] at hmem ⊢
      exact hI.alone j u hmem

/-! ## How holding changes -/

section Held

variable {s : State T K Op Cmd S Out} {t : T} {k : K}

theorem held_acquire_self (m : Mode) :
    (s.setLock k ((t, m) :: s.locks k)).held t = Function.update (s.held t) k (some m) := by
  funext j
  by_cases hj : j = k
  · subst hj
    simp [State.held]
  · simp [State.held, setLock_ne _ _ _ hj, hj]

theorem held_acquire_ne {u : T} (hu : u ≠ t) (m : Mode) :
    (s.setLock k ((t, m) :: s.locks k)).held u = s.held u := by
  funext j
  by_cases hj : j = k
  · subst hj
    have : (u == t) = false := by simp [hu]
    simp [State.held, List.lookup_cons, this]
  · simp [State.held, setLock_ne _ _ _ hj]

theorem held_release_self (hI : LockInv s) :
    (s.setLock k ((s.locks k).eraseP (fun h => h.1 = t))).held t
      = Function.update (s.held t) k none := by
  funext j
  by_cases hj : j = k
  · subst hj
    rw [Function.update_self, State.held, setLock_self]
    exact lookup_eraseP_self (hI.nodup j)
  · simp [State.held, setLock_ne _ _ _ hj, hj]

theorem held_release_ne {u : T} (hu : u ≠ t) :
    (s.setLock k ((s.locks k).eraseP (fun h => h.1 = t))).held u = s.held u := by
  funext j
  by_cases hj : j = k
  · subst hj
    rw [State.held, setLock_self]
    exact lookup_eraseP_ne hu _
  · simp [State.held, setLock_ne _ _ _ hj]

end Held

/-! ## Commands that follow a discipline -/

section Discipline

variable {T K Op Cmd S Out : Type*} [DecidableEq T] [DecidableEq K]

/-- A discipline: `D c H p` says that command `c` may have `p` left to run while `H` is held. It is kept
    by every instruction, takes no lock that is held, and ends with nothing held. -/
structure Discipline (D : Cmd → (K → Option Mode) → List (Instr K Op) → Prop) : Prop where
  settled : ∀ {c H}, D c H [] → H = fun _ => none
  acquire : ∀ {c H k m p}, D c H (.acquire k m :: p) →
    H k = none ∧ D c (Function.update H k (some m)) p
  perform : ∀ {c H o p}, D c H (.perform o :: p) → D c H p
  release : ∀ {c H k p}, D c H (.release k :: p) → D c (Function.update H k none) p

/-- Every thread follows the discipline from what it holds now. -/
structure Follows (M : Machine K Op Cmd S Out)
    (D : Cmd → (K → Option Mode) → List (Instr K Op) → Prop) (s : State T K Op Cmd S Out) : Prop where
  locks : LockInv s
  todo : ∀ t, ∀ c ∈ (s.threads t).todo, D c (fun _ => none) (M.code c)
  idle : ∀ t, (s.threads t).running = none → s.held t = fun _ => none
  running : ∀ t r, (s.threads t).running = some r → D r.cmd (s.held t) r.rest

variable {M : Machine K Op Cmd S Out} {D : Cmd → (K → Option Mode) → List (Instr K Op) → Prop}
  {s : State T K Op Cmd S Out}

omit [DecidableEq K] in
theorem follows_init (σ : S) (todo : T → List Cmd)
    (htodo : ∀ t, ∀ c ∈ todo t, D c (fun _ => none) (M.code c)) :
    Follows M D (State.init σ todo) where
  locks := lockInv_init σ todo
  todo := htodo
  idle _ _ := rfl
  running _ _ h := absurd h (by simp [State.init])

omit [DecidableEq K] in
/-- A step of `t` touches only its own part of the invariant. -/
theorem Follows.advance (hI : Follows M D s) {t : T} {th : Thread K Op Cmd Out}
    {s' : State T K Op Cmd S Out} (hthreads : s'.threads = Function.update s.threads t th)
    (hothers : ∀ u, u ≠ t → s'.held u = s.held u) (hlocks : LockInv s')
    (htodo : ∀ c ∈ th.todo, D c (fun _ => none) (M.code c))
    (hidle : th.running = none → s'.held t = fun _ => none)
    (hrunning : ∀ r, th.running = some r → D r.cmd (s'.held t) r.rest) :
    Follows M D s' := by
  have hself : s'.threads t = th := by rw [hthreads, Function.update_self]
  have hne : ∀ u, u ≠ t → s'.threads u = s.threads u := by
    intro u hu
    rw [hthreads, Function.update_of_ne hu]
  refine ⟨hlocks, fun u => ?_, fun u => ?_, fun u => ?_⟩ <;> by_cases hu : u = t
  · subst hu; rwa [hself]
  · rw [hne u hu]; exact hI.todo u
  · subst hu; rwa [hself]
  · rw [hne u hu, hothers u hu]; exact hI.idle u
  · subst hu; rwa [hself]
  · rw [hne u hu, hothers u hu]; exact hI.running u

/-- **Step lemma.** Every step of every thread keeps to the discipline. -/
theorem follows_step (hD : Discipline D) (hI : Follows M D s) {t : T} {s' : State T K Op Cmd S Out}
    (hstep : Step M t s s') : Follows M D s' := by
  cases hstep with
  | @start c cs hrun htodo =>
      have htd := hI.todo t
      rw [htodo] at htd
      refine hI.advance rfl (fun _ _ => rfl) (hI.locks.congr rfl)
        (fun d hd => htd d (List.mem_cons_of_mem c hd)) (fun h => absurd h (by simp)) ?_
      intro r hr
      obtain rfl := Option.some.inj hr
      have hd := htd c List.mem_cons_self
      rw [← hI.idle t hrun] at hd
      exact hd
  | finish hrun =>
      exact hI.advance rfl (fun _ _ => rfl) (hI.locks.congr rfl) (hI.todo t)
        (fun _ => hD.settled (hI.running t _ hrun)) (fun _ h => absurd h (by simp))
  | @acquire c k m p os hrun hfree =>
      obtain ⟨hnew, hp⟩ := hD.acquire (hI.running t _ hrun)
      refine hI.advance rfl (fun u hu => held_acquire_ne hu m)
        ((hI.locks.acquire hfree hnew).congr rfl) (hI.todo t) (fun h => absurd h (by simp)) ?_
      intro r hr
      obtain rfl := Option.some.inj hr
      rw [setThread_held, held_acquire_self]
      exact hp
  | perform hrun =>
      refine hI.advance rfl (fun _ _ => rfl) (hI.locks.congr rfl) (hI.todo t)
        (fun h => absurd h (by simp)) ?_
      intro r hr
      obtain rfl := Option.some.inj hr
      have hp := hD.perform (hI.running t _ hrun)
      exact hp
  | @release c k p os hrun =>
      have hp := hD.release (hI.running t _ hrun)
      refine hI.advance rfl (fun u hu => held_release_ne hu)
        ((hI.locks.release t k).congr rfl) (hI.todo t) (fun h => absurd h (by simp)) ?_
      intro r hr
      obtain rfl := Option.some.inj hr
      rw [setThread_held, held_release_self hI.locks]
      exact hp

/-- **Disciplined runs.** Commands that start out following the discipline follow it in every state of
    every run of any number of threads. -/
theorem follows_run (hD : Discipline D) {σ : S} {todo : T → List Cmd}
    (htodo : ∀ t, ∀ c ∈ todo t, D c (fun _ => none) (M.code c)) {sched : List T}
    (hrun : run M sched (State.init σ todo) = some s) : Follows M D s :=
  run_invariant (Follows M D) (fun _ _ _ hI hstep => follows_step hD hI hstep)
    (follows_init σ todo htodo) hrun

end Discipline

/-! ## Commands in three phases -/

section Phases

variable {K Op : Type*}

/-- A command that takes locks, performs operations and then gives locks back. -/
def phases (acqs : List (K × Mode)) (ops : List Op) (rels : List K) : List (Instr K Op) :=
  acqs.map (fun a => .acquire a.1 a.2) ++ (ops.map .perform ++ rels.map .release)

/-- What is held after taking `acqs`, from what was held before. -/
def holding [DecidableEq K] (H : K → Option Mode) (acqs : List (K × Mode)) : K → Option Mode :=
  acqs.foldl (fun H a => Function.update H a.1 (some a.2)) H

theorem holding_of_notMem [DecidableEq K] {acqs : List (K × Mode)} {k : K}
    (hk : k ∉ acqs.map Prod.fst) (H : K → Option Mode) : holding H acqs k = H k := by
  induction acqs generalizing H with
  | nil => rfl
  | cons a acqs ih =>
      rw [List.map_cons, List.mem_cons, not_or] at hk
      show holding (Function.update H a.1 (some a.2)) acqs k = H k
      rw [ih hk.2, Function.update_of_ne hk.1]

theorem holding_of_mem [DecidableEq K] {acqs : List (K × Mode)} (hnd : (acqs.map Prod.fst).Nodup)
    {k : K} {m : Mode} (hk : (k, m) ∈ acqs) (H : K → Option Mode) :
    holding H acqs k = some m := by
  induction acqs generalizing H with
  | nil => exact absurd hk (by simp)
  | cons a acqs ih =>
      rw [List.map_cons, List.nodup_cons] at hnd
      show holding (Function.update H a.1 (some a.2)) acqs k = some m
      rcases List.mem_cons.mp hk with rfl | hk'
      · rw [holding_of_notMem hnd.1, Function.update_self]
      · exact ih hnd.2 hk' _

/-- From nothing held, exactly the locks taken are held. -/
theorem holding_ne_none_iff [DecidableEq K] {acqs : List (K × Mode)}
    (hnd : (acqs.map Prod.fst).Nodup) (k : K) :
    holding (fun _ => none) acqs k ≠ none ↔ k ∈ acqs.map Prod.fst := by
  constructor
  · intro h
    by_contra hk
    exact h (holding_of_notMem hk _)
  · intro hk
    obtain ⟨⟨j, m⟩, hmem, rfl⟩ := List.mem_map.mp hk
    rw [holding_of_mem hnd hmem]
    simp

end Phases

end Locking
