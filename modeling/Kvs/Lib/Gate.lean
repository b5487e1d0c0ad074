import Kvs.Lib.LockTrace

/-!
# `Lib.Gate` — one exclusive lock in place of many shared ones

A *gate* is a lock that stands before a set of inner locks: a command takes an inner lock exclusively
only while it holds the gate. A command that holds the gate exclusively is then alone with what the
inner locks guard, as if it held all of them shared, though it takes none (`Gate.alone`). The discipline
of `Lib.TwoPhase`, with one lock for each location, does not cover such a command.

`Machine.widen` is the machine on which those commands do take the inner locks (`Gate.wide`). Every run
of the machine is matched by a run of the widened one with the same store, outputs and history
(`widens_run`): where one thread takes the gate exclusively, the other machine takes all the inner locks
in a row, and the gate being free tells that nobody holds one exclusively. Serializability then carries
over (`serializable_of_gated`).
-/

namespace Locking

variable {K Op Cmd S Out : Type*} [DecidableEq K]

/-! ## Gates -/

/-- A gate and its inner locks; `whole c` is the operations of a command that holds the gate alone. -/
structure Gate (K Op Cmd : Type*) where
  lock : K
  inner : List K
  whole : Cmd → Option (List Op)
  outside : lock ∉ inner

namespace Gate

variable (G : Gate K Op Cmd)

/-- The gate exclusively, the operations, the gate given back. -/
def alone (ops : List Op) : List (Instr K Op) := phases [(G.lock, .exclusive)] ops [G.lock]

/-- The same with every inner lock taken shared behind the gate. -/
def wide (ops : List Op) : List (Instr K Op) :=
  phases ((G.lock, .exclusive) :: G.inner.map (fun k => (k, .shared))) ops (G.inner ++ [G.lock])

/-- **The discipline of the other commands**, from the locks held (`H`): the gate is taken shared, an
    inner lock exclusively only while the gate is held, and the gate is not given back before it. -/
def Gated : (K → Option Mode) → List (Instr K Op) → Prop
  | H, [] => H = fun _ => none
  | H, .acquire k m :: p =>
      H k = none ∧ (k = G.lock → m = .shared) ∧
        (k ∈ G.inner → m = .exclusive → H G.lock ≠ none) ∧ Gated (Function.update H k (some m)) p
  | H, .perform _ :: p => Gated H p
  | H, .release k :: p =>
      (k = G.lock → ∀ j ∈ G.inner, H j ≠ some .exclusive) ∧ Gated (Function.update H k none) p

/-- What such a command holds at any time. -/
structure Behind (H : K → Option Mode) : Prop where
  shared : H G.lock ≠ some .exclusive
  behind : ∀ k ∈ G.inner, H k = some .exclusive → H G.lock ≠ none

/-- How far a command with operations `ops` that holds the gate alone has come. -/
def At (ops : List Op) (H : K → Option Mode) (p : List (Instr K Op)) : Prop :=
  (H = fun _ => none) ∧ p = G.alone ops ∨
    H = Function.update (fun _ => none) G.lock (some .exclusive) ∧
      (∃ rest : List Op, p = rest.map .perform ++ [.release G.lock]) ∨
    (H = fun _ => none) ∧ p = []

/-- What command `c` may have left to run while it holds `H`. -/
def Follow (c : Cmd) (H : K → Option Mode) (p : List (Instr K Op)) : Prop :=
  match G.whole c with
  | some ops => G.At ops H p
  | none => G.Behind H ∧ G.Gated H p

end Gate

/-- The machine whose commands take the inner locks behind the gate. -/
def Machine.widen (M : Machine K Op Cmd S Out) (G : Gate K Op Cmd) : Machine K Op Cmd S Out where
  code c :=
    match G.whole c with
    | some ops => G.wide ops
    | none => M.code c
  exec := M.exec

/-! ## The discipline -/

section Discipline

variable {G : Gate K Op Cmd}

theorem Gate.Behind.acquire {H : K → Option Mode} (h : G.Behind H) {k : K} {m : Mode}
    (hgate : k = G.lock → m = .shared) (hinner : k ∈ G.inner → m = .exclusive → H G.lock ≠ none) :
    G.Behind (Function.update H k (some m)) where
  shared := by
    by_cases hk : k = G.lock
    · subst hk
      simp [hgate rfl]
    · rw [Function.update_of_ne (Ne.symm hk)]
      exact h.shared
  behind j hj hx := by
    by_cases hk : k = G.lock
    · subst hk
      simp
    · rw [Function.update_of_ne (Ne.symm hk)]
      by_cases hjk : j = k
      · subst hjk
        rw [Function.update_self] at hx
        exact hinner hj (Option.some.inj hx)
      · rw [Function.update_of_ne hjk] at hx
        exact h.behind j hj hx

theorem Gate.Behind.release {H : K → Option Mode} (h : G.Behind H) {k : K}
    (hgate : k = G.lock → ∀ j ∈ G.inner, H j ≠ some .exclusive) :
    G.Behind (Function.update H k none) where
  shared := by
    by_cases hk : k = G.lock
    · subst hk
      simp
    · rw [Function.update_of_ne (Ne.symm hk)]
      exact h.shared
  behind j hj hx := by
    have hjk : j ≠ k := by
      rintro rfl
      simp at hx
    rw [Function.update_of_ne hjk] at hx
    by_cases hk : k = G.lock
    · exact absurd hx (hgate hk j hj)
    · rw [Function.update_of_ne (Ne.symm hk)]
      exact h.behind j hj hx

/-- An acquisition of a command that holds the gate alone is that of the gate. -/
theorem Gate.At.acquire {ops : List Op} {H : K → Option Mode} {k : K} {m : Mode}
    {p : List (Instr K Op)} (h : G.At ops H (.acquire k m :: p)) :
    k = G.lock ∧ m = .exclusive ∧ p = ops.map .perform ++ [.release G.lock] ∧ H = fun _ => none := by
  rcases h with ⟨hH, hp⟩ | ⟨_, rest, hp⟩ | ⟨_, hp⟩
  · obtain ⟨hi, hrest⟩ := List.cons.inj hp
    obtain ⟨rfl, rfl⟩ := Instr.acquire.inj hi
    exact ⟨rfl, rfl, hrest, hH⟩
  · cases rest <;> simp at hp
  · exact absurd hp (by simp)

theorem Gate.At.perform {ops : List Op} {H : K → Option Mode} {o : Op} {p : List (Instr K Op)}
    (h : G.At ops H (.perform o :: p)) :
    H = Function.update (fun _ => none) G.lock (some .exclusive) ∧
      ∃ rest : List Op, p = rest.map .perform ++ [.release G.lock] := by
  rcases h with ⟨_, hp⟩ | ⟨hH, rest, hp⟩ | ⟨_, hp⟩
  · exact absurd (List.cons.inj hp).1 (by simp)
  · cases rest with
    | nil => exact absurd (List.cons.inj hp).1 (by simp)
    | cons o' rest => exact ⟨hH, rest, (List.cons.inj hp).2⟩
  · exact absurd hp (by simp)

theorem Gate.At.release {ops : List Op} {H : K → Option Mode} {k : K} {p : List (Instr K Op)}
    (h : G.At ops H (.release k :: p)) :
    k = G.lock ∧ p = [] ∧ H = Function.update (fun _ => none) G.lock (some .exclusive) := by
  rcases h with ⟨_, hp⟩ | ⟨hH, rest, hp⟩ | ⟨_, hp⟩
  · exact absurd (List.cons.inj hp).1 (by simp)
  · cases rest with
    | nil =>
        obtain ⟨hi, hrest⟩ := List.cons.inj hp
        exact ⟨Instr.release.inj hi, hrest, hH⟩
    | cons o' rest => exact absurd (List.cons.inj hp).1 (by simp)
  · exact absurd hp (by simp)

/-- Commands keep to the gate at every instruction. -/
theorem discipline_follow (G : Gate K Op Cmd) : Discipline G.Follow where
  settled := by
    intro c H h
    unfold Gate.Follow at h
    cases hw : G.whole c with
    | none =>
        rw [hw] at h
        exact h.2
    | some ops =>
        rw [hw] at h
        rcases h with ⟨hH, _⟩ | ⟨_, rest, hp⟩ | ⟨hH, _⟩
        · exact hH
        · exact absurd hp (by simp)
        · exact hH
  acquire := by
    intro c H k m p h
    unfold Gate.Follow at h ⊢
    cases hw : G.whole c with
    | none =>
        rw [hw] at h
        obtain ⟨hB, hnew, hgate, hinner, hp⟩ := h
        exact ⟨hnew, hB.acquire hgate hinner, hp⟩
    | some ops =>
        rw [hw] at h
        obtain ⟨rfl, rfl, rfl, rfl⟩ := Gate.At.acquire h
        exact ⟨rfl, Or.inr (Or.inl ⟨rfl, ops, rfl⟩)⟩
  perform := by
    intro c H o p h
    unfold Gate.Follow at h ⊢
    cases hw : G.whole c with
    | none =>
        rw [hw] at h
        exact h
    | some ops =>
        rw [hw] at h
        exact Or.inr (Or.inl (Gate.At.perform h))
  release := by
    intro c H k p h
    unfold Gate.Follow at h ⊢
    cases hw : G.whole c with
    | none =>
        rw [hw] at h
        obtain ⟨hB, hgate, hp⟩ := h
        exact ⟨hB.release hgate, hp⟩
    | some ops =>
        rw [hw] at h
        obtain ⟨rfl, rfl, rfl⟩ := Gate.At.release h
        refine Or.inr (Or.inr ⟨?_, rfl⟩)
        rw [Function.update_idem, Function.update_eq_self_iff]

end Discipline

/-! ## Simulation -/

section Simulation

variable {T K Op Cmd S Out : Type*} {G : Gate K Op Cmd}

/-- The commands in progress on the two machines. -/
inductive WideRunning (G : Gate K Op Cmd) :
    Option (Running K Op Cmd Out) → Option (Running K Op Cmd Out) → Prop where
  | idle : WideRunning G none none
  | same {c : Cmd} {p : List (Instr K Op)} {os : List Out} (hc : G.whole c = none) :
      WideRunning G (some ⟨c, p, os⟩) (some ⟨c, p, os⟩)
  | before {c : Cmd} {ops : List Op} {os : List Out} (hc : G.whole c = some ops) :
      WideRunning G (some ⟨c, G.alone ops, os⟩) (some ⟨c, G.wide ops, os⟩)
  | inside {c : Cmd} {ops rest : List Op} {os : List Out} (hc : G.whole c = some ops) :
      WideRunning G (some ⟨c, rest.map .perform ++ [.release G.lock], os⟩)
        (some ⟨c, rest.map .perform ++ (G.inner ++ [G.lock]).map .release, os⟩)
  | after {c : Cmd} {ops : List Op} {os : List Out} (hc : G.whole c = some ops) :
      WideRunning G (some ⟨c, [], os⟩) (some ⟨c, [], os⟩)

/-- The widened machine has the same store, history and threads. A thread that holds the gate
    exclusively holds there all the inner locks as well. -/
structure Widens (G : Gate K Op Cmd) (s s' : State T K Op Cmd S Out) : Prop where
  store : s'.store = s.store
  log : s'.log = s.log
  todo : ∀ t, (s'.threads t).todo = (s.threads t).todo
  finished : ∀ t, (s'.threads t).finished = (s.threads t).finished
  running : ∀ t, WideRunning G (s.threads t).running (s'.threads t).running
  locks : ∀ k t m, (t, m) ∈ s'.locks k ↔
    (t, m) ∈ s.locks k ∨ k ∈ G.inner ∧ m = .shared ∧ (t, .exclusive) ∈ s.locks G.lock

theorem widens_init (σ : S) (todo : T → List Cmd) :
    Widens G (State.init σ todo) (State.init σ todo : State T K Op Cmd S Out) where
  store := rfl
  log := rfl
  todo _ := rfl
  finished _ := rfl
  running _ := .idle
  locks k t m := by simp [State.init]

/-- Two threads move, related as before. -/
theorem Widens.advance [DecidableEq T] {s s' u u' : State T K Op Cmd S Out} (hR : Widens G s s') {t : T}
    {th th' : Thread K Op Cmd Out} (hthreads : u.threads = Function.update s.threads t th)
    (hthreads' : u'.threads = Function.update s'.threads t th') (hstore : u'.store = u.store)
    (hlog : u'.log = u.log) (htodo : th'.todo = th.todo) (hfinished : th'.finished = th.finished)
    (hrunning : WideRunning G th.running th'.running)
    (hlocks : ∀ k v m, (v, m) ∈ u'.locks k ↔
      (v, m) ∈ u.locks k ∨ k ∈ G.inner ∧ m = .shared ∧ (v, .exclusive) ∈ u.locks G.lock) :
    Widens G u u' := by
  refine ⟨hstore, hlog, fun v => ?_, fun v => ?_, fun v => ?_, hlocks⟩ <;>
    rw [hthreads, hthreads'] <;> by_cases hv : v = t
  · subst hv; simpa using htodo
  · simpa [hv] using hR.todo v
  · subst hv; simpa using hfinished
  · simpa [hv] using hR.finished v
  · subst hv; simpa using hrunning
  · simpa [hv] using hR.running v

/-! ### What the other machine stands before -/

theorem WideRunning.none_inv {r' : Option (Running K Op Cmd Out)} (h : WideRunning G none r') :
    r' = none := by
  cases h
  rfl

theorem WideRunning.nil_inv {c : Cmd} {os : List Out} {r' : Option (Running K Op Cmd Out)}
    (h : WideRunning G (some ⟨c, [], os⟩) r') : r' = some ⟨c, [], os⟩ := by
  generalize hr : (some ⟨c, [], os⟩ : Option (Running K Op Cmd Out)) = r at h
  cases h with
  | idle => exact absurd hr (by simp)
  | same hc => rfl
  | before hc => exact absurd hr (by simp [Gate.alone, phases])
  | inside hc => exact absurd hr (by simp)
  | after hc => rfl

theorem WideRunning.acquire_inv {c : Cmd} {k : K} {m : Mode} {p : List (Instr K Op)} {os : List Out}
    {r' : Option (Running K Op Cmd Out)} (h : WideRunning G (some ⟨c, .acquire k m :: p, os⟩) r') :
    G.whole c = none ∧ r' = some ⟨c, .acquire k m :: p, os⟩ ∨
      ∃ ops, G.whole c = some ops ∧ k = G.lock ∧ m = .exclusive ∧
        p = ops.map .perform ++ [.release G.lock] ∧ r' = some ⟨c, G.wide ops, os⟩ := by
  generalize hr : (some ⟨c, .acquire k m :: p, os⟩ : Option (Running K Op Cmd Out)) = r at h
  cases h with
  | idle => exact absurd hr (by simp)
  | same hc =>
      obtain ⟨rfl, rfl, rfl⟩ := Running.mk.inj (Option.some.inj hr)
      exact Or.inl ⟨hc, rfl⟩
  | @before c' ops os' hc =>
      obtain ⟨rfl, hp, rfl⟩ := Running.mk.inj (Option.some.inj hr)
      obtain ⟨hi, hrest⟩ := List.cons.inj hp
      obtain ⟨rfl, rfl⟩ := Instr.acquire.inj hi
      exact Or.inr ⟨ops, hc, rfl, rfl, hrest, rfl⟩
  | @inside c' ops rest os' hc =>
      obtain ⟨_, hp, _⟩ := Running.mk.inj (Option.some.inj hr)
      cases rest <;> simp at hp
  | after hc => exact absurd hr (by simp)

theorem WideRunning.perform_inv {c : Cmd} {o : Op} {p : List (Instr K Op)} {os : List Out}
    {r' : Option (Running K Op Cmd Out)} (h : WideRunning G (some ⟨c, .perform o :: p, os⟩) r') :
    ∃ p', r' = some ⟨c, .perform o :: p', os⟩ ∧
      ∀ os' : List Out, WideRunning G (some ⟨c, p, os'⟩) (some ⟨c, p', os'⟩) := by
  generalize hr : (some ⟨c, .perform o :: p, os⟩ : Option (Running K Op Cmd Out)) = r at h
  cases h with
  | idle => exact absurd hr (by simp)
  | same hc =>
      obtain ⟨rfl, rfl, rfl⟩ := Running.mk.inj (Option.some.inj hr)
      exact ⟨p, rfl, fun _ => .same hc⟩
  | before hc => exact absurd hr (by simp [Gate.alone, phases])
  | @inside c' ops rest os' hc =>
      obtain ⟨rfl, hp, rfl⟩ := Running.mk.inj (Option.some.inj hr)
      cases rest with
      | nil => exact absurd (List.cons.inj hp).1 (by simp)
      | cons o' rest =>
          obtain ⟨hi, rfl⟩ := List.cons.inj hp
          obtain rfl := Instr.perform.inj hi
          exact ⟨_, rfl, fun _ => .inside hc⟩
  | after hc => exact absurd hr (by simp)

theorem WideRunning.release_inv {c : Cmd} {k : K} {p : List (Instr K Op)} {os : List Out}
    {r' : Option (Running K Op Cmd Out)} (h : WideRunning G (some ⟨c, .release k :: p, os⟩) r') :
    G.whole c = none ∧ r' = some ⟨c, .release k :: p, os⟩ ∨
      ∃ ops, G.whole c = some ops ∧ k = G.lock ∧ p = [] ∧
        r' = some ⟨c, (G.inner ++ [G.lock]).map .release, os⟩ := by
  generalize hr : (some ⟨c, .release k :: p, os⟩ : Option (Running K Op Cmd Out)) = r at h
  cases h with
  | idle => exact absurd hr (by simp)
  | same hc =>
      obtain ⟨rfl, rfl, rfl⟩ := Running.mk.inj (Option.some.inj hr)
      exact Or.inl ⟨hc, rfl⟩
  | before hc => exact absurd hr (by simp [Gate.alone, phases])
  | @inside c' ops rest os' hc =>
      obtain ⟨rfl, hp, rfl⟩ := Running.mk.inj (Option.some.inj hr)
      cases rest with
      | nil =>
          obtain ⟨hi, rfl⟩ := List.cons.inj hp
          exact Or.inr ⟨ops, hc, Instr.release.inj hi, rfl, rfl⟩
      | cons o' rest => exact absurd (List.cons.inj hp).1 (by simp)
  | after hc => exact absurd hr (by simp)

/-! ### Several steps in a row -/

variable [DecidableEq T] [DecidableEq K] {M : Machine K Op Cmd S Out}

/-- Locks taken shared in a row, none of them held exclusively. -/
theorem run_acquires {l : List K} {t : T} {c : Cmd} {p : List (Instr K Op)} {os : List Out}
    {s : State T K Op Cmd S Out}
    (hrun : (s.threads t).running = some ⟨c, l.map (fun k => .acquire k .shared) ++ p, os⟩)
    (hfree : ∀ k ∈ l, compatible .shared (s.locks k) = true) :
    ∃ u, run M (List.replicate l.length t) s = some u ∧ u.store = s.store ∧ u.log = s.log ∧
      u.threads = Function.update s.threads t
        ⟨(s.threads t).todo, some ⟨c, p, os⟩, (s.threads t).finished⟩ ∧
      ∀ k v m, (v, m) ∈ u.locks k ↔ (v, m) ∈ s.locks k ∨ k ∈ l ∧ v = t ∧ m = .shared := by
  induction l generalizing s with
  | nil =>
      refine ⟨s, rfl, rfl, rfl, ?_, fun k v m => by simp⟩
      have hth : s.threads t = ⟨(s.threads t).todo, some ⟨c, p, os⟩, (s.threads t).finished⟩ := by
        rw [show (some ⟨c, p, os⟩ : Option (Running K Op Cmd Out)) = _ from hrun.symm]
      rw [← hth, Function.update_eq_self]
  | cons k l ih =>
      have hstep := (Step.acquire (M := M) hrun (hfree k List.mem_cons_self)).step_eq
      -- the lock just taken is held shared, so the others can still be taken
      have hfree' : ∀ j ∈ l, compatible .shared
          (Function.update s.locks k ((t, .shared) :: s.locks k) j) = true := by
        intro j hj
        by_cases hjk : j = k
        · subst hjk
          simpa [compatible] using hfree j List.mem_cons_self
        · rw [Function.update_of_ne hjk]
          exact hfree j (List.mem_cons_of_mem k hj)
      obtain ⟨u, hu, hstore, hlog, hthreads, hlocks⟩ :=
        ih (s := (s.setLock k ((t, .shared) :: s.locks k)).setThread t ⟨(s.threads t).todo,
          some ⟨c, l.map (fun k => .acquire k .shared) ++ p, os⟩, (s.threads t).finished⟩)
          (by rw [setThread_self]) hfree'
      refine ⟨u, ?_, hstore, hlog, ?_, fun j v m => ?_⟩
      · rw [List.length_cons, List.replicate_succ, run_cons_eq_some]
        exact ⟨_, hstep, hu⟩
      · rw [hthreads]
        simp [State.setThread, State.setLock]
      · rw [hlocks]
        by_cases hjk : j = k
        · subst hjk
          simp only [setThread_locks, setLock_self, List.mem_cons, Prod.mk.injEq]
          tauto
        · simp only [setThread_locks, setLock_ne _ _ _ hjk, List.mem_cons, hjk, false_or]

/-- Locks given back in a row. -/
theorem run_releases {l : List K} {t : T} {c : Cmd} {p : List (Instr K Op)} {os : List Out}
    {s : State T K Op Cmd S Out} (hlocksInv : ∀ k, ((s.locks k).map Prod.fst).Nodup)
    (hrun : (s.threads t).running = some ⟨c, l.map .release ++ p, os⟩) :
    ∃ u, run M (List.replicate l.length t) s = some u ∧ u.store = s.store ∧ u.log = s.log ∧
      u.threads = Function.update s.threads t
        ⟨(s.threads t).todo, some ⟨c, p, os⟩, (s.threads t).finished⟩ ∧
      ∀ k v m, (v, m) ∈ u.locks k ↔ (v, m) ∈ s.locks k ∧ ¬ (k ∈ l ∧ v = t) := by
  induction l generalizing s with
  | nil =>
      refine ⟨s, rfl, rfl, rfl, ?_, fun k v m => by simp⟩
      have hth : s.threads t = ⟨(s.threads t).todo, some ⟨c, p, os⟩, (s.threads t).finished⟩ := by
        rw [show (some ⟨c, p, os⟩ : Option (Running K Op Cmd Out)) = _ from hrun.symm]
      rw [← hth, Function.update_eq_self]
  | cons k l ih =>
      have hstep := (Step.release (M := M) hrun).step_eq
      have hnd : ∀ j, ((Function.update s.locks k ((s.locks k).eraseP (fun h => h.1 = t)) j).map
          Prod.fst).Nodup := by
        intro j
        by_cases hjk : j = k
        · subst hjk
          rw [Function.update_self]
          exact (hlocksInv j).sublist (List.eraseP_sublist.map _)
        · rw [Function.update_of_ne hjk]
          exact hlocksInv j
      obtain ⟨u, hu, hstore, hlog, hthreads, hlocks⟩ :=
        ih (s := (s.setLock k ((s.locks k).eraseP (fun h => h.1 = t))).setThread t
          ⟨(s.threads t).todo, some ⟨c, l.map .release ++ p, os⟩, (s.threads t).finished⟩) hnd
          (by rw [setThread_self])
      refine ⟨u, ?_, hstore, hlog, ?_, fun j v m => ?_⟩
      · rw [List.length_cons, List.replicate_succ, run_cons_eq_some]
        exact ⟨_, hstep, hu⟩
      · rw [hthreads]
        simp [State.setThread, State.setLock]
      · rw [hlocks]
        by_cases hjk : j = k
        · subst hjk
          simp only [setThread_locks, setLock_self, mem_eraseP_iff (hlocksInv j), List.mem_cons]
          tauto
        · simp only [setThread_locks, setLock_ne _ _ _ hjk, List.mem_cons, hjk, false_or]

/-! ### One step -/

variable {s s' : State T K Op Cmd S Out} {t : T}

/-- A lock taken by a command that is not alone behind the gate. -/
theorem Widens.acquire (hF : Follows M G.Follow s) (hR : Widens G s s') {c : Cmd} {k : K} {m : Mode}
    {p : List (Instr K Op)} {os : List Out} (hc : G.whole c = none)
    (hrun : (s.threads t).running = some ⟨c, .acquire k m :: p, os⟩)
    (hrun' : (s'.threads t).running = some ⟨c, .acquire k m :: p, os⟩)
    (hfree : compatible m (s.locks k) = true) :
    ∃ u', run (M.widen G) [t] s' = some u' ∧
      Widens G ((s.setLock k ((t, m) :: s.locks k)).setThread t
        ⟨(s.threads t).todo, some ⟨c, p, os⟩, (s.threads t).finished⟩) u' := by
  have hfollow := hF.running t _ hrun
  simp only [Gate.Follow, hc] at hfollow
  obtain ⟨hB, hnew, hgate, hinner, _⟩ := hfollow
  have hfree' : compatible m (s'.locks k) = true := by
    cases m with
    | shared =>
        simp only [compatible, List.all_eq_true, decide_eq_true_eq] at hfree ⊢
        rintro ⟨v, m'⟩ hmem
        rcases (hR.locks k v m').mp hmem with h | ⟨_, h, _⟩
        · exact hfree _ h
        · exact h
    | exclusive =>
        simp only [compatible, List.isEmpty_iff] at hfree ⊢
        rw [List.eq_nil_iff_forall_not_mem]
        rintro ⟨v, m'⟩ hmem
        rcases (hR.locks k v m').mp hmem with h | ⟨hk, _, hv⟩
        · exact absurd h (by simp [hfree])
        · -- whoever is alone behind the gate excludes `t`, which holds it too
          obtain ⟨mg, hmg⟩ := Option.ne_none_iff_exists'.mp (hinner hk rfl)
          have hone := hF.locks.alone G.lock v hv
          have ht := mem_of_held hmg
          rw [hone, List.mem_singleton] at ht
          obtain ⟨_, rfl⟩ := Prod.mk.inj ht
          exact hB.shared hmg
  refine ⟨_, (run_singleton _ t s').trans (Step.acquire hrun' hfree').step_eq, ?_⟩
  refine hR.advance rfl rfl hR.store hR.log (hR.todo t) (hR.finished t) (.same hc) ?_
  intro j v m'
  -- who is alone behind the gate stays so
  have hgate' : (v, .exclusive) ∈ Function.update s.locks k ((t, m) :: s.locks k) G.lock ↔
      (v, .exclusive) ∈ s.locks G.lock := by
    by_cases hk : k = G.lock
    · rw [hk, Function.update_self, List.mem_cons, Prod.mk.injEq, hgate hk]
      simp
    · rw [Function.update_of_ne (Ne.symm hk)]
  simp only [setThread_locks, State.setLock]
  rw [hgate']
  by_cases hj : j = k
  · subst hj
    rw [Function.update_self, Function.update_self, List.mem_cons, List.mem_cons, hR.locks]
    tauto
  · rw [Function.update_of_ne hj, Function.update_of_ne hj, hR.locks]

/-- A lock given back by a command that is not alone behind the gate. -/
theorem Widens.release (hF : Follows M G.Follow s) (hL : LockInv s') (hR : Widens G s s') {c : Cmd}
    {k : K} {p : List (Instr K Op)} {os : List Out} (hc : G.whole c = none)
    (hrun : (s.threads t).running = some ⟨c, .release k :: p, os⟩)
    (hrun' : (s'.threads t).running = some ⟨c, .release k :: p, os⟩) :
    ∃ u', run (M.widen G) [t] s' = some u' ∧
      Widens G ((s.setLock k ((s.locks k).eraseP (fun h => h.1 = t))).setThread t
        ⟨(s.threads t).todo, some ⟨c, p, os⟩, (s.threads t).finished⟩) u' := by
  have hfollow := hF.running t _ hrun
  simp only [Gate.Follow, hc] at hfollow
  obtain ⟨hB, _⟩ := hfollow
  have hout : (t, Mode.exclusive) ∉ s.locks G.lock :=
    fun h => hB.shared (hF.locks.held_exclusive h)
  refine ⟨_, (run_singleton _ t s').trans (Step.release hrun').step_eq, ?_⟩
  refine hR.advance rfl rfl hR.store hR.log (hR.todo t) (hR.finished t) (.same hc) ?_
  intro j v m'
  have hgate' : (v, .exclusive) ∈
      Function.update s.locks k ((s.locks k).eraseP (fun h => h.1 = t)) G.lock ↔
      (v, .exclusive) ∈ s.locks G.lock := by
    by_cases hk : k = G.lock
    · rw [hk, Function.update_self, mem_eraseP_iff (hF.locks.nodup G.lock), and_iff_left_iff_imp]
      rintro h rfl
      exact hout h
    · rw [Function.update_of_ne (Ne.symm hk)]
  simp only [setThread_locks, State.setLock]
  rw [hgate']
  by_cases hj : j = k
  · subst hj
    rw [Function.update_self, Function.update_self, mem_eraseP_iff (hL.nodup j),
      mem_eraseP_iff (hF.locks.nodup j), hR.locks]
    constructor
    · rintro ⟨h | h, hv⟩
      · exact Or.inl ⟨h, hv⟩
      · exact Or.inr h
    · rintro (⟨h, hv⟩ | h)
      · exact ⟨Or.inl h, hv⟩
      · refine ⟨Or.inr h, ?_⟩
        rintro rfl
        exact hout h.2.2
  · rw [Function.update_of_ne hj, Function.update_of_ne hj, hR.locks]

/-- Whoever holds an inner lock exclusively holds the gate. -/
theorem behind_of_exclusive (hF : Follows M G.Follow s) {k : K} (hk : k ∈ G.inner)
    (h : (t, Mode.exclusive) ∈ s.locks k) : ∃ m, (t, m) ∈ s.locks G.lock := by
  have hheld := hF.locks.held_exclusive h
  cases hrun : (s.threads t).running with
  | none =>
      rw [hF.idle t hrun] at hheld
      exact absurd hheld (by simp)
  | some r =>
      have hfollow := hF.running t r hrun
      unfold Gate.Follow at hfollow
      cases hw : G.whole r.cmd with
      | none =>
          rw [hw] at hfollow
          obtain ⟨m, hm⟩ := Option.ne_none_iff_exists'.mp (hfollow.1.behind k hk hheld)
          exact ⟨m, mem_of_held hm⟩
      | some ops =>
          rw [hw] at hfollow
          -- a command that is alone behind the gate holds no other lock
          have hne : k ≠ G.lock := by
            rintro rfl
            exact G.outside hk
          rcases hfollow with ⟨hH, _⟩ | ⟨hH, _⟩ | ⟨hH, _⟩ <;> rw [hH] at hheld <;>
            simp [hne] at hheld

/-- The gate taken exclusively: it was free, so nobody holds an inner lock exclusively, and the other
    machine takes them all. -/
theorem Widens.enter (hF : Follows M G.Follow s) (hR : Widens G s s') {c : Cmd} {ops : List Op}
    {os : List Out} (hc : G.whole c = some ops)
    (hrun' : (s'.threads t).running = some ⟨c, G.wide ops, os⟩)
    (hfree : compatible .exclusive (s.locks G.lock) = true) :
    ∃ us u', run (M.widen G) us s' = some u' ∧
      Widens G ((s.setLock G.lock ((t, .exclusive) :: s.locks G.lock)).setThread t
        ⟨(s.threads t).todo, some ⟨c, ops.map .perform ++ [.release G.lock], os⟩,
          (s.threads t).finished⟩) u' := by
  have hnone : s.locks G.lock = [] := by simpa [compatible] using hfree
  have hnone' : s'.locks G.lock = [] := by
    rw [List.eq_nil_iff_forall_not_mem]
    rintro ⟨v, m⟩ hmem
    rcases (hR.locks _ v m).mp hmem with h | ⟨hin, _⟩
    · exact absurd h (by simp [hnone])
    · exact G.outside hin
  have hfirst := (Step.acquire (M := M.widen G) hrun' (by simp [compatible, hnone'])).step_eq
  have hshared : ∀ k ∈ G.inner, compatible .shared
      (Function.update s'.locks G.lock ((t, .exclusive) :: s'.locks G.lock) k) = true := by
    intro k hk
    have hne : k ≠ G.lock := by
      rintro rfl
      exact G.outside hk
    rw [Function.update_of_ne hne]
    simp only [compatible, List.all_eq_true, decide_eq_true_eq]
    rintro ⟨v, m⟩ hmem
    rcases (hR.locks k v m).mp hmem with h | ⟨_, h, _⟩
    · cases m with
      | shared => rfl
      | exclusive =>
          obtain ⟨mg, hmg⟩ := behind_of_exclusive hF hk h
          exact absurd hmg (by simp [hnone])
    · exact h
  obtain ⟨u', hu', hstore, hlog, hthreads, hlocks⟩ := run_acquires (M := M.widen G)
    (l := G.inner) (p := ops.map .perform ++ (G.inner ++ [G.lock]).map .release)
    (s := (s'.setLock G.lock ((t, .exclusive) :: s'.locks G.lock)).setThread t
      ⟨(s'.threads t).todo, some ⟨c, G.inner.map (fun k => .acquire k .shared) ++
        (ops.map .perform ++ (G.inner ++ [G.lock]).map .release), os⟩, (s'.threads t).finished⟩)
    (by rw [setThread_self]) hshared
  have hthreads' : u'.threads = Function.update s'.threads t ⟨(s'.threads t).todo,
      some ⟨c, ops.map .perform ++ (G.inner ++ [G.lock]).map .release, os⟩,
      (s'.threads t).finished⟩ := by
    rw [hthreads]
    simp [State.setThread, State.setLock]
  refine ⟨t :: List.replicate G.inner.length t, u', ?_, ?_⟩
  · refine run_cons_eq_some.mpr ⟨_, hfirst, ?_⟩
    have hrest : G.inner.map (fun k => (.acquire k .shared : Instr K Op)) =
        (G.inner.map (fun k => (k, Mode.shared))).map (fun a => .acquire a.1 a.2) := by
      rw [List.map_map]
      rfl
    rw [← hu', hrest]
    rfl
  · refine hR.advance rfl hthreads' (hstore.trans hR.store) (hlog.trans hR.log)
      (hR.todo t) (hR.finished t) (.inside hc) ?_
    intro k v m
    rw [hlocks]
    simp only [setThread_locks, State.setLock]
    by_cases hk : k = G.lock
    · subst hk
      simp only [Function.update_self, hnone, hnone', G.outside, false_and, or_false]
    · rw [Function.update_of_ne hk, Function.update_of_ne hk, Function.update_self, hR.locks, hnone]
      simp only [List.not_mem_nil, and_false, or_false, List.mem_singleton, Prod.mk.injEq, and_true]
      tauto

/-- The gate given back, and the inner locks before it on the other machine. -/
theorem Widens.leave (hF : Follows M G.Follow s) (hL : LockInv s') (hR : Widens G s s') {c : Cmd}
    {ops : List Op} {os : List Out} (hc : G.whole c = some ops)
    (hrun : (s.threads t).running = some ⟨c, [.release G.lock], os⟩)
    (hrun' : (s'.threads t).running = some ⟨c, (G.inner ++ [G.lock]).map .release, os⟩) :
    ∃ us u', run (M.widen G) us s' = some u' ∧
      Widens G ((s.setLock G.lock ((s.locks G.lock).eraseP (fun h => h.1 = t))).setThread t
        ⟨(s.threads t).todo, some ⟨c, [], os⟩, (s.threads t).finished⟩) u' := by
  have hfollow := hF.running t _ hrun
  simp only [Gate.Follow, hc] at hfollow
  obtain ⟨_, _, hH⟩ := Gate.At.release hfollow
  have hheld : s.held t G.lock = some .exclusive := by
    rw [hH, Function.update_self]
  -- the thread is the only holder of the gate, and of no other lock
  have hone := hF.locks.alone G.lock t (mem_of_held hheld)
  have hother : ∀ k, k ≠ G.lock → ∀ m, (t, m) ∉ s.locks k := by
    intro k hk
    rw [← held_eq_none_iff, hH, Function.update_of_ne hk]
  obtain ⟨u', hu', hstore, hlog, hthreads, hlocks⟩ := run_releases (M := M.widen G)
    (l := G.inner ++ [G.lock]) (p := []) hL.nodup (by rw [List.append_nil]; exact hrun')
  refine ⟨_, u', hu', hR.advance rfl hthreads (hstore.trans hR.store) (hlog.trans hR.log)
    (hR.todo t) (hR.finished t) (.after hc) ?_⟩
  intro k v m
  rw [hlocks, hR.locks]
  simp only [setThread_locks, State.setLock, Function.update_self, hone, List.mem_singleton,
    Prod.mk.injEq, and_true, decide_true, List.eraseP_cons_of_pos, List.not_mem_nil, and_false, or_false,
    List.mem_append]
  by_cases hk : k = G.lock
  · subst hk
    rw [Function.update_self]
    simp only [hone, List.mem_singleton, Prod.mk.injEq, G.outside, false_and, or_false, false_or,
      true_and, List.not_mem_nil, iff_false]
    rintro ⟨⟨rfl, _⟩, h⟩
    exact h rfl
  · rw [Function.update_of_ne hk]
    simp only [hk, or_false]
    constructor
    · rintro ⟨h | ⟨hin, _, rfl⟩, hne⟩
      · exact h
      · exact absurd ⟨hin, rfl⟩ hne
    · intro h
      refine ⟨Or.inl h, ?_⟩
      rintro ⟨_, rfl⟩
      exact hother k hk m h

/-- **Step lemma.** A step of the machine is some steps of the widened one. -/
theorem widens_step (hcode : ∀ c ops, G.whole c = some ops → M.code c = G.alone ops)
    (hF : Follows M G.Follow s) (hL : LockInv s') (hR : Widens G s s') {u : State T K Op Cmd S Out}
    (hstep : Step M t s u) : ∃ us u', run (M.widen G) us s' = some u' ∧ Widens G u u' := by
  have hrunning := hR.running t
  cases hstep with
  | @start c cs hrun htodo =>
      rw [hrun] at hrunning
      have hstep' := (Step.start (M := M.widen G) hrunning.none_inv ((hR.todo t).trans htodo)).step_eq
      refine ⟨[t], _, (run_singleton _ t s').trans hstep', ?_⟩
      refine hR.advance rfl rfl hR.store ?_ rfl (hR.finished t) ?_ hR.locks
      · show s'.log ++ _ = s.log ++ _
        rw [hR.log, hR.finished t]
      · show WideRunning G (some ⟨c, M.code c, []⟩) (some ⟨c, (M.widen G).code c, []⟩)
        cases hc : G.whole c with
        | none =>
            simp only [Machine.widen, hc]
            exact .same hc
        | some ops =>
            simp only [Machine.widen, hc, hcode c ops hc]
            exact .before hc
  | @finish c os hrun =>
      rw [hrun] at hrunning
      have hstep' := (Step.finish (M := M.widen G) hrunning.nil_inv).step_eq
      refine ⟨[t], _, (run_singleton _ t s').trans hstep', ?_⟩
      refine hR.advance rfl rfl hR.store ?_ (hR.todo t) ?_ .idle hR.locks
      · show s'.log ++ _ = s.log ++ _
        rw [hR.log, hR.finished t]
      · show (s'.threads t).finished ++ _ = (s.threads t).finished ++ _
        rw [hR.finished t]
  | @acquire c k m p os hrun hfree =>
      rw [hrun] at hrunning
      rcases hrunning.acquire_inv with ⟨hc, hrun'⟩ | ⟨ops, hc, rfl, rfl, rfl, hrun'⟩
      · obtain ⟨u', hu', hR'⟩ := hR.acquire hF hc hrun hrun' hfree
        exact ⟨_, u', hu', hR'⟩
      · exact hR.enter hF hc hrun' hfree
  | @perform c o p os hrun =>
      rw [hrun] at hrunning
      obtain ⟨p', hrun', hnext⟩ := hrunning.perform_inv
      have hstep' := (Step.perform (M := M.widen G) hrun').step_eq
      refine ⟨[t], _, (run_singleton _ t s').trans hstep', ?_⟩
      refine hR.advance rfl rfl ?_ hR.log (hR.todo t) (hR.finished t) ?_ hR.locks
      · show (M.exec o s'.store).1 = (M.exec o s.store).1
        rw [hR.store]
      · show WideRunning G (some ⟨c, p, os ++ [(M.exec o s.store).2]⟩)
          (some ⟨c, p', os ++ [(M.exec o s'.store).2]⟩)
        rw [hR.store]
        exact hnext _
  | @release c k p os hrun =>
      rw [hrun] at hrunning
      rcases hrunning.release_inv with ⟨hc, hrun'⟩ | ⟨ops, hc, rfl, rfl, hrun'⟩
      · obtain ⟨u', hu', hR'⟩ := hR.release hF hL hc hrun hrun'
        exact ⟨_, u', hu', hR'⟩
      · exact hR.leave hF hL hc hrun hrun'

/-! ## Runs -/

/-- What a command starts with, from the discipline of those that are not alone behind the gate. -/
theorem follow_code (hcode : ∀ c ops, G.whole c = some ops → M.code c = G.alone ops) {c : Cmd}
    (hplain : G.whole c = none → G.Gated (fun _ => none) (M.code c)) :
    G.Follow c (fun _ => none) (M.code c) := by
  unfold Gate.Follow
  cases hc : G.whole c with
  | none => exact ⟨⟨by simp, fun _ _ h => absurd h (by simp)⟩, hplain hc⟩
  | some ops => exact Or.inl ⟨rfl, hcode c ops hc⟩

/-- **Every run is one of the widened machine**, with the same store, outputs and history. -/
theorem widens_run (hcode : ∀ c ops, G.whole c = some ops → M.code c = G.alone ops) {σ : S}
    {todo : T → List Cmd}
    (hplain : ∀ t, ∀ c ∈ todo t, G.whole c = none → G.Gated (fun _ => none) (M.code c))
    (hwide : ∀ t, ∀ c ∈ todo t, Balanced (fun _ => none) ((M.widen G).code c)) {sched : List T}
    {s : State T K Op Cmd S Out} (hrun : run M sched (State.init σ todo) = some s) :
    ∃ sched' s', run (M.widen G) sched' (State.init σ todo) = some s' ∧ Widens G s s' := by
  have hinv : Follows M G.Follow s ∧
      ∃ sched' s', run (M.widen G) sched' (State.init σ todo) = some s' ∧ Widens G s s' := by
    refine run_invariant (fun s => Follows M G.Follow s ∧
      ∃ sched' s', run (M.widen G) sched' (State.init σ todo) = some s' ∧ Widens G s s') ?_ ?_ hrun
    · rintro t s u ⟨hF, sched', s', hrun', hR⟩ hstep
      have hL : LockInv s' := (follows_traced hwide hrun').locks
      obtain ⟨us, u', hu', hR'⟩ := widens_step hcode hF hL hR hstep
      refine ⟨follows_step (discipline_follow G) hF hstep, sched' ++ us, u', ?_, hR'⟩
      rw [run_append, hrun']
      exact hu'
    · exact ⟨follows_init σ todo (fun t c hc => follow_code hcode (hplain t c hc)),
        [], _, rfl, widens_init σ todo⟩
  exact hinv.2

end Simulation

/-! ## Commands in three phases -/

section Phases

variable {K Op Cmd : Type*} [DecidableEq K] {G : Gate K Op Cmd}

/-- Locks given back, the gate last if at all. -/
theorem gated_releases {rels : List K} {H : K → Option Mode} (hH : ∀ k, H k ≠ none → k ∈ rels)
    (hlast : ∀ pre post, rels = pre ++ G.lock :: post → post = []) :
    G.Gated H (rels.map .release) := by
  induction rels generalizing H with
  | nil => exact funext fun k => not_not.mp (fun h => absurd (hH k h) (by simp))
  | cons k rels ih =>
      refine ⟨?_, ih (fun j hj => ?_) (fun pre post h => hlast (k :: pre) post (by rw [h]; rfl))⟩
      · rintro rfl j hj hx
        -- nothing but the gate is left
        have hnil := hlast [] rels rfl
        have hmem := hH j (by rw [hx]; simp)
        rw [hnil, List.mem_singleton] at hmem
        exact G.outside (hmem ▸ hj)
      · by_cases hjk : j = k
        · exact absurd hj (by simp [hjk])
        · rw [Function.update_of_ne hjk] at hj
          exact (List.mem_cons.mp (hH j hj)).resolve_left hjk

theorem gated_performs {H : K → Option Mode} {p : List (Instr K Op)} (hp : G.Gated H p)
    (ops : List Op) : G.Gated H (ops.map .perform ++ p) := by
  induction ops with
  | nil => exact hp
  | cons o ops ih => exact ih

/-- Locks taken, exclusive ones among the inner locks only when the gate is held. -/
theorem gated_acquires {acqs : List (K × Mode)} (hnd : (acqs.map Prod.fst).Nodup)
    {H : K → Option Mode} (hfree : ∀ k ∈ acqs.map Prod.fst, H k = none)
    (hgate : G.lock ∉ acqs.map Prod.fst)
    (hinner : (∀ k ∈ G.inner, (k, .exclusive) ∉ acqs) ∨ H G.lock ≠ none) {p : List (Instr K Op)}
    (hp : G.Gated (holding H acqs) p) : G.Gated H (acqs.map (fun a => .acquire a.1 a.2) ++ p) := by
  induction acqs generalizing H with
  | nil => exact hp
  | cons a acqs ih =>
      rw [List.map_cons, List.nodup_cons] at hnd
      rw [List.map_cons, List.mem_cons, not_or] at hgate
      refine ⟨hfree a.1 List.mem_cons_self, fun h => absurd h.symm hgate.1, ?_,
        ih hnd.2 (fun k hk => ?_) hgate.2 ?_ hp⟩
      · intro hk hm
        refine hinner.resolve_left (fun h => h a.1 hk ?_)
        rw [← hm]
        exact List.mem_cons_self
      · have hka : k ≠ a.1 := by rintro rfl; exact hnd.1 hk
        rw [Function.update_of_ne hka]
        exact hfree k (List.mem_cons_of_mem a.1 hk)
      · rw [Function.update_of_ne hgate.1]
        exact hinner.imp (fun h k hk hmem => h k hk (List.mem_cons_of_mem a hmem)) id

/-- Three phases without the gate, the inner locks shared. -/
theorem gated_phases_shared {acqs : List (K × Mode)} {ops : List Op} {rels : List K}
    (hnd : (acqs.map Prod.fst).Nodup) (hgate : G.lock ∉ acqs.map Prod.fst)
    (hinner : ∀ k ∈ G.inner, (k, .exclusive) ∉ acqs) (hrels : rels.Perm (acqs.map Prod.fst)) :
    G.Gated (fun _ => none) (phases acqs ops rels) := by
  refine gated_acquires hnd (fun _ _ => rfl) hgate (Or.inl hinner)
    (gated_performs (gated_releases (fun k hk => ?_) (fun pre post h => ?_)) ops)
  · rw [hrels.mem_iff]
    exact (holding_ne_none_iff hnd k).mp hk
  · refine absurd (hrels.mem_iff.mp ?_) hgate
    rw [h]
    simp

/-- Three phases behind the gate: it is taken first and given back last. -/
theorem gated_phases_behind {acqs : List (K × Mode)} {ops : List Op} {rels : List K}
    (hnd : (acqs.map Prod.fst).Nodup) (hgate : G.lock ∉ acqs.map Prod.fst)
    (hrels : rels.Perm (acqs.map Prod.fst)) :
    G.Gated (fun _ => none) (phases ((G.lock, .shared) :: acqs) ops (rels ++ [G.lock])) := by
  have hout : G.lock ∉ rels := fun h => hgate (hrels.mem_iff.mp h)
  refine ⟨rfl, fun _ => rfl, fun h => absurd h G.outside, ?_⟩
  refine gated_acquires hnd (fun k hk => ?_) hgate (Or.inr (by simp))
    (gated_performs (gated_releases (fun k hk => ?_) (fun pre post h => ?_)) ops)
  · have hne : k ≠ G.lock := by
      rintro rfl
      exact hgate hk
    rw [Function.update_of_ne hne]
  · rw [List.mem_append, List.mem_singleton]
    by_cases hkl : k = G.lock
    · exact Or.inr hkl
    · by_cases hmem : k ∈ acqs.map Prod.fst
      · exact Or.inl (hrels.mem_iff.mpr hmem)
      · rw [holding_of_notMem hmem, Function.update_of_ne hkl] at hk
        exact absurd rfl hk
  · -- the gate is not among the locks before the last
    rcases List.eq_nil_or_concat post with hpost | ⟨post', x, hpost⟩
    · exact hpost
    · rw [hpost, List.concat_eq_append, ← List.cons_append, ← List.append_assoc] at h
      have hrels' : rels = pre ++ G.lock :: post' := (List.append_inj' h rfl).1
      exact absurd (by rw [hrels']; simp) hout

/-- The discipline is about the locks only. -/
theorem gated_congr {Cmd' : Type*} {G' : Gate K Op Cmd'} (hlock : G'.lock = G.lock)
    (hinner : G'.inner = G.inner) {H : K → Option Mode} {p : List (Instr K Op)} (h : G.Gated H p) :
    G'.Gated H p := by
  induction p generalizing H with
  | nil => exact h
  | cons i p ih =>
      cases i with
      | acquire k m =>
          obtain ⟨hnew, hgate, hin, hp⟩ := h
          refine ⟨hnew, ?_, ?_, ih hp⟩
          · rwa [hlock]
          · rwa [hlock, hinner]
      | perform o => exact ih h
      | release k =>
          obtain ⟨hgate, hp⟩ := h
          refine ⟨?_, ih hp⟩
          rwa [hlock, hinner]

end Phases

/-! ## Serializability -/

section Serializable

variable {T K Op Cmd L V Out : Type*} [DecidableEq T] [DecidableEq K]
  {M : Machine K Op Cmd (L → V) Out} {G : Gate K Op Cmd} {fp : Footprint M.exec} {guard : L → K}

omit [DecidableEq K] in
/-- Alone, a command does on the widened machine what it does on this one. -/
theorem serial_widen {S : Type*} {M : Machine K Op Cmd S Out}
    (hcode : ∀ c ops, G.whole c = some ops → M.code c = G.alone ops) (cs : List Cmd) (σ : S) :
    serial (M.widen G) cs σ = serial M cs σ := by
  have hexec : ∀ (p : List (Instr K Op)) (σ : S), runCode (M.widen G) p σ = runCode M p σ := by
    intro p
    induction p with
    | nil => exact fun _ => rfl
    | cons i p ih =>
        intro σ
        cases i with
        | acquire k m => exact ih σ
        | perform o =>
            simp only [runCode]
            rw [ih]
            rfl
        | release k => exact ih σ
  have hone : ∀ (c : Cmd) (σ : S),
      runCode (M.widen G) ((M.widen G).code c) σ = runCode M (M.code c) σ := by
    intro c σ
    rw [hexec]
    cases hc : G.whole c with
    | none => simp only [Machine.widen, hc]
    | some ops =>
        simp only [Machine.widen, hc]
        rw [hcode c ops hc, Gate.wide, Gate.alone, runCode_phases, runCode_phases]
  induction cs generalizing σ with
  | nil => rfl
  | cons c cs ih => simp only [serial, hone, ih]

/-- **Gated commands are serializable**, the ones that are alone behind the gate too: it is enough that
    the widened commands are disciplined. -/
theorem serializable_of_gated (hcode : ∀ c ops, G.whole c = some ops → M.code c = G.alone ops)
    {σ₀ : L → V} {todo : T → List Cmd}
    (hplain : ∀ t, ∀ c ∈ todo t, G.whole c = none → G.Gated (fun _ => none) (M.code c))
    (hwide : ∀ t, ∀ c ∈ todo t, Disciplined fp guard (fun _ => none) ((M.widen G).code c))
    {sched : List T} {s : State T K Op Cmd (L → V) Out}
    (hrun : run M sched (State.init σ₀ todo) = some s)
    (hquiet : ∀ t, (s.threads t).running = none) : ∃ order, Explains M σ₀ s order := by
  obtain ⟨sched', s', hrun', hR⟩ :=
    widens_run hcode hplain (fun t c hc => (hwide t c hc).balanced) hrun
  have hquiet' : ∀ t, (s'.threads t).running = none := by
    intro t
    have h := hR.running t
    rw [hquiet t] at h
    exact h.none_inv
  obtain ⟨order, hex⟩ := serializable_of_disciplined (M := M.widen G) hwide hrun' hquiet'
  refine ⟨order, ?_, hex.program, ?_, ?_⟩
  · intro e
    rw [hex.entries e, hR.finished]
  · rw [← hR.log]
    exact hex.realtime
  · rw [← serial_widen hcode, hex.serial_eq, hR.store]

end Serializable

end Locking
