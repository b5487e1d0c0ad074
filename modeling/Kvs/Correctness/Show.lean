import Kvs.Server.Operations

/-!
# `Correctness.Show` — what a `SHOW` prints while writers run

`process_job_file` calls `kvs_show` with the flag that takes no lock, so writers may change buckets
between two buckets of a `SHOW` (`show_mixes_write`). A `SHOW` prints the contents of one instant when
the table does not change while it is midway and no `WRITE` or `DELETE` is partly applied when it prints
its first bucket (`Calm`): `show_consistent`, for any number of threads and every such run.
-/

namespace Kvs.Server

open Locking

abbrev WorkerThread := Thread LockId StoreOp WorkerCmd StoreOut

abbrev WorkerState (T : Type*) := State T LockId StoreOp WorkerCmd Buckets StoreOut

/-! ## Commands midway -/

def WorkerCmd.isUpdate : WorkerCmd → Bool
  | .cmdWrite _ _ => true
  | .cmdRead _ => false
  | .cmdDelete _ => true
  | .cmdShow => false
  | .cmdBackup => false

/-- Past the first of the steps on the table, with another one to come. -/
def halfway (r : Running LockId StoreOp WorkerCmd StoreOut) : Bool :=
  !r.outs.isEmpty && r.rest.any Instr.isPerform

/-- A `WRITE` or `DELETE` of the thread is partly applied. -/
def partlyApplied (th : WorkerThread) : Bool :=
  th.running.any (fun r => r.cmd.isUpdate && halfway r)

/-- A `SHOW` of the thread has printed some of the buckets. -/
def midShow (th : WorkerThread) : Bool := th.running.any (fun r => r.cmd.isShow && halfway r)

/-- The texts of the finished `SHOW` commands. -/
def showTexts (th : WorkerThread) : List (List Byte) :=
  (th.finished.filter (fun f => f.1.isShow)).map (fun f => f.1.output f.2)

variable {T : Type*} [DecidableEq T]

/-- The next step of `t` changes the table. -/
def changesTable (s : WorkerState T) (t : T) : Bool :=
  match (s.threads t).running with
  | some ⟨_, .perform o :: _, _⟩ => decide ((o.exec s.store).1 ≠ s.store)
  | _ => false

/-- The next step of `t` prints the first bucket of a `SHOW`. -/
def startsShow (s : WorkerState T) (t : T) : Bool :=
  match (s.threads t).running with
  | some ⟨c, .perform _ :: _, []⟩ => c.isShow
  | _ => false

/-- **The condition on a step of `t`**: it changes the table only while no `SHOW` is midway, and prints
    the first bucket of a `SHOW` only while no `WRITE` or `DELETE` is partly applied. -/
def Calm (s : WorkerState T) (t : T) : Prop :=
  (changesTable s t = true → ∀ u, midShow (s.threads u) = false) ∧
  (startsShow s t = true → ∀ u, partlyApplied (s.threads u) = false)

instance [Fintype T] (s : WorkerState T) (t : T) : Decidable (Calm s t) :=
  inferInstanceAs (Decidable (_ ∧ _))

/-! ## The invariant -/

/-- The contents the table had at the instants of a run at which nothing was partly applied. -/
def instants (table : Buckets) (todo : T → List WorkerCmd) (sched : List T) : Set Buckets :=
  {now | ∃ pre s, pre <+: sched ∧ run worker pre (State.init table todo) = some s ∧
    (∀ u, partlyApplied (s.threads u) = false) ∧ s.store = now}

/-- How far a `SHOW` in progress has come. Once it has printed a bucket, all it has printed is from one
    of the instants seen, and while it has more to print the table is still as at that instant. -/
def ShowAt (seen : Set Buckets) (now : Buckets)
    (r : Running LockId StoreOp WorkerCmd StoreOut) : Prop :=
  ∃ printed coming, printed ++ coming = List.finRange TABLE_SIZE ∧
    r.rest = coming.map (fun i => .perform (.showBucket i)) ∧
    (printed = [] ∧ r.outs = [] ∨
      ∃ τ ∈ seen, r.outs = printed.map (fun i => .shown (showNodes (τ i))) ∧
        (coming ≠ [] → now = τ))

/-- Every `SHOW` in progress prints one instant, and every finished one has. -/
structure ShowInv (seen : Set Buckets) (s : WorkerState T) : Prop where
  running : ∀ t r, (s.threads t).running = some r → r.cmd.isShow = true → ShowAt seen s.store r
  finished : ∀ t, ∀ text ∈ showTexts (s.threads t), ∃ τ ∈ seen, text = showTable τ

omit [DecidableEq T] in
theorem showInv_init (seen : Set Buckets) (table : Buckets) (todo : T → List WorkerCmd) :
    ShowInv seen (State.init table todo : WorkerState T) where
  running _ _ h := absurd h (by simp [State.init])
  finished _ _ h := absurd h (by simp [State.init, showTexts])

theorem instants_mono {table : Buckets} {todo : T → List WorkerCmd} {pre sched : List T}
    (h : pre <+: sched) : instants table todo pre ⊆ instants table todo sched := by
  rintro now ⟨pre', s, hpre, hrest⟩
  exact ⟨pre', s, hpre.trans h, hrest⟩

/-- A `SHOW` keeps its instant while the table does not change under it. -/
theorem ShowAt.keep {seen seen' : Set Buckets} {now now' : Buckets}
    {r : Running LockId StoreOp WorkerCmd StoreOut} (h : ShowAt seen now r) (hseen : seen ⊆ seen')
    (hnow : now' ≠ now → halfway r = false) : ShowAt seen' now' r := by
  obtain ⟨printed, coming, hall, hrest, hprinted⟩ := h
  refine ⟨printed, coming, hall, hrest, ?_⟩
  rcases hprinted with hnone | ⟨τ, hτ, houts, hsame⟩
  · exact Or.inl hnone
  · by_cases hp : printed = []
    · exact Or.inl ⟨hp, by rw [houts, hp]; rfl⟩
    · refine Or.inr ⟨τ, hseen hτ, houts, fun hcoming => ?_⟩
      by_cases heq : now' = now
      · rw [heq]
        exact hsame hcoming
      · -- it is midway, so the table may not have changed
        obtain ⟨i, rest, rfl⟩ := List.exists_cons_of_ne_nil hcoming
        have hmid : halfway r = true := by
          simp [halfway, houts, hrest, hp, Instr.isPerform]
        exact absurd (hmid.symm.trans (hnow heq)) (by simp)

/-- The code of `SHOW` is the 26 buckets, with no lock. -/
theorem code_show {c : WorkerCmd} (hc : c.isShow = true) :
    worker.code c = (List.finRange TABLE_SIZE).map (fun i => .perform (.showBucket i)) := by
  cases c with
  | cmdShow => simp [worker, processCommand, kvsShow, phases, List.map_map, Function.comp_def]
  | cmdWrite pairs mem => exact absurd hc (by simp [WorkerCmd.isShow])
  | cmdRead keys => exact absurd hc (by simp [WorkerCmd.isShow])
  | cmdDelete keys => exact absurd hc (by simp [WorkerCmd.isShow])
  | cmdBackup => exact absurd hc (by simp [WorkerCmd.isShow])

/-- A `SHOW` that has printed all 26 buckets has printed an instant. -/
theorem ShowAt.done {seen : Set Buckets} {now : Buckets} {c : WorkerCmd} {outs : List StoreOut}
    (hc : c.isShow = true) (h : ShowAt seen now ⟨c, [], outs⟩) :
    ∃ τ ∈ seen, c.output outs = showTable τ := by
  obtain ⟨printed, coming, hall, hrest, hprinted⟩ := h
  have hcoming : coming = [] := List.map_eq_nil_iff.mp hrest.symm
  rw [hcoming, List.append_nil] at hall
  rcases hprinted with ⟨hp, _⟩ | ⟨τ, hτ, houts, _⟩
  · rw [hp] at hall
    exact absurd hall (by decide)
  · refine ⟨τ, hτ, ?_⟩
    simp only at houts
    cases c with
    | cmdShow =>
        rw [WorkerCmd.output, houts, hall, List.flatMap_map]
        rfl
    | cmdWrite pairs mem => exact absurd hc (by simp [WorkerCmd.isShow])
    | cmdRead keys => exact absurd hc (by simp [WorkerCmd.isShow])
    | cmdDelete keys => exact absurd hc (by simp [WorkerCmd.isShow])
    | cmdBackup => exact absurd hc (by simp [WorkerCmd.isShow])

/-- A step of `t` touches only its own part of the invariant, and the table under the others. -/
theorem ShowInv.advance {seen seen' : Set Buckets} {s s' : WorkerState T} (hI : ShowInv seen s)
    (hseen : seen ⊆ seen') {t : T} {th : WorkerThread}
    (hthreads : s'.threads = Function.update s.threads t th)
    (hnow : s'.store ≠ s.store → ∀ u, midShow (s.threads u) = false)
    (hrunning : ∀ r, th.running = some r → r.cmd.isShow = true → ShowAt seen' s'.store r)
    (hfinished : ∀ text ∈ showTexts th, ∃ τ ∈ seen', text = showTable τ) : ShowInv seen' s' where
  running u r hr hc := by
    by_cases hu : u = t
    · subst hu
      rw [hthreads, Function.update_self] at hr
      exact hrunning r hr hc
    · rw [hthreads, Function.update_of_ne hu] at hr
      refine (hI.running u r hr hc).keep hseen (fun hne => ?_)
      have hmid := hnow hne u
      simpa [midShow, hr, hc] using hmid
  finished u text htext := by
    by_cases hu : u = t
    · subst hu
      rw [hthreads, Function.update_self] at htext
      exact hfinished text htext
    · rw [hthreads, Function.update_of_ne hu] at htext
      obtain ⟨τ, hτ, heq⟩ := hI.finished u text htext
      exact ⟨τ, hseen hτ, heq⟩

/-- **Step lemma.** A calm step keeps the invariant; the instant before it may join those seen. -/
theorem showInv_step {seen seen' : Set Buckets} {s s' : WorkerState T} {t : T}
    (hI : ShowInv seen s) (hseen : seen ⊆ seen') (hcalm : Calm s t)
    (hinstant : (∀ u, partlyApplied (s.threads u) = false) → s.store ∈ seen')
    (hstep : Step worker t s s') : ShowInv seen' s' := by
  have hfinished : ∀ text ∈ showTexts (s.threads t), ∃ τ ∈ seen', text = showTable τ := by
    intro text htext
    obtain ⟨τ, hτ, heq⟩ := hI.finished t text htext
    exact ⟨τ, hseen hτ, heq⟩
  cases hstep with
  | @start c cs hrun htodo =>
      refine hI.advance hseen rfl (fun h => absurd rfl h) ?_ hfinished
      intro r hr hc
      obtain rfl := Option.some.inj hr
      exact ⟨[], List.finRange TABLE_SIZE, rfl, code_show hc, Or.inl ⟨rfl, rfl⟩⟩
  | @finish c outs hrun =>
      refine hI.advance hseen rfl (fun h => absurd rfl h) (fun _ h => absurd h (by simp)) ?_
      intro text htext
      by_cases hc : c.isShow = true
      · simp only [showTexts, List.filter_append, List.map_append, List.mem_append] at htext
        rcases htext with h | h
        · exact hfinished text h
        · simp only [List.filter_cons, hc, if_true, List.filter_nil, List.map_cons, List.map_nil,
            List.mem_singleton] at h
          obtain ⟨τ, hτ, heq⟩ := (hI.running t _ hrun hc).done hc
          exact ⟨τ, hseen hτ, h.trans heq⟩
      · refine hfinished text ?_
        simpa [showTexts, List.filter_append, hc] using htext
  | @acquire c k m rest outs hrun hfree =>
      refine hI.advance hseen rfl (fun h => absurd rfl h) ?_ hfinished
      intro r hr hc
      obtain rfl := Option.some.inj hr
      -- a `SHOW` takes no lock
      obtain ⟨printed, coming, _, hrest, _⟩ := hI.running t _ hrun hc
      cases coming <;> simp at hrest
  | @perform c o rest outs hrun =>
      have hchange : (o.exec s.store).1 ≠ s.store → ∀ u, midShow (s.threads u) = false := by
        intro hne
        exact hcalm.1 (by simp only [changesTable, hrun]; exact decide_eq_true hne)
      refine hI.advance hseen rfl hchange ?_ hfinished
      intro r hr hc
      obtain rfl := Option.some.inj hr
      obtain ⟨printed, coming, hall, hrest, hprinted⟩ := hI.running t _ hrun hc
      cases coming with
      | nil => exact absurd hrest (by simp)
      | cons i coming =>
          obtain ⟨ho, hcoming⟩ := List.cons.inj hrest
          obtain rfl := Instr.perform.inj ho
          refine ⟨printed ++ [i], coming, by simpa using hall, hcoming, Or.inr ?_⟩
          rcases hprinted with ⟨hp, houts⟩ | ⟨τ, hτ, houts, hsame⟩
          · -- the first bucket: the instant is this one
            simp only at houts
            subst hp houts
            refine ⟨s.store, hinstant (hcalm.2 ?_), rfl, fun _ => rfl⟩
            simp only [startsShow, hrun]
            exact hc
          · have hnow : s.store = τ := hsame (by simp)
            simp only at houts
            refine ⟨τ, hseen hτ, ?_, fun _ => hnow⟩
            show outs ++ [.shown (showNodes (s.store i))] = _
            rw [houts, hnow, List.map_append, List.map_singleton]
  | @release c k rest outs hrun =>
      refine hI.advance hseen rfl (fun h => absurd rfl h) ?_ hfinished
      intro r hr hc
      obtain rfl := Option.some.inj hr
      obtain ⟨printed, coming, _, hrest, _⟩ := hI.running t _ hrun hc
      cases coming <;> simp at hrest

/-! ## Snapshots -/

/-- **A `SHOW` prints one instant.** In every run whose steps are all calm, on any number of threads, the
    text of every finished `SHOW` is the contents the table had at some instant of the run at which no
    `WRITE` or `DELETE` was partly applied. -/
theorem show_consistent (table : Buckets) (todo : T → List WorkerCmd) (sched : List T)
    (s : WorkerState T) (hrun : run worker sched (State.init table todo) = some s)
    (hcalm : StepsMeet worker Calm sched (State.init table todo)) :
    ∀ t, ∀ text ∈ showTexts (s.threads t), ∃ pre u, pre <+: sched ∧
      run worker pre (State.init table todo) = some u ∧
      (∀ v, partlyApplied (u.threads v) = false) ∧ text = showTable u.store := by
  have hinv : ShowInv (instants table todo sched) s := by
    refine run_invariant_guarded (fun pre s => ShowInv (instants table todo pre) s) ?_
      (showInv_init _ table todo) hcalm hrun
    intro pre t u u' hpre hP hI hstep
    refine showInv_step hI (instants_mono (List.prefix_append pre [t])) hP (fun hnone => ?_) hstep
    exact ⟨pre, u, List.prefix_append pre [t], hpre, hnone, rfl⟩
  intro t text htext
  obtain ⟨τ, ⟨pre, u, hpre, hu, hnone, rfl⟩, heq⟩ := hinv.finished t text htext
  exact ⟨pre, u, hpre, hu, hnone, heq⟩

/-- A `SHOW` beside `WRITE [(a,1)(b,1)]`. -/
def showAndWrite : Fin 2 → List WorkerCmd := twoThreads [.cmdShow] [writeOnes [keyA, keyB]]

/-- The writer takes its locks, then the whole `SHOW` runs, then the writer goes on. -/
theorem show_consistent_before_write :
    ∃ s, run worker ([1, 1, 1, 1] ++ List.replicate 28 0 ++ List.replicate 6 1)
        (State.init createHashTable.table showAndWrite) = some s ∧
      ∀ t, ∀ text ∈ showTexts (s.threads t), ∃ pre u,
        pre <+: [1, 1, 1, 1] ++ List.replicate 28 0 ++ List.replicate 6 1 ∧
        run worker pre (State.init createHashTable.table showAndWrite) = some u ∧
        (∀ v, partlyApplied (u.threads v) = false) ∧ text = showTable u.store := by
  have hends : (run worker ([1, 1, 1, 1] ++ List.replicate 28 0 ++ List.replicate 6 1)
      (State.init createHashTable.table showAndWrite)).isSome = true := by
    decide +kernel
  have hcalm : StepsMeet worker Calm ([1, 1, 1, 1] ++ List.replicate 28 0 ++ List.replicate 6 1)
      (State.init createHashTable.table showAndWrite) := by
    decide +kernel
  obtain ⟨s, hrun⟩ := Option.isSome_iff_exists.mp hends
  exact ⟨s, hrun, show_consistent _ _ _ s hrun hcalm⟩

/-- The `SHOW` prints its first bucket, the writer runs from start to end, the `SHOW` goes on. -/
def writeBetweenBuckets : List (Fin 2) := [0, 0] ++ List.replicate 10 1 ++ List.replicate 26 0

/-- **A `SHOW` mixes two states.** It prints `b` as the writer left it and bucket 0 as it was before:
    at no instant of the run, with nothing partly applied, did the table have these contents. -/
theorem show_mixes_write :
    ∃ s, run worker writeBetweenBuckets (State.init createHashTable.table showAndWrite) = some s ∧
      ascii "(b, 1)\n" ∈ showTexts (s.threads 0) ∧
      ¬ ∃ pre u, pre <+: writeBetweenBuckets ∧
        run worker pre (State.init createHashTable.table showAndWrite) = some u ∧
        (∀ v, partlyApplied (u.threads v) = false) ∧ ascii "(b, 1)\n" = showTable u.store := by
  have hends : (run worker writeBetweenBuckets (State.init createHashTable.table showAndWrite)).any
      (fun s => decide (ascii "(b, 1)\n" ∈ showTexts (s.threads 0))) = true := by
    decide +kernel
  have hnever : ∀ pre ∈ writeBetweenBuckets.inits,
      (run worker pre (State.init createHashTable.table showAndWrite)).all
        (fun u => decide ((∀ v, partlyApplied (u.threads v) = false) →
          ascii "(b, 1)\n" ≠ showTable u.store)) = true := by
    decide +kernel
  obtain ⟨s, hrun, htext⟩ := (Option.any_eq_true _ _).mp hends
  refine ⟨s, hrun, of_decide_eq_true htext, ?_⟩
  rintro ⟨pre, u, hpre, hu, hnone, heq⟩
  have hall := hnever pre ((List.mem_inits pre _).mpr hpre)
  rw [hu] at hall
  exact of_decide_eq_true hall hnone heq

end Kvs.Server
