import Kvs.Correctness.Backups

/-!
# `Correctness.Reaping` — whether `main` reaps its last children and ends

A `fork` that fails takes the branch of the parent, which counts a child that does not exist. `surplus` is
by how much `active_backups` is ahead of the children, apart from what a thread in the middle of a
`BACKUP`, or `main` in the middle of its loop, still has to add or subtract. Only a failing `fork` changes
it (`surplus_step`), and each does by one. So `active_backups` is the number of children left when `main`
comes to its loop exactly when no `fork` has failed. Otherwise `main` waits for ever for children that are
not there (`reaping_iff`).
-/

namespace Kvs.Server

variable {T : Type} [DecidableEq T]

/-- The event is a `fork` that fails. -/
def BackupEvent.isForkFailure : BackupEvent T → Bool
  | .forkFails _ => true
  | _ => false

/-- How many forks fail in the run. -/
def forkFailures (events : List (BackupEvent T)) : Nat := events.countP BackupEvent.isForkFailure

/-- By how much the counter is ahead of the children. -/
def BackupState.surplus (s : BackupState T) : Int :=
  s.activeBackups - s.children - (s.holder.debt + s.main.debt)

/-- Once the children left have exited, `main`, with nobody else about, gets through its loop. -/
def ReapingEnds [Fintype T] (maxBackups : Int) (s : BackupState T) : Prop :=
  ∃ n s', Transition.run (stepBackup maxBackups)
    (List.replicate s.running .childExits ++ List.replicate n .main) s = some s' ∧ s'.main = .done

/-! ## The surplus -/

omit [DecidableEq T] in
/-- The surplus while a thread is in the mutex. -/
theorem BackupInv.surplus_inside {maxBackups : Int} {s : BackupState T} (h : BackupInv maxBackups s)
    {t : T} {pc : BackupPc} (hpc : s.threads t = pc) (ht : pc.inside = true) :
    s.surplus = s.activeBackups - s.children - pc.debt := by
  obtain ⟨hmutex, hmain, -, -⟩ := h.inside hpc ht
  unfold BackupState.surplus
  rw [BackupState.holder_held hmutex, hpc, hmain]
  simp [MainPc.debt]

/-- The surplus once the thread in the mutex has gone on in it. -/
theorem BackupInv.surplus_goto {maxBackups : Int} {s : BackupState T} (h : BackupInv maxBackups s)
    {t : T} (ht : (s.threads t).inside = true) {pc : BackupPc} (s' : BackupState T)
    (hthreads : s'.threads = Function.update s.threads t pc)
    (hmutex : s'.backupMutex = s.backupMutex) (hmain : s'.main = s.main) :
    s'.surplus = s'.activeBackups - s'.children - pc.debt := by
  obtain ⟨-, hjoin, -, -⟩ := h.inside rfl ht
  unfold BackupState.surplus
  rw [h.holder_goto ht hthreads hmutex, hmain, hjoin]
  simp [MainPc.debt]

theorem surplus_stepThread {maxBackups : Int} {s s' : BackupState T} {t : T}
    (h : BackupInv maxBackups s) (hs : ThreadStep maxBackups s t s') : s'.surplus = s.surplus := by
  cases hs with
  | lock hpc hfree =>
      unfold BackupState.surplus
      rw [BackupState.holder_free hfree, s.holder_lock t]
      rfl
  | @pass pc pc' hpc hin hin' hdebt hdebt' hroom =>
      have hafter : (s.goto t pc').surplus = s.activeBackups - s.children - pc'.debt :=
        h.surplus_goto (hpc ▸ hin) (s.goto t pc') rfl rfl rfl
      rw [hafter, h.surplus_inside hpc hin, hdebt, hdebt']
  | @reap exited hpc hchild =>
      -- the child is gone, and its subtraction is owed
      have hafter := h.surplus_goto (hpc ▸ rfl)
        (BackupState.goto { s with exited := exited } t .decrement) rfl rfl rfl
      rw [hafter, h.surplus_inside hpc rfl]
      show s.activeBackups - (BackupState.children { s with exited := exited }) - 1
        = s.activeBackups - s.children - 0
      omega
  | decrement hpc =>
      have hafter := h.surplus_goto (hpc ▸ rfl)
        { s.goto t (.rdlock 0) with activeBackups := s.activeBackups - 1 } rfl rfl rfl
      rw [hafter, h.surplus_inside hpc rfl]
      show s.activeBackups - 1 - s.children - 0 = s.activeBackups - s.children - 1
      omega
  | fork hpc =>
      have hafter := h.surplus_goto (hpc ▸ rfl)
        { s.goto t .increment with running := s.running + 1 } rfl rfl rfl
      rw [hafter, h.surplus_inside hpc rfl]
      show s.activeBackups - ((s.running + 1 + s.exited : Nat) : Int) - -1
        = s.activeBackups - ((s.running + s.exited : Nat) : Int) - 0
      omega
  | increment hpc =>
      have hafter := h.surplus_goto (hpc ▸ rfl)
        { s.goto t (.unlock 0) with activeBackups := s.activeBackups + 1 } rfl rfl rfl
      rw [hafter, h.surplus_inside hpc rfl]
      show s.activeBackups + 1 - s.children - 0 = s.activeBackups - s.children - -1
      omega
  | unlock hpc =>
      have hbefore : s.surplus = s.activeBackups - s.children - 0 := h.surplus_inside hpc rfl
      obtain ⟨-, hjoin, -, -⟩ := h.inside hpc rfl
      rw [hbefore]
      show s.activeBackups - s.children - (0 + s.main.debt) = _
      rw [hjoin]
      rfl

/-- A thread that has no job left was outside of the mutex. -/
theorem BackupInv.surplus_ends {maxBackups : Int} {s : BackupState T} (h : BackupInv maxBackups s)
    {t : T} (hpc : s.threads t = .idle) : (s.goto t .ended).surplus = s.surplus := by
  unfold BackupState.surplus
  rw [h.holder_ends hpc]
  rfl

omit [DecidableEq T] in
/-- `main` reaps a child and owes its subtraction, or goes on as it is. -/
theorem surplus_stepMain {s s' : BackupState T} (hs : MainStep s s') : s'.surplus = s.surplus := by
  cases hs with
  | join hpc hended =>
      unfold BackupState.surplus
      rw [hpc]
      rfl
  | pass hpc hdebt hdebt' hdone =>
      unfold BackupState.surplus
      rw [hdebt, hdebt']
      rfl
  | @reap exited hpc hchild =>
      show s.activeBackups - (BackupState.children { s with exited := exited })
        - (s.holder.debt + 1) = s.activeBackups - s.children - (s.holder.debt + s.main.debt)
      have hdebt : s.main.debt = 0 := by rw [hpc]; rfl
      rw [hdebt]
      omega
  | decrement hpc =>
      show s.activeBackups - 1 - s.children - (s.holder.debt + 0)
        = s.activeBackups - s.children - (s.holder.debt + s.main.debt)
      have hdebt : s.main.debt = 1 := by rw [hpc]; rfl
      rw [hdebt]
      omega

/-- **Only a failing `fork` changes the surplus**, and by one. -/
theorem surplus_step [Fintype T] {maxBackups : Int} {s s' : BackupState T} {e : BackupEvent T}
    (h : BackupInv maxBackups s) (hs : stepBackup maxBackups s e = some s') :
    s'.surplus = s.surplus + if e.isForkFailure then 1 else 0 := by
  cases e with
  | next t => exact (surplus_stepThread h (threadStep_of_stepThread hs)).trans (Int.add_zero _).symm
  | forkFails t =>
      simp only [stepBackup, Option.ite_none_right_eq_some, Option.some.injEq] at hs
      obtain ⟨hpc, rfl⟩ := hs
      have hafter := h.surplus_goto (hpc ▸ rfl) (s.goto t .increment) rfl rfl rfl
      rw [hafter, h.surplus_inside hpc rfl]
      show s.activeBackups - s.children - -1 = s.activeBackups - s.children - 0 + 1
      omega
  | ends t =>
      simp only [stepBackup, Option.ite_none_right_eq_some, Option.some.injEq] at hs
      obtain ⟨hpc, rfl⟩ := hs
      exact (h.surplus_ends hpc).trans (Int.add_zero _).symm
  | childExits =>
      simp only [stepBackup, Option.ite_none_right_eq_some, Option.some.injEq] at hs
      obtain ⟨hrunning, rfl⟩ := hs
      have hchildren : s.running - 1 + (s.exited + 1) = s.running + s.exited := by omega
      show s.activeBackups - ((s.running - 1 + (s.exited + 1) : Nat) : Int)
        - (s.holder.debt + s.main.debt) = s.surplus + 0
      rw [hchildren, Int.add_zero]
      rfl
  | main => exact (surplus_stepMain (mainStep_of_stepMain hs)).trans (Int.add_zero _).symm

/-- The surplus of a run: one for each `fork` that failed. -/
theorem surplus_run [Fintype T] {maxBackups : Int} {events : List (BackupEvent T)} {s s' : BackupState T}
    (h : BackupInv maxBackups s) (hrun : Transition.run (stepBackup maxBackups) events s = some s') :
    s'.surplus = s.surplus + forkFailures events := by
  induction events generalizing s with
  | nil =>
      obtain rfl := Option.some.inj hrun
      exact (Int.add_zero _).symm
  | cons e events ih =>
      obtain ⟨u, hu, hrest⟩ := Transition.run_cons_eq_some.mp hrun
      rw [ih (backupInv_step s e u h hu) hrest, surplus_step h hu, forkFailures, forkFailures,
        List.countP_cons]
      push_cast
      split_ifs
      · omega
      · omega

/-! ## The loop of `main` -/

omit [DecidableEq T] in
/-- At the loop of `main` the surplus is all that sets the counter apart from the children. -/
theorem BackupInv.surplus_loop {maxBackups : Int} {s : BackupState T} (h : BackupInv maxBackups s)
    (hmain : s.main = .loop) : s.surplus = s.activeBackups - s.children := by
  have hfree := h.mutex_free (by simp [hmain])
  unfold BackupState.surplus
  rw [BackupState.holder_free hfree, hmain]
  simp [BackupPc.debt, MainPc.debt]

/-- The children that are left exit. -/
theorem run_childExits [Fintype T] (maxBackups : Int) (n : Nat) {s : BackupState T} (h : n ≤ s.running) :
    Transition.run (stepBackup maxBackups) (List.replicate n .childExits) s
      = some { s with running := s.running - n, exited := s.exited + n } := by
  induction n generalizing s with
  | zero => rfl
  | succ n ih =>
      have hrunning : 0 < s.running := by omega
      have hle : n ≤ s.running - 1 := by omega
      have hless : s.running - 1 - n = s.running - (n + 1) := by omega
      have hmore : s.exited + 1 + n = s.exited + (n + 1) := by omega
      have hrest := @ih { s with running := s.running - 1, exited := s.exited + 1 } hle
      simp only [hless, hmore] at hrest
      rw [List.replicate_succ, Transition.run]
      simp only [stepBackup, if_pos hrunning, Option.bind_some]
      exact hrest

/-- One way round the loop: a child that has exited is reaped and subtracted. -/
theorem run_reap [Fintype T] (maxBackups : Int) {s : BackupState T} (hmain : s.main = .loop)
    (hactive : 0 < s.activeBackups) (hexited : 0 < s.exited) :
    Transition.run (stepBackup maxBackups) [.main, .main, .main] s
      = some { s with exited := s.exited - 1, activeBackups := s.activeBackups - 1 } := by
  simp [Transition.run, stepBackup, stepMain, hmain, hactive, BackupState.waitNull, hexited]

/-- With as many children that have exited as are counted, and no others, `main` gets to its end. -/
theorem run_reapAll [Fintype T] (maxBackups : Int) (n : Nat) {s : BackupState T}
    (hmain : s.main = .loop) (hrunning : s.running = 0) (hexited : s.exited = n)
    (hactive : s.activeBackups = n) :
    ∃ k s', Transition.run (stepBackup maxBackups) (List.replicate k .main) s = some s' ∧
      s'.main = .done := by
  induction n generalizing s with
  | zero =>
      refine ⟨1, { s with main := .done }, ?_, rfl⟩
      simp [Transition.run, stepBackup, stepMain, hmain, hactive]
  | succ n ih =>
      have hreap := run_reap maxBackups hmain (by omega) (by omega)
      have hexited' : s.exited - 1 = n := by omega
      have hactive' : s.activeBackups - 1 = n := by omega
      obtain ⟨k, s', hrest, hdone⟩ :=
        @ih { s with exited := s.exited - 1, activeBackups := s.activeBackups - 1 } hmain hrunning
          hexited' hactive'
      refine ⟨3 + k, s', ?_, hdone⟩
      rw [List.replicate_add, Transition.run_append, List.replicate_succ, List.replicate_succ,
        List.replicate_succ, List.replicate_zero, hreap]
      exact hrest

/-- `main` moves only by its own steps. -/
theorem ThreadStep.main_eq {maxBackups : Int} {s s' : BackupState T} {t : T}
    (hs : ThreadStep maxBackups s t s') : s'.main = s.main := by
  cases hs <;> rfl

omit [DecidableEq T] in
/-- `main` ends in its loop, when nothing is counted. -/
theorem MainStep.done {s s' : BackupState T} (hs : MainStep s s') (hdone : s'.main = .done) :
    s.main = .loop ∧ s.activeBackups ≤ 0 := by
  cases hs with
  | join hpc hended => exact absurd hdone (by simp)
  | pass hpc hdebt hdebt' hends => exact hends hdone
  | reap hpc hchild => exact absurd hdone (by simp)
  | decrement hpc => exact absurd hdone (by simp)

/-- With the counter ahead, no step of a run takes `main` to its end: at its loop the counter is
    positive. -/
theorem main_ne_done [Fintype T] {maxBackups : Int} {events : List (BackupEvent T)}
    {s s' : BackupState T} (h : BackupInv maxBackups s) (hsurplus : 0 < s.surplus)
    (hmain : s.main ≠ .done) (hrun : Transition.run (stepBackup maxBackups) events s = some s') :
    s'.main ≠ .done := by
  have hinv := @Transition.run_invariant _ _ (stepBackup maxBackups)
    (fun s => BackupInv maxBackups s ∧ 0 < s.surplus ∧ s.main ≠ .done) ?_ events s s'
    ⟨h, hsurplus, hmain⟩ hrun
  · exact hinv.2.2
  · rintro u e u' ⟨hu, hpos, hne⟩ hstep
    have hsurplus' := surplus_step hu hstep
    refine ⟨backupInv_step u e u' hu hstep, ?_, ?_⟩
    · rw [hsurplus']
      split_ifs
      · omega
      · omega
    · cases e with
      | next t => exact (threadStep_of_stepThread hstep).main_eq ▸ hne
      | forkFails t =>
          simp only [stepBackup, Option.ite_none_right_eq_some, Option.some.injEq] at hstep
          obtain ⟨-, rfl⟩ := hstep
          exact hne
      | ends t =>
          simp only [stepBackup, Option.ite_none_right_eq_some, Option.some.injEq] at hstep
          obtain ⟨-, rfl⟩ := hstep
          exact hne
      | childExits =>
          simp only [stepBackup, Option.ite_none_right_eq_some, Option.some.injEq] at hstep
          obtain ⟨-, rfl⟩ := hstep
          exact hne
      | main =>
          -- only the loop leads to the end, and only with nothing counted
          intro hdone
          obtain ⟨hloop, hzero⟩ := (mainStep_of_stepMain hstep).done hdone
          have hcount := hu.surplus_loop hloop
          omega

theorem reapingEnds_of_counted [Fintype T] {maxBackups : Int} {s : BackupState T}
    (hmain : s.main = .loop) (hcounted : s.activeBackups = s.children) : ReapingEnds maxBackups s := by
  have hexit := run_childExits maxBackups s.running (Nat.le_refl s.running)
  rw [Nat.sub_self] at hexit
  obtain ⟨n, s', hrest, hdone⟩ := @run_reapAll _ _ _ maxBackups (s.exited + s.running)
    { s with running := 0, exited := s.exited + s.running } hmain rfl rfl
    (hcounted.trans (congrArg Nat.cast (Nat.add_comm s.running s.exited)))
  refine ⟨n, s', ?_, hdone⟩
  rw [Transition.run_append, hexit]
  exact hrest

/-- **When `main` reaps exactly its children.** In every run that brings `main` to its last loop,
    `active_backups` is the number of children not yet reaped exactly when no `fork` of the run failed,
    and exactly then the loop ends once they have exited. -/
theorem reaping_iff [Fintype T] (maxBackups : Int) (events : List (BackupEvent T)) (s : BackupState T)
    (hrun : Transition.run (stepBackup maxBackups) events .init = some s) (hmain : s.main = .loop) :
    (s.activeBackups = s.children ↔ ∀ e ∈ events, e.isForkFailure = false) ∧
      (ReapingEnds maxBackups s ↔ ∀ e ∈ events, e.isForkFailure = false) := by
  have hinv := Transition.run_invariant (BackupInv maxBackups) backupInv_step (backupInv_init maxBackups)
    hrun
  have hsurplus : s.surplus = forkFailures events := by
    have hinit : (BackupState.init (T := T)).surplus = 0 := by
      simp [BackupState.surplus, BackupState.init, BackupState.children, BackupState.holder,
        BackupPc.debt, MainPc.debt]
    rw [surplus_run (backupInv_init maxBackups) hrun, hinit, Int.zero_add]
  have hcount : (∀ e ∈ events, e.isForkFailure = false) ↔ forkFailures events = 0 := by
    rw [forkFailures, List.countP_eq_zero]
    simp
  have hloop := hinv.surplus_loop hmain
  have hequal : s.activeBackups = s.children ↔ forkFailures events = 0 := by omega
  rw [hcount]
  refine ⟨hequal, ?_⟩
  constructor
  · rintro ⟨n, s', hrest, hdone⟩
    by_contra hfailed
    exact main_ne_done hinv (by omega) (by simp [hmain]) hrest hdone
  · intro hnone
    exact reapingEnds_of_counted hmain (hequal.mpr hnone)

/-- One thread and one `BACKUP`, up to the loop of `main`, its `fork` succeeding or failing. -/
def oneBackup (fork : BackupEvent Unit) : List (BackupEvent Unit) :=
  List.replicate 28 (.next ()) ++ fork :: List.replicate 28 (.next ()) ++ [.ends (), .main]

theorem oneBackup_run (fork : BackupEvent Unit) (hfork : fork = .next () ∨ fork = .forkFails ()) :
    ((Transition.run (stepBackup 1) (oneBackup fork) .init).map
      (fun s => (s.main, s.activeBackups, s.children))) =
        some (.loop, 1, if fork.isForkFailure then 0 else 1) := by
  rcases hfork with rfl | rfl
  · decide +kernel
  · decide +kernel

theorem reaping_oneBackup :
    ∃ s, Transition.run (stepBackup 1) (oneBackup (.next ())) .init = some s ∧
      s.activeBackups = s.children ∧ ReapingEnds 1 s := by
  obtain ⟨s, hrun, hs⟩ := Option.map_eq_some_iff.mp (oneBackup_run (.next ()) (Or.inl rfl))
  have hmain : s.main = .loop := congrArg Prod.fst hs
  have hnone : ∀ e ∈ oneBackup (.next ()), e.isForkFailure = false := by decide +kernel
  obtain ⟨hcounted, hends⟩ := reaping_iff 1 _ s hrun hmain
  exact ⟨s, hrun, hcounted.mpr hnone, hends.mpr hnone⟩

/-- **After a `fork` that fails** a child is counted that does not exist, and `main` never ends. -/
theorem failedFork_counted :
    ∃ s, Transition.run (stepBackup 1) (oneBackup (.forkFails ())) .init = some s ∧ s.main = .loop ∧
      s.activeBackups ≠ s.children ∧ ¬ ReapingEnds 1 s := by
  obtain ⟨s, hrun, hs⟩ := Option.map_eq_some_iff.mp (oneBackup_run (.forkFails ()) (Or.inr rfl))
  have hmain : s.main = .loop := congrArg Prod.fst hs
  have hactive : s.activeBackups = 1 := congrArg (fun r => r.2.1) hs
  have hchildren : s.children = 0 := congrArg (fun r => r.2.2) hs
  have hinv := Transition.run_invariant (BackupInv 1) backupInv_step (backupInv_init 1) hrun
  have hloop := hinv.surplus_loop hmain
  refine ⟨s, hrun, hmain, by omega, ?_⟩
  rintro ⟨n, s', hrest, hdone⟩
  exact main_ne_done hinv (by omega) (by simp [hmain]) hrest hdone

end Kvs.Server
