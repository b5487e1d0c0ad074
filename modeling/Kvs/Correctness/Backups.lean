import Kvs.Lib.Mutex
import Kvs.Server.Backup

/-!
# `Correctness.Backups` — the limit on the children that write backups

Whatever the order of the steps, the forks that fail and the times at which children exit: no more than
`max_backups` children are waiting to be reaped (or one, where the limit is lower), and
`active_backups` is no less than their number whenever the mutex is free. The invariant weighs both
bounds by the place of the thread in the mutex: what it still has to subtract from or add to the counter
(`debt`), and the child it is about to fork (`room`).
-/

namespace Kvs.Server

/-- The thread holds `backup_mutex`. -/
def BackupPc.inside : BackupPc → Bool
  | .idle => false
  | .ended => false
  | _ => true

/-- By how much the counter is behind the children: one reaped and not subtracted, one forked and not
    added. -/
def BackupPc.debt : BackupPc → Int
  | .decrement => 1
  | .increment => -1
  | _ => 0

def MainPc.debt : MainPc → Int
  | .decrement => 1
  | _ => 0

/-- The limit has been enforced for a child that is not forked yet. -/
def BackupPc.room : BackupPc → Int
  | .decrement => 1
  | .rdlock _ => 1
  | .fork => 1
  | _ => 0

variable {T : Type} [DecidableEq T]

/-- The thread in the mutex, or a place outside it. -/
def BackupState.holder (s : BackupState T) : BackupPc :=
  match s.backupMutex with
  | none => .idle
  | some t => s.threads t

/-- The invariant of the runs. -/
structure BackupInv (maxBackups : Int) (s : BackupState T) : Prop where
  mutex : ∀ t, (s.threads t).inside = true ↔ s.backupMutex = some t
  joined : s.main ≠ .join → ∀ t, s.threads t = .ended
  counted : s.children + (s.holder.debt + s.main.debt) ≤ s.activeBackups
  limited : s.children + s.holder.room ≤ max 1 maxBackups

omit [DecidableEq T] in
theorem backupInv_init (maxBackups : Int) : BackupInv maxBackups (BackupState.init (T := T)) where
  mutex _ := by simp [BackupState.init, BackupPc.inside]
  joined h := absurd rfl h
  counted := by simp [BackupState.init, BackupState.children, BackupState.holder, BackupPc.debt,
    MainPc.debt]
  limited := by simp [BackupState.init, BackupState.children, BackupState.holder, BackupPc.room]

/-! ## The thread in the mutex -/

omit [DecidableEq T] in
theorem BackupState.holder_free {s : BackupState T} (hfree : s.backupMutex = none) :
    s.holder = .idle := by
  rw [BackupState.holder, hfree]

omit [DecidableEq T] in
theorem BackupState.holder_held {s : BackupState T} {t : T} (hmutex : s.backupMutex = some t) :
    s.holder = s.threads t := by
  rw [BackupState.holder, hmutex]

omit [DecidableEq T] in
theorem BackupInv.exclusive {maxBackups : Int} {s : BackupState T} (h : BackupInv maxBackups s) :
    Mutex.Exclusive BackupPc.inside s.threads s.backupMutex := h.mutex

omit [DecidableEq T] in
/-- What holds when a thread in the mutex makes a step. -/
theorem BackupInv.inside {maxBackups : Int} {s : BackupState T} (h : BackupInv maxBackups s) {t : T}
    {pc : BackupPc} (hpc : s.threads t = pc) (ht : pc.inside = true) :
    s.backupMutex = some t ∧ s.main = .join ∧ s.children + pc.debt ≤ s.activeBackups ∧
      s.children + pc.room ≤ max 1 maxBackups := by
  have hmutex : s.backupMutex = some t := (h.mutex t).mp (hpc ▸ ht)
  have hholder : s.holder = pc := (BackupState.holder_held hmutex).trans hpc
  have hmain : s.main = .join := by
    by_contra hne
    rw [← hpc, h.joined hne t] at ht
    exact absurd ht (by simp [BackupPc.inside])
  have hcounted := h.counted
  rw [hholder, hmain] at hcounted
  refine ⟨hmutex, hmain, by simpa [MainPc.debt] using hcounted, ?_⟩
  rw [← hholder]
  exact h.limited

/-- The thread is still the one in the mutex after a step in it. -/
theorem BackupInv.holder_goto {maxBackups : Int} {s s' : BackupState T} (h : BackupInv maxBackups s)
    {t : T} (ht : (s.threads t).inside = true) {pc : BackupPc}
    (hthreads : s'.threads = Function.update s.threads t pc)
    (hmutex : s'.backupMutex = s.backupMutex) : s'.holder = pc := by
  obtain ⟨hheld, -⟩ := h.inside rfl ht
  rw [BackupState.holder_held (hmutex.trans hheld), hthreads, Function.update_self]

/-- A thread in the mutex goes on in it. -/
theorem BackupInv.goto {maxBackups : Int} {s s' : BackupState T} (h : BackupInv maxBackups s) {t : T}
    (ht : (s.threads t).inside = true) {pc : BackupPc} (hpc : pc.inside = true)
    (hthreads : s'.threads = Function.update s.threads t pc) (hmutex : s'.backupMutex = s.backupMutex)
    (hmain : s'.main = s.main) (hcounted : s'.children + pc.debt ≤ s'.activeBackups)
    (hlimited : s'.children + pc.room ≤ max 1 maxBackups) : BackupInv maxBackups s' := by
  obtain ⟨-, hjoin, -, -⟩ := h.inside rfl ht
  have hholder := h.holder_goto ht hthreads hmutex
  refine ⟨?_, fun hne => absurd (hmain.trans hjoin) hne, ?_, hholder ▸ hlimited⟩
  · rw [hthreads, hmutex]
    exact h.exclusive.move (hpc.trans ht.symm)
  · rw [hholder, hmain, hjoin]
    simpa [MainPc.debt] using hcounted

theorem BackupState.holder_lock (s : BackupState T) (t : T) :
    BackupState.holder { s.goto t .limit with backupMutex := some t } = .limit :=
  Function.update_self _ _ _

/-- A thread outside of the mutex is not the one in it. -/
theorem BackupInv.holder_ends {maxBackups : Int} {s : BackupState T} (h : BackupInv maxBackups s)
    {t : T} (hpc : s.threads t = .idle) : (s.goto t .ended).holder = s.holder := by
  cases hmutex : s.backupMutex with
  | none => exact (BackupState.holder_free hmutex).symm ▸ BackupState.holder_free hmutex
  | some u =>
      have hu : u ≠ t := by
        rintro rfl
        have hin := (h.mutex u).mpr hmutex
        rw [hpc] at hin
        exact absurd hin (by simp [BackupPc.inside])
      have hafter : (s.goto t .ended).holder = Function.update s.threads t .ended u :=
        BackupState.holder_held (s := s.goto t .ended) hmutex
      rw [hafter, BackupState.holder_held hmutex, Function.update_of_ne hu]

/-! ## What a thread can do -/

omit [DecidableEq T] in
/-- `wait` has reaped a child, which `active_backups` still counts. -/
theorem waitNull_reaped {s s' : BackupState T} (h : s.waitNull = some (s', true)) :
    (∃ exited, s' = { s with exited := exited }) ∧ s'.children + 1 = s.children := by
  unfold BackupState.waitNull at h
  split at h
  · rename_i hexited
    obtain ⟨rfl, _⟩ := Prod.mk.inj (Option.some.inj h)
    refine ⟨⟨_, rfl⟩, ?_⟩
    show s.running + (s.exited - 1) + 1 = s.running + s.exited
    omega
  · split at h
    · exact absurd h (by simp)
    · exact absurd h (by simp)

omit [DecidableEq T] in
/-- `wait` fails when there is no child. -/
theorem waitNull_failed {s s' : BackupState T} (h : s.waitNull = some (s', false)) :
    s' = s ∧ s.children = 0 := by
  unfold BackupState.waitNull at h
  split at h
  · exact absurd h (by simp)
  · split at h
    · exact absurd h (by simp)
    · rename_i hexited hrunning
      obtain ⟨rfl, _⟩ := Prod.mk.inj (Option.some.inj h)
      refine ⟨rfl, ?_⟩
      show s.running + s.exited = 0
      omega

/-- The steps of a thread. -/
inductive ThreadStep (maxBackups : Int) (s : BackupState T) (t : T) : BackupState T → Prop where
  | lock (hpc : s.threads t = .idle) (hfree : s.backupMutex = none) :
      ThreadStep maxBackups s t { s.goto t .limit with backupMutex := some t }
  /-- On in the mutex, with the counter and the children as they are. -/
  | pass {pc pc' : BackupPc} (hpc : s.threads t = pc) (hin : pc.inside = true)
      (hin' : pc'.inside = true) (hdebt : pc.debt = 0) (hdebt' : pc'.debt = 0)
      (hroom : pc'.room = pc.room ∨ s.activeBackups < maxBackups ∨ s.children = 0) :
      ThreadStep maxBackups s t (s.goto t pc')
  | reap {exited : Nat} (hpc : s.threads t = .wait)
      (hchild : BackupState.children { s with exited := exited } + 1 = s.children) :
      ThreadStep maxBackups s t (BackupState.goto { s with exited := exited } t .decrement)
  | decrement (hpc : s.threads t = .decrement) :
      ThreadStep maxBackups s t { s.goto t (.rdlock 0) with activeBackups := s.activeBackups - 1 }
  | fork (hpc : s.threads t = .fork) :
      ThreadStep maxBackups s t { s.goto t .increment with running := s.running + 1 }
  | increment (hpc : s.threads t = .increment) :
      ThreadStep maxBackups s t { s.goto t (.unlock 0) with activeBackups := s.activeBackups + 1 }
  | unlock (hpc : s.threads t = .unlockMutex) :
      ThreadStep maxBackups s t { s.goto t .idle with backupMutex := none }

theorem threadStep_of_stepThread {maxBackups : Int} {s s' : BackupState T} {t : T}
    (hs : stepThread maxBackups s t = some s') : ThreadStep maxBackups s t s' := by
  unfold stepThread at hs
  cases hpc : s.threads t with
  | idle =>
      rw [hpc] at hs
      simp only [Option.ite_none_right_eq_some, Option.some.injEq] at hs
      obtain ⟨hfree, rfl⟩ := hs
      exact .lock hpc hfree
  | limit =>
      rw [hpc] at hs
      obtain rfl := Option.some.inj hs
      by_cases hfull : s.activeBackups ≥ maxBackups
      · rw [if_pos hfull]
        exact .pass hpc rfl rfl rfl rfl (Or.inl rfl)
      · rw [if_neg hfull]
        exact .pass hpc rfl rfl rfl rfl (Or.inr (Or.inl (Int.not_le.mp hfull)))
  | wait =>
      rw [hpc] at hs
      cases hwait : s.waitNull with
      | none =>
          rw [hwait] at hs
          exact absurd hs (by simp)
      | some r =>
          obtain ⟨s₁, reaped⟩ := r
          rw [hwait] at hs
          cases reaped with
          | true =>
              obtain rfl := Option.some.inj hs
              obtain ⟨⟨exited, rfl⟩, hchild⟩ := waitNull_reaped hwait
              exact .reap hpc hchild
          | false =>
              obtain rfl := Option.some.inj hs
              obtain ⟨rfl, hnone⟩ := waitNull_failed hwait
              exact .pass hpc rfl rfl rfl rfl (Or.inr (Or.inr hnone))
  | decrement =>
      rw [hpc] at hs
      obtain rfl := Option.some.inj hs
      exact .decrement hpc
  | rdlock i =>
      rw [hpc] at hs
      obtain rfl := Option.some.inj hs
      by_cases hi : i + 1 < TABLE_SIZE
      · rw [if_pos hi]
        exact .pass hpc rfl rfl rfl rfl (Or.inl rfl)
      · rw [if_neg hi]
        exact .pass hpc rfl rfl rfl rfl (Or.inl rfl)
  | fork =>
      rw [hpc] at hs
      obtain rfl := Option.some.inj hs
      exact .fork hpc
  | increment =>
      rw [hpc] at hs
      simp only [Option.ite_none_right_eq_some, Option.some.injEq] at hs
      obtain ⟨-, rfl⟩ := hs
      exact .increment hpc
  | unlock i =>
      rw [hpc] at hs
      obtain rfl := Option.some.inj hs
      by_cases hi : i + 1 < TABLE_SIZE
      · rw [if_pos hi]
        exact .pass hpc rfl rfl rfl rfl (Or.inl rfl)
      · rw [if_neg hi]
        exact .pass hpc rfl rfl rfl rfl (Or.inl rfl)
  | unlockMutex =>
      rw [hpc] at hs
      obtain rfl := Option.some.inj hs
      exact .unlock hpc
  | ended =>
      rw [hpc] at hs
      exact absurd hs (by simp)

theorem BackupPc.room_le_one (pc : BackupPc) : pc.room ≤ 1 := by
  cases pc <;> simp [BackupPc.room]

/-! ## Its steps keep the invariant -/

/-- A thread in the mutex goes on without touching the counter or the children: there is room for the
    child to come below the limit, or with no child left. -/
theorem BackupInv.pass {maxBackups : Int} {s : BackupState T} (h : BackupInv maxBackups s) {t : T}
    {pc pc' : BackupPc} (hpc : s.threads t = pc) (hin : pc.inside = true) (hin' : pc'.inside = true)
    (hdebt : pc.debt = 0) (hdebt' : pc'.debt = 0)
    (hroom : pc'.room = pc.room ∨ s.activeBackups < maxBackups ∨ s.children = 0) :
    BackupInv maxBackups (s.goto t pc') := by
  obtain ⟨-, -, hcounted, hlimited⟩ := h.inside hpc hin
  rw [hdebt] at hcounted
  refine h.goto (by rw [hpc, hin]) hin' rfl rfl rfl ?_ ?_
  · rw [hdebt']
    exact hcounted
  · show (s.children : Int) + pc'.room ≤ max 1 maxBackups
    have hone := pc'.room_le_one
    rcases hroom with hsame | hbelow | hnone
    · rw [hsame]
      exact hlimited
    · omega
    · omega

/-- A thread takes the mutex. -/
theorem BackupInv.lock {maxBackups : Int} {s : BackupState T} (h : BackupInv maxBackups s) {t : T}
    (hpc : s.threads t = .idle) (hfree : s.backupMutex = none) :
    BackupInv maxBackups { s.goto t .limit with backupMutex := some t } := by
  have hbefore := BackupState.holder_free hfree
  have hholder := s.holder_lock t
  have hcounted := h.counted
  have hlimited := h.limited
  rw [hbefore] at hcounted hlimited
  refine ⟨h.exclusive.lock hfree t rfl, ?_, ?_, ?_⟩
  · intro hne
    rw [h.joined hne t] at hpc
    exact absurd hpc (by simp)
  · rw [hholder]
    exact hcounted
  · rw [hholder]
    exact hlimited

/-- A thread gives the mutex back. -/
theorem BackupInv.unlock {maxBackups : Int} {s : BackupState T} (h : BackupInv maxBackups s) {t : T}
    (hpc : s.threads t = .unlockMutex) :
    BackupInv maxBackups { s.goto t .idle with backupMutex := none } := by
  obtain ⟨_, hjoin, hcounted, hlimited⟩ := h.inside hpc rfl
  refine ⟨h.exclusive.unlock (hpc ▸ rfl) rfl, fun hne => absurd hjoin hne, ?_, hlimited⟩
  show (s.children : Int) + (0 + s.main.debt) ≤ s.activeBackups
  rw [hjoin]
  exact hcounted

theorem backupInv_stepThread {maxBackups : Int} {s s' : BackupState T} {t : T}
    (h : BackupInv maxBackups s) (hs : ThreadStep maxBackups s t s') : BackupInv maxBackups s' := by
  cases hs with
  | lock hpc hfree => exact h.lock hpc hfree
  | pass hpc hin hin' hdebt hdebt' hroom => exact h.pass hpc hin hin' hdebt hdebt' hroom
  | @reap exited hpc hchild =>
      obtain ⟨-, -, hcounted, hlimited⟩ := h.inside hpc rfl
      have hdebt : (s.children : Int) + 0 ≤ s.activeBackups := hcounted
      have hroom : (s.children : Int) + 0 ≤ max 1 maxBackups := hlimited
      refine h.goto (hpc ▸ rfl) rfl rfl rfl rfl ?_ ?_
      · show (BackupState.children { s with exited := exited } : Int) + 1 ≤ s.activeBackups
        omega
      · show (BackupState.children { s with exited := exited } : Int) + 1 ≤ max 1 maxBackups
        omega
  | decrement hpc =>
      obtain ⟨-, -, hcounted, hlimited⟩ := h.inside hpc rfl
      -- the child that was reaped is subtracted at last
      refine h.goto (hpc ▸ rfl) rfl rfl rfl rfl ?_ hlimited
      show (s.children : Int) + 0 ≤ s.activeBackups - 1
      have hdebt : (s.children : Int) + 1 ≤ s.activeBackups := hcounted
      omega
  | fork hpc =>
      obtain ⟨-, -, hcounted, hlimited⟩ := h.inside hpc rfl
      have hdebt : (s.children : Int) + 0 ≤ s.activeBackups := hcounted
      have hroom : (s.children : Int) + 1 ≤ max 1 maxBackups := hlimited
      -- the child takes the room kept for it, and the counter is one behind until it is incremented
      have hchild : ((s.running + 1 + s.exited : Nat) : Int) = s.children + 1 := by
        unfold BackupState.children
        omega
      refine h.goto (hpc ▸ rfl) rfl rfl rfl rfl ?_ ?_
      · show ((s.running + 1 + s.exited : Nat) : Int) + -1 ≤ s.activeBackups
        omega
      · show ((s.running + 1 + s.exited : Nat) : Int) + 0 ≤ max 1 maxBackups
        omega
  | increment hpc =>
      obtain ⟨-, -, hcounted, hlimited⟩ := h.inside hpc rfl
      refine h.goto (hpc ▸ rfl) rfl rfl rfl rfl ?_ hlimited
      show (s.children : Int) + 0 ≤ s.activeBackups + 1
      have hdebt : (s.children : Int) + -1 ≤ s.activeBackups := hcounted
      omega
  | unlock hpc => exact h.unlock hpc

/-- A thread has no job left. -/
theorem BackupInv.ends {maxBackups : Int} {s : BackupState T} (h : BackupInv maxBackups s) {t : T}
    (hpc : s.threads t = .idle) : BackupInv maxBackups (s.goto t .ended) := by
  have hholder := h.holder_ends hpc
  refine ⟨h.exclusive.move (hpc ▸ rfl), ?_, hholder ▸ h.counted, hholder ▸ h.limited⟩
  intro hne u
  show Function.update s.threads t .ended u = .ended
  by_cases hu : u = t
  · rw [hu, Function.update_self]
  · rw [Function.update_of_ne hu]
    exact h.joined hne u

/-! ## `main` -/

omit [DecidableEq T] in
/-- Past the join nobody holds the mutex. -/
theorem BackupInv.mutex_free {maxBackups : Int} {s : BackupState T} (h : BackupInv maxBackups s)
    (hmain : s.main ≠ .join) : s.backupMutex = none := by
  cases hmutex : s.backupMutex with
  | none => rfl
  | some t =>
      have hin := (h.mutex t).mpr hmutex
      rw [h.joined hmain t] at hin
      exact absurd hin (by simp [BackupPc.inside])

omit [DecidableEq T] in
/-- With the mutex free, only `main` can be behind with the counter. -/
theorem BackupInv.quiet {maxBackups : Int} {s : BackupState T} (h : BackupInv maxBackups s)
    (hfree : s.backupMutex = none) : (s.children : Int) + s.main.debt ≤ s.activeBackups := by
  have hcounted := h.counted
  rw [BackupState.holder_free hfree] at hcounted
  have hidle : (s.children : Int) + (0 + s.main.debt) ≤ s.activeBackups := hcounted
  omega

omit [DecidableEq T] in
/-- `main` makes a step in its loop. -/
theorem BackupInv.loop {maxBackups : Int} {s s' : BackupState T} (h : BackupInv maxBackups s)
    (hmain : s.main ≠ .join) (hthreads : s'.threads = s.threads)
    (hmutex : s'.backupMutex = s.backupMutex)
    (hcounted : s'.children + s'.main.debt ≤ s'.activeBackups) (hchildren : s'.children ≤ s.children) :
    BackupInv maxBackups s' := by
  have hfree := h.mutex_free hmain
  have hholder := BackupState.holder_free (hmutex.trans hfree)
  have hlimited := h.limited
  rw [BackupState.holder_free hfree] at hlimited
  refine ⟨?_, ?_, ?_, ?_⟩
  · intro t
    rw [hthreads, hmutex]
    exact h.mutex t
  · intro _ t
    rw [hthreads]
    exact h.joined hmain t
  · rw [hholder]
    show (s'.children : Int) + (0 + s'.main.debt) ≤ s'.activeBackups
    omega
  · rw [hholder]
    show (s'.children : Int) + 0 ≤ max 1 maxBackups
    have hroom : (s.children : Int) + 0 ≤ max 1 maxBackups := hlimited
    omega

/-- The steps of `main`. -/
inductive MainStep (s : BackupState T) : BackupState T → Prop where
  | join (hpc : s.main = .join) (hended : ∀ t, s.threads t = .ended) :
      MainStep s { s with main := .loop }
  /-- On in the loop, or to the end when nothing is counted. -/
  | pass {pc : MainPc} (hpc : s.main ≠ .join) (hdebt : s.main.debt = 0) (hdebt' : pc.debt = 0)
      (hdone : pc = .done → s.main = .loop ∧ s.activeBackups ≤ 0) : MainStep s { s with main := pc }
  | reap {exited : Nat} (hpc : s.main = .wait)
      (hchild : BackupState.children { s with exited := exited } + 1 = s.children) :
      MainStep s { s with exited := exited, main := .decrement }
  | decrement (hpc : s.main = .decrement) :
      MainStep s { s with main := .loop, activeBackups := s.activeBackups - 1 }

omit [DecidableEq T] in
theorem mainStep_of_stepMain [Fintype T] {s s' : BackupState T} (hs : stepMain s = some s') :
    MainStep s s' := by
  unfold stepMain at hs
  cases hpc : s.main with
  | join =>
      rw [hpc] at hs
      simp only [Option.ite_none_right_eq_some, Option.some.injEq] at hs
      obtain ⟨hended, rfl⟩ := hs
      exact .join hpc hended
  | loop =>
      rw [hpc] at hs
      obtain rfl := Option.some.inj hs
      by_cases hmore : s.activeBackups > 0
      · rw [if_pos hmore]
        exact .pass (by simp [hpc]) (hpc ▸ rfl) rfl (fun h => absurd h (by simp))
      · rw [if_neg hmore]
        exact .pass (by simp [hpc]) (hpc ▸ rfl) rfl (fun _ => ⟨hpc, Int.not_lt.mp hmore⟩)
  | wait =>
      rw [hpc] at hs
      cases hwait : s.waitNull with
      | none =>
          rw [hwait] at hs
          exact absurd hs (by simp)
      | some r =>
          obtain ⟨s₁, reaped⟩ := r
          rw [hwait] at hs
          cases reaped with
          | true =>
              obtain rfl := Option.some.inj hs
              obtain ⟨⟨exited, rfl⟩, hchild⟩ := waitNull_reaped hwait
              exact .reap hpc hchild
          | false =>
              obtain rfl := Option.some.inj hs
              obtain ⟨rfl, -⟩ := waitNull_failed hwait
              exact .pass (by simp [hpc]) (hpc ▸ rfl) rfl (fun h => absurd h (by simp))
  | decrement =>
      rw [hpc] at hs
      obtain rfl := Option.some.inj hs
      exact .decrement hpc
  | done =>
      rw [hpc] at hs
      exact absurd hs (by simp)

omit [DecidableEq T] in
theorem backupInv_stepMain {maxBackups : Int} {s s' : BackupState T} (h : BackupInv maxBackups s)
    (hs : MainStep s s') : BackupInv maxBackups s' := by
  cases hs with
  | join hpc hended =>
      have hcounted := h.counted
      rw [hpc] at hcounted
      exact ⟨h.mutex, fun _ => hended, hcounted, h.limited⟩
  | pass hpc hdebt hdebt' _ =>
      refine h.loop hpc rfl rfl ?_ le_rfl
      have hquiet := h.quiet (h.mutex_free hpc)
      rw [hdebt] at hquiet
      rw [hdebt']
      exact hquiet
  | @reap exited hpc hchild =>
      have hne : s.main ≠ .join := by simp [hpc]
      have hquiet := h.quiet (h.mutex_free hne)
      rw [hpc] at hquiet
      have hdebt : (s.children : Int) + 0 ≤ s.activeBackups := hquiet
      refine h.loop hne rfl rfl ?_ ?_
      · show (BackupState.children { s with exited := exited } : Int) + 1 ≤ s.activeBackups
        omega
      · show BackupState.children { s with exited := exited } ≤ s.children
        omega
  | decrement hpc =>
      have hne : s.main ≠ .join := by simp [hpc]
      have hquiet := h.quiet (h.mutex_free hne)
      rw [hpc] at hquiet
      have hdebt : (s.children : Int) + 1 ≤ s.activeBackups := hquiet
      refine h.loop hne rfl rfl ?_ le_rfl
      show (s.children : Int) + 0 ≤ s.activeBackups - 1
      omega

theorem backupInv_step [Fintype T] {maxBackups : Int} (s : BackupState T) (e : BackupEvent T)
    (s' : BackupState T) (h : BackupInv maxBackups s) (hs : stepBackup maxBackups s e = some s') :
    BackupInv maxBackups s' := by
  cases e with
  | next t => exact backupInv_stepThread h (threadStep_of_stepThread hs)
  | forkFails t =>
      simp only [stepBackup, Option.ite_none_right_eq_some, Option.some.injEq] at hs
      obtain ⟨hpc, rfl⟩ := hs
      obtain ⟨_, _, hcounted, hlimited⟩ := h.inside hpc rfl
      have hdebt : (s.children : Int) + 0 ≤ s.activeBackups := hcounted
      have hroom : (s.children : Int) + 1 ≤ max 1 maxBackups := hlimited
      -- there is no child, and the counter will be one ahead
      refine h.goto (hpc ▸ rfl) rfl rfl rfl rfl ?_ ?_
      · show (s.children : Int) + -1 ≤ s.activeBackups
        omega
      · show (s.children : Int) + 0 ≤ max 1 maxBackups
        omega
  | ends t =>
      simp only [stepBackup, Option.ite_none_right_eq_some, Option.some.injEq] at hs
      obtain ⟨hpc, rfl⟩ := hs
      exact h.ends hpc
  | childExits =>
      simp only [stepBackup, Option.ite_none_right_eq_some, Option.some.injEq] at hs
      obtain ⟨hrunning, rfl⟩ := hs
      -- a child that has exited is still to be reaped
      have hchildren : s.running - 1 + (s.exited + 1) = s.running + s.exited := by omega
      refine ⟨h.mutex, h.joined, ?_, ?_⟩
      · show ((s.running - 1 + (s.exited + 1) : Nat) : Int) + _ ≤ s.activeBackups
        rw [hchildren]
        exact h.counted
      · show ((s.running - 1 + (s.exited + 1) : Nat) : Int) + _ ≤ max 1 maxBackups
        rw [hchildren]
        exact h.limited
  | main => exact backupInv_stepMain h (mainStep_of_stepMain hs)

/-- **Backups.** For any worker threads and any order of their steps, whichever forks fail and whenever
    children exit: never more than `max_backups` children, or one, wait to be reaped, and
    `active_backups` is at least their number whenever nobody holds `backup_mutex`. -/
theorem backups_limited [Fintype T] (maxBackups : Int) (events : List (BackupEvent T))
    (s : BackupState T) (hrun : Transition.run (stepBackup maxBackups) events .init = some s) :
    (s.children : Int) ≤ max 1 maxBackups ∧
      (s.backupMutex = none → (s.children : Int) ≤ s.activeBackups) := by
  have h := Transition.run_invariant (BackupInv maxBackups) backupInv_step (backupInv_init maxBackups)
    hrun
  have hroom : 0 ≤ s.holder.room := by cases s.holder <;> simp [BackupPc.room]
  have hdebt : 0 ≤ s.main.debt := by cases s.main <;> simp [MainPc.debt]
  have hlimited := h.limited
  constructor
  · omega
  · intro hfree
    have hquiet := h.quiet hfree
    omega

/-- Two threads and a limit of one: the first forks, the second waits for the child, reaps it and forks
    in its turn. -/
def twoBackups : List (BackupEvent Bool) :=
  List.replicate 57 (.next false) ++ [.next true, .next true, .childExits] ++ List.replicate 29 (.next true)

theorem twoBackups_run : (Transition.run (stepBackup 1) twoBackups .init).isSome = true := by
  decide +kernel

theorem backups_limited_two :
    ∃ s, Transition.run (stepBackup 1) twoBackups .init = some s ∧
      (s.children : Int) ≤ max 1 1 ∧ (s.backupMutex = none → (s.children : Int) ≤ s.activeBackups) :=
  ⟨_, (Option.some_get twoBackups_run).symm,
    backups_limited 1 twoBackups _ (Option.some_get twoBackups_run).symm⟩

end Kvs.Server
