import Kvs.Lib.LockOrder
import Kvs.Lib.Workload

/-!
# `Lib.LockProgress` — ordered commands come to an end

Every step of a run takes one instruction away, so the instructions left bound what can still happen
(`instructions_step`). When commands take their locks in the order of a rank, finitely many threads never
all wait: among those that do, one waits for a lock of the greatest rank, and whoever holds it would wait
for a lock of a greater rank still (`progress_of_ordered`). So a run of ordered commands can always be
continued until every thread has nothing left.

Without an order, threads that all wait are in a deadlock, on the locks that commands take while they
hold another one (`deadlock_of_stuck`).
-/

namespace Locking

variable {T K Op Cmd S Out : Type*}

/-! ## The instructions left -/

/-- What a command takes: its start, its instructions and its end. -/
def Machine.cost (M : Machine K Op Cmd S Out) (c : Cmd) : Nat := (M.code c).length + 2

/-- The steps a thread has left. -/
def Machine.left (M : Machine K Op Cmd S Out) (th : Thread K Op Cmd Out) : Nat :=
  (th.todo.map M.cost).sum + (th.running.elim 0 (fun r => r.rest.length + 1))

theorem left_eq_zero_iff (M : Machine K Op Cmd S Out) (th : Thread K Op Cmd Out) :
    M.left th = 0 ↔ th.Idle := by
  unfold Machine.left Thread.Idle
  constructor
  · intro h
    obtain ⟨htodo, hrunning⟩ := Nat.add_eq_zero_iff.mp h
    constructor
    · cases hcs : th.todo with
      | nil => rfl
      | cons c cs =>
          rw [hcs] at htodo
          simp [Machine.cost] at htodo
    · cases hr : th.running with
      | none => rfl
      | some r =>
          rw [hr] at hrunning
          simp at hrunning
  · rintro ⟨htodo, hrunning⟩
    simp [htodo, hrunning]

section Steps

variable [DecidableEq T] [DecidableEq K] {M : Machine K Op Cmd S Out} {s u : State T K Op Cmd S Out}
  {t : T}

/-- **One step, one less.** -/
theorem left_step (h : Step M t s u) : M.left (u.threads t) + 1 = M.left (s.threads t) := by
  unfold Machine.left
  cases h with
  | start hrun htodo =>
      simp only [setThread_self, hrun, htodo, List.map_cons, List.sum_cons, Machine.cost,
        Option.elim_some, Option.elim_none]
      omega
  | finish hrun =>
      simp only [setThread_self, hrun, Option.elim_some, Option.elim_none, List.length_nil]
  | acquire hrun hfree =>
      simp only [setThread_self, hrun, Option.elim_some, List.length_cons]
      omega
  | perform hrun =>
      simp only [setThread_self, hrun, Option.elim_some, List.length_cons]
      omega
  | release hrun =>
      simp only [setThread_self, hrun, Option.elim_some, List.length_cons]
      omega

theorem step_threads_ne {v : T} (h : Step M t s u) (hv : v ≠ t) : u.threads v = s.threads v := by
  cases h <;> exact setThread_ne _ _ _ hv

/-- One summand goes down and the others stay. -/
theorem sum_step [Fintype T] {f g : T → Nat} {d : Nat} (hself : f t + d = g t)
    (hothers : ∀ v, v ≠ t → f v = g v) : ∑ v, f v + d = ∑ v, g v := by
  rw [← Finset.add_sum_erase _ f (Finset.mem_univ t), ← Finset.add_sum_erase _ g (Finset.mem_univ t),
    ← hself]
  have hrest : ∑ v ∈ Finset.univ.erase t, f v = ∑ v ∈ Finset.univ.erase t, g v :=
    Finset.sum_congr rfl (fun v hv => hothers v (Finset.ne_of_mem_erase hv))
  rw [hrest]
  omega

/-- The steps left to all threads go down by one with every step. -/
theorem instructions_step [Fintype T] (h : Step M t s u) :
    ∑ v, M.left (u.threads v) + 1 = ∑ v, M.left (s.threads v) :=
  sum_step (left_step h) (fun _ hv => congrArg M.left (step_threads_ne h hv))

/-! ## Who can go on -/

/-- A thread that makes no step has nothing left or is before a lock that it cannot take now. -/
theorem idle_or_wants_of_stuck (h : step M t s = none) :
    (s.threads t).Idle ∨ ∃ k m, Wants s t k m ∧ compatible m (s.locks k) = false := by
  have hno : ∀ u, ¬ Step M t s u := by
    intro u hstep
    exact absurd (hstep.step_eq.symm.trans h) (by simp)
  cases hrun : (s.threads t).running with
  | none =>
      cases htodo : (s.threads t).todo with
      | nil => exact Or.inl ⟨htodo, hrun⟩
      | cons c cs => exact absurd (Step.start hrun htodo) (hno _)
  | some r =>
      obtain ⟨c, p, os⟩ := r
      cases p with
      | nil => exact absurd (Step.finish hrun) (hno _)
      | cons i p =>
          cases i with
          | acquire k m =>
              refine Or.inr ⟨k, m, ⟨c, p, os, hrun⟩, ?_⟩
              rw [Bool.eq_false_iff]
              exact fun hfree => hno _ (Step.acquire hrun hfree)
          | perform o => exact absurd (Step.perform hrun) (hno _)
          | release k => exact absurd (Step.release hrun) (hno _)

omit [DecidableEq T] [DecidableEq K] in
/-- A lock that cannot be taken has a holder. -/
theorem exists_holder {k : K} {m : Mode} (h : compatible m (s.locks k) = false) :
    ∃ v m', (v, m') ∈ s.locks k := by
  have hne : s.locks k ≠ [] := by
    intro hnil
    cases m <;> simp [compatible, hnil] at h
  obtain ⟨⟨v, m'⟩, hmem⟩ := List.exists_mem_of_ne_nil _ hne
  exact ⟨v, m', hmem⟩

variable {rank : K → Nat}

/-- The rank of the lock that a thread is about to take. -/
def wantedRank (rank : K → Nat) (s : State T K Op Cmd S Out) (t : T) : Nat :=
  (s.request t).elim 0 (fun r => rank r.1)

omit [DecidableEq T] [DecidableEq K] in
theorem wantedRank_eq {k : K} {m : Mode} (h : Wants s t k m) : wantedRank rank s t = rank k := by
  obtain ⟨c, p, os, hrun⟩ := h
  simp [wantedRank, State.request, hrun]

/-- **Progress.** As long as one of finitely many threads has something left, one can make a step. -/
theorem OrderInv.progress [Finite T] (hI : OrderInv M rank s) (hbusy : ∃ v, ¬ (s.threads v).Idle) :
    ∃ v, (step M v s).isSome = true := by
  by_contra hstuck
  have hnone : ∀ v, step M v s = none := by
    intro v
    rw [← Option.not_isSome_iff_eq_none]
    exact fun h => hstuck ⟨v, h⟩
  -- among the threads that wait, one waits for a lock of the greatest rank
  obtain ⟨v, hv, hmax⟩ := Set.exists_max_image {v | ¬ (s.threads v).Idle} (wantedRank rank s)
    (Set.toFinite _) hbusy
  obtain ⟨k, m, hwants, hheld⟩ := (idle_or_wants_of_stuck (hnone v)).resolve_left hv
  -- whoever holds it has not finished, so it waits for a lock of a greater rank still
  obtain ⟨w, m', hw⟩ := exists_holder hheld
  have hbusy' : ¬ (s.threads w).Idle := by
    rintro ⟨_, hrunning⟩
    exact held_eq_none_iff.mp (congrFun (hI.idle w hrunning) k) m' hw
  obtain ⟨j, mj, hwants', _⟩ := (idle_or_wants_of_stuck (hnone w)).resolve_left hbusy'
  have hlt : rank k < rank j := hI.rank_lt hwants' hw
  have hle := hmax w hbusy'
  rw [wantedRank_eq hwants, wantedRank_eq hwants'] at hle
  exact absurd hlt (Nat.not_lt_of_le hle)

/-- **Ordered commands never get stuck**, for finitely many threads and any schedule so far. -/
theorem progress_of_ordered [Finite T] {σ : S} {todo : T → List Cmd}
    (htodo : ∀ t, ∀ c ∈ todo t, Ordered rank (fun _ => none) (M.code c)) {sched : List T}
    (hrun : run M sched (State.init σ todo) = some s) (hbusy : ∃ v, ¬ (s.threads v).Idle) :
    ∃ v, (step M v s).isSome = true :=
  (orderInv_run htodo hrun).progress hbusy

/-! ## Where threads get stuck -/

/-- A lock outside `ks` is only taken as the first, from the locks held (`H`). -/
def FirstOnly (ks : Set K) : (K → Option Mode) → List (Instr K Op) → Prop
  | H, [] => H = fun _ => none
  | H, .acquire k m :: p =>
      H k = none ∧ (k ∉ ks → H = fun _ => none) ∧ FirstOnly ks (Function.update H k (some m)) p
  | H, .perform _ :: p => FirstOnly ks H p
  | H, .release k :: p => FirstOnly ks (Function.update H k none) p

theorem discipline_firstOnly (ks : Set K) :
    Discipline (fun (_ : Cmd) H (p : List (Instr K Op)) => FirstOnly ks H p) where
  settled h := h
  acquire h := ⟨h.1, h.2.2⟩
  perform h := h
  release h := h

/-- **Stuck threads are in a deadlock.** When no thread can make a step and one of finitely many has
    something left, there is a cycle of threads that wait for locks in `ks`. -/
theorem deadlock_of_stuck [Finite T] {ks : Set K} {σ : S} {todo : T → List Cmd}
    (htodo : ∀ t, ∀ c ∈ todo t, FirstOnly ks (fun _ => none) (M.code c)) {sched : List T}
    (hrun : run M sched (State.init σ todo) = some s) (hstuck : ∀ v, step M v s = none)
    (hbusy : ∃ v, ¬ (s.threads v).Idle) : Deadlock ks s := by
  have hF := follows_run (discipline_firstOnly ks) htodo hrun
  -- who holds a lock and waits, waits for a lock in `ks`
  have hinside : ∀ w k m j m', Wants s w k m → (w, m') ∈ s.locks j → k ∈ ks := by
    rintro w k m j m' ⟨c, p, os, hrun'⟩ hw
    by_contra hk
    have hnone := (hF.running w _ hrun').2.1 hk
    exact held_eq_none_iff.mp (congrFun hnone j) m' hw
  -- every thread that waits, waits on one that waits
  have hnext : ∀ v, ¬ (s.threads v).Idle → ∃ k w, WaitsOn s k v w ∧ ¬ (s.threads w).Idle := by
    intro v hv
    obtain ⟨k, m, hwants, hheld⟩ := (idle_or_wants_of_stuck (hstuck v)).resolve_left hv
    have hconflict : ∃ w m', (w, m') ∈ s.locks k ∧ Conflict m m' := by
      cases m with
      | exclusive =>
          obtain ⟨w, m', hw⟩ := exists_holder hheld
          exact ⟨w, m', hw, Or.inl rfl⟩
      | shared =>
          simp only [compatible, List.all_eq_false, decide_eq_true_eq] at hheld
          obtain ⟨⟨w, m'⟩, hw, hm'⟩ := hheld
          cases m' with
          | shared => exact absurd rfl hm'
          | exclusive => exact ⟨w, .exclusive, hw, Or.inr rfl⟩
    obtain ⟨w, m', hw, hc⟩ := hconflict
    refine ⟨k, w, ⟨m, m', hwants, hw, hc⟩, ?_⟩
    rintro ⟨_, hrunning⟩
    exact held_eq_none_iff.mp (congrFun (hF.idle w hrunning) k) m' hw
  by_contra hno
  let waits : T → T → Prop := Relation.TransGen (fun v w => ∃ k ∈ ks, WaitsOn s k v w)
  have hirrefl : Std.Irrefl (flip waits) := ⟨fun v h => hno ⟨v, h⟩⟩
  have htrans : IsTrans T (flip waits) := ⟨fun _ _ _ h h' => Relation.TransGen.trans h' h⟩
  -- in a cycle-free relation some thread that is waited on waits for nobody
  have hwf := Finite.wellFounded_of_trans_of_irrefl (flip waits)
  obtain ⟨v₀, hv₀⟩ := hbusy
  obtain ⟨k₀, v₁, ⟨_, m₁, _, hheld₁, _⟩, hv₁⟩ := hnext v₀ hv₀
  obtain ⟨w, ⟨hw, j, m', hheld⟩, hmin⟩ := hwf.has_min
    {w | ¬ (s.threads w).Idle ∧ ∃ j m', (w, m') ∈ s.locks j} ⟨v₁, hv₁, k₀, m₁, hheld₁⟩
  obtain ⟨k, u, hwaits, hu⟩ := hnext w hw
  obtain ⟨m, mu, hwants, hheldu, hc⟩ := hwaits
  refine hmin u ⟨hu, k, mu, hheldu⟩ (Relation.TransGen.single ⟨k, ?_, m, mu, hwants, hheldu, hc⟩)
  exact hinside w k m j m' hwants hheld

omit [DecidableEq K] in
theorem eraseP_other {l : List (T × Mode)} {w : T} {m : Mode} (hw : w ≠ t) (h : (w, m) ∈ l) :
    (w, m) ∈ l.eraseP (fun h => h.1 = t) :=
  (List.mem_eraseP_of_neg (by simpa using hw)).mpr h

/-- The locks of the others stay. -/
theorem Step.locks_ne {k : K} {w : T} {m : Mode} (hs : Step M t s u) (hw : w ≠ t)
    (h : (w, m) ∈ s.locks k) : (w, m) ∈ u.locks k := by
  cases hs with
  | start hrun htodo => exact h
  | finish hrun => exact h
  | perform hrun => exact h
  | @acquire c j mj rest outs hrun hfree =>
      rw [setThread_locks]
      by_cases hkj : k = j
      · subst hkj
        rw [setLock_self]
        exact List.mem_cons_of_mem _ h
      · rw [setLock_ne _ _ _ hkj]
        exact h
  | @release c j rest outs hrun =>
      rw [setThread_locks]
      by_cases hkj : k = j
      · subst hkj
        rw [setLock_self]
        exact eraseP_other hw h
      · rw [setLock_ne _ _ _ hkj]
        exact h

/-- A thread that waits on another makes no step. -/
theorem WaitsOn.no_step {k : K} {v w : T} (h : WaitsOn s k v w) : step M v s = none := by
  obtain ⟨m, m', ⟨c, p, os, hrun⟩, hheld, hc⟩ := h
  have hbusy : compatible m (s.locks k) = false := by
    rw [Bool.eq_false_iff]
    intro hfree
    cases m with
    | exclusive =>
        rw [List.isEmpty_iff.mp hfree] at hheld
        exact absurd hheld (by simp)
    | shared =>
        have hshared := List.all_eq_true.mp hfree _ hheld
        rcases hc with hc | hc
        · exact absurd hc (by simp)
        · simp [hc] at hshared
  simp [step, hrun, hbusy]

/-- Who waits on a thread that makes no step goes on waiting. -/
theorem WaitsOn.of_step {k : K} {v w : T} (h : WaitsOn s k v w) (hs : Step M t s u) (hv : v ≠ t)
    (hw : w ≠ t) : WaitsOn u k v w := by
  obtain ⟨m, m', ⟨c, p, os, hrun⟩, hheld, hc⟩ := h
  refine ⟨m, m', ⟨c, p, os, by rw [step_threads_ne hs hv, hrun]⟩, ?_, hc⟩
  exact hs.locks_ne hw hheld

/-- **A deadlock is for ever**, whatever the other threads do. -/
theorem Deadlock.step {ks : Set K} (h : Deadlock ks s) (hs : Step M t s u) : Deadlock ks u := by
  obtain ⟨v, hv⟩ := h
  have hblocked : ∀ a, (∃ b, ∃ k ∈ ks, WaitsOn s k a b) → a ≠ t := by
    rintro a ⟨b, k, _, hab⟩ rfl
    exact absurd (hs.step_eq.symm.trans hab.no_step) (by simp)
  have hout : ∀ a b, Relation.TransGen (fun v w => ∃ k ∈ ks, WaitsOn s k v w) a b →
      ∃ c, ∃ k ∈ ks, WaitsOn s k a c := by
    intro a b hab
    obtain ⟨c, hac, _⟩ := Relation.TransGen.head'_iff.mp hab
    exact ⟨c, hac⟩
  -- every thread of the cycle waits, the one it waits on too
  have hkept : ∀ a, Relation.TransGen (fun v w => ∃ k ∈ ks, WaitsOn s k v w) a v →
      Relation.TransGen (fun v w => ∃ k ∈ ks, WaitsOn u k v w) a v := by
    intro a ha
    induction ha using Relation.TransGen.head_induction_on with
    | single hab =>
        obtain ⟨k, hk, hwaits⟩ := hab
        exact Relation.TransGen.single
          ⟨k, hk, hwaits.of_step hs (hblocked _ ⟨_, k, hk, hwaits⟩) (hblocked _ (hout _ _ hv))⟩
    | head hab hbc ih =>
        obtain ⟨k, hk, hwaits⟩ := hab
        exact Relation.TransGen.head
          ⟨k, hk, hwaits.of_step hs (hblocked _ ⟨_, k, hk, hwaits⟩) (hblocked _ (hout _ _ hbc))⟩ ih
  exact ⟨v, hkept v hv⟩

end Steps

/-! ## Commands in three phases -/

section Phases

variable [DecidableEq K] {ks : Set K}

theorem firstOnly_releases {rels : List K} {H : K → Option Mode} (hH : ∀ k, H k ≠ none → k ∈ rels) :
    FirstOnly ks H (rels.map .release : List (Instr K Op)) := by
  induction rels generalizing H with
  | nil => exact funext fun k => not_not.mp (fun h => absurd (hH k h) (by simp))
  | cons k rels ih =>
      refine ih (fun j hj => ?_)
      by_cases hjk : j = k
      · exact absurd hj (by simp [hjk])
      · rw [Function.update_of_ne hjk] at hj
        exact (List.mem_cons.mp (hH j hj)).resolve_left hjk

theorem firstOnly_performs {H : K → Option Mode} {p : List (Instr K Op)} (hp : FirstOnly ks H p)
    (ops : List Op) : FirstOnly ks H (ops.map .perform ++ p) := by
  induction ops with
  | nil => exact hp
  | cons o ops ih => exact ih

theorem firstOnly_acquires {acqs : List (K × Mode)} (hnd : (acqs.map Prod.fst).Nodup)
    {H : K → Option Mode} (hfree : ∀ k ∈ acqs.map Prod.fst, H k = none)
    (hks : ∀ k ∈ acqs.map Prod.fst, k ∈ ks) {p : List (Instr K Op)}
    (hp : FirstOnly ks (holding H acqs) p) :
    FirstOnly ks H (acqs.map (fun a => .acquire a.1 a.2) ++ p) := by
  induction acqs generalizing H with
  | nil => exact hp
  | cons a acqs ih =>
      rw [List.map_cons, List.nodup_cons] at hnd
      refine ⟨hfree a.1 List.mem_cons_self, fun h => absurd (hks a.1 List.mem_cons_self) h,
        ih hnd.2 (fun k hk => ?_) (fun k hk => hks k (List.mem_cons_of_mem a.1 hk)) hp⟩
      have hka : k ≠ a.1 := by rintro rfl; exact hnd.1 hk
      rw [Function.update_of_ne hka]
      exact hfree k (List.mem_cons_of_mem a.1 hk)

/-- Three phases whose locks are all in `ks`. -/
theorem firstOnly_phases {acqs : List (K × Mode)} {ops : List Op} {rels : List K}
    (hnd : (acqs.map Prod.fst).Nodup) (hks : ∀ k ∈ acqs.map Prod.fst, k ∈ ks)
    (hrels : rels.Perm (acqs.map Prod.fst)) :
    FirstOnly ks (fun _ => none) (phases acqs ops rels) := by
  refine firstOnly_acquires hnd (fun _ _ => rfl) hks
    (firstOnly_performs (firstOnly_releases (fun k hk => ?_)) ops)
  rw [hrels.mem_iff]
  exact (holding_ne_none_iff hnd k).mp hk

/-- Three phases whose locks are all in `ks` but for the first. -/
theorem firstOnly_phases_behind {k : K} {m : Mode} {acqs : List (K × Mode)} {ops : List Op}
    {rels : List K} (hk : k ∉ acqs.map Prod.fst) (hnd : (acqs.map Prod.fst).Nodup)
    (hks : ∀ k ∈ acqs.map Prod.fst, k ∈ ks) (hrels : rels.Perm (k :: acqs.map Prod.fst)) :
    FirstOnly ks (fun _ => none) (phases ((k, m) :: acqs) ops rels) := by
  refine ⟨rfl, fun _ => rfl, firstOnly_acquires hnd (fun j hj => ?_) hks
    (firstOnly_performs (firstOnly_releases (fun j hj => ?_)) ops)⟩
  · have hjk : j ≠ k := by rintro rfl; exact hk hj
    rw [Function.update_of_ne hjk]
  · rw [hrels.mem_iff, List.mem_cons]
    by_cases hjk : j = k
    · exact Or.inl hjk
    · by_cases hmem : j ∈ acqs.map Prod.fst
      · exact Or.inr hmem
      · rw [holding_of_notMem hmem, Function.update_of_ne hjk] at hj
        exact absurd rfl hj

end Phases

end Locking
