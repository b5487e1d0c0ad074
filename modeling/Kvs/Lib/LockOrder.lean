import Kvs.Lib.LockSystem

/-!
# `Lib.LockOrder` — taking locks in one order excludes deadlock

A thread waits for another when its next instruction takes a lock that the other holds in a conflicting
mode. If every command takes its locks in strictly increasing order of some rank, no run of any number
of threads reaches a cycle of waiting threads (`no_deadlock_of_ordered`): along a cycle the rank of the
lock waited for would increase at every step.
-/

namespace Locking

variable {T K Op Cmd S Out : Type*} [DecidableEq T] [DecidableEq K]

/-- Two modes in which two threads cannot hold one lock together. -/
def Conflict (m m' : Mode) : Prop := m = .exclusive ∨ m' = .exclusive

instance (m m' : Mode) : Decidable (Conflict m m') := inferInstanceAs (Decidable (_ ∨ _))

/-- `t` is about to take lock `k`, in mode `m`. -/
def Wants (s : State T K Op Cmd S Out) (t : T) (k : K) (m : Mode) : Prop :=
  ∃ c p os, (s.threads t).running = some ⟨c, .acquire k m :: p, os⟩

/-- The lock a thread is about to take, and its mode. -/
def State.request (s : State T K Op Cmd S Out) (t : T) : Option (K × Mode) :=
  match (s.threads t).running with
  | some ⟨_, .acquire k m :: _, _⟩ => some (k, m)
  | _ => none

/-- `t` waits for lock `k`, which `u` holds. -/
def WaitsOn (s : State T K Op Cmd S Out) (k : K) (t u : T) : Prop :=
  ∃ m m', Wants s t k m ∧ (u, m') ∈ s.locks k ∧ Conflict m m'

/-- A cycle of threads, each waiting for a lock in `ks` that the next one holds. -/
def Deadlock (ks : Set K) (s : State T K Op Cmd S Out) : Prop :=
  ∃ t, Relation.TransGen (fun t u => ∃ k ∈ ks, WaitsOn s k t u) t t

omit [DecidableEq T] [DecidableEq K] in
theorem wants_of_request {s : State T K Op Cmd S Out} {t : T} {k : K} {m : Mode}
    (h : s.request t = some (k, m)) : Wants s t k m := by
  unfold State.request at h
  split at h
  · rename_i c k' m' p os hrun
    obtain ⟨rfl, rfl⟩ := Prod.mk.inj (Option.some.inj h)
    exact ⟨c, p, os, hrun⟩
  · exact absurd h (by simp)

omit [DecidableEq T] [DecidableEq K] in
/-- Two threads that wait for each other. -/
theorem deadlock_of_pair {ks : Set K} {s : State T K Op Cmd S Out} {t u : T} {j k : K}
    (hj : j ∈ ks) (hk : k ∈ ks) (htu : WaitsOn s j t u) (hut : WaitsOn s k u t) : Deadlock ks s :=
  ⟨t, (Relation.TransGen.single ⟨j, hj, htu⟩).tail ⟨k, hk, hut⟩⟩

/-- **The ordering discipline**, from the locks held (`H`): a lock is taken only while every lock held
    has a smaller rank, and nothing is left held at the end. -/
def Ordered (rank : K → Nat) : (K → Option Mode) → List (Instr K Op) → Prop
  | H, [] => ∀ k, H k = none
  | H, .acquire k m :: p =>
      (∀ j, H j ≠ none → rank j < rank k) ∧ Ordered rank (Function.update H k (some m)) p
  | H, .perform _ :: p => Ordered rank H p
  | H, .release k :: p => Ordered rank (Function.update H k none) p

/-- The invariant: every thread follows the ordering discipline from what it holds now. -/
structure OrderInv (M : Machine K Op Cmd S Out) (rank : K → Nat) (s : State T K Op Cmd S Out) :
    Prop where
  locks : LockInv s
  todo : ∀ t, ∀ c ∈ (s.threads t).todo, Ordered rank (fun _ => none) (M.code c)
  idle : ∀ t, (s.threads t).running = none → s.held t = fun _ => none
  running : ∀ t r, (s.threads t).running = some r → Ordered rank (s.held t) r.rest

variable {M : Machine K Op Cmd S Out} {rank : K → Nat} {s : State T K Op Cmd S Out}

/-- The ordering discipline as a discipline of `Lib.LockSystem`: a lock that is held has its own rank,
    so it is not taken again. -/
theorem discipline_ordered (rank : K → Nat) :
    Discipline (fun (_ : Cmd) H (p : List (Instr K Op)) => Ordered rank H p) where
  settled h := funext h
  acquire h := ⟨not_not.mp (fun hne => Nat.lt_irrefl _ (h.1 _ hne)), h.2⟩
  perform h := h
  release h := h

/-- **Runs of ordered commands** keep the ordering invariant. -/
theorem orderInv_run {σ : S} {todo : T → List Cmd}
    (htodo : ∀ t, ∀ c ∈ todo t, Ordered rank (fun _ => none) (M.code c)) {sched : List T}
    (hrun : run M sched (State.init σ todo) = some s) : OrderInv M rank s := by
  have hF := follows_run (discipline_ordered rank) htodo hrun
  exact ⟨hF.locks, hF.todo, hF.idle, hF.running⟩

/-- A thread that waits for `k` holds only locks of smaller rank. -/
theorem OrderInv.rank_lt (hI : OrderInv M rank s) {t : T} {j k : K} {m m' : Mode}
    (hw : Wants s t k m) (hheld : (t, m') ∈ s.locks j) : rank j < rank k := by
  obtain ⟨c, p, os, hrun⟩ := hw
  refine (hI.running t _ hrun).1 j (fun hnone => ?_)
  exact held_eq_none_iff.mp hnone m' hheld

/-- **No cycle.** Along a chain of waiting threads the rank of the lock waited for increases. -/
theorem OrderInv.no_deadlock (hI : OrderInv M rank s) (ks : Set K) : ¬ Deadlock ks s := by
  -- on a chain from `t` to `u`, whatever `u` waits for ranks above some lock `t` waits for
  have hchain : ∀ t u, Relation.TransGen (fun t u => ∃ k ∈ ks, WaitsOn s k t u) t u →
      ∃ k m, Wants s t k m ∧ ∀ k' m', Wants s u k' m' → rank k < rank k' := by
    intro t u h
    induction h with
    | single h =>
        obtain ⟨k, _, m, m', hw, hheld, _⟩ := h
        exact ⟨k, m, hw, fun k' m'' hw' => hI.rank_lt hw' hheld⟩
    | tail _ h ih =>
        obtain ⟨k, m, hw, hlt⟩ := ih
        obtain ⟨j, _, mj, m', hwj, hheld, _⟩ := h
        exact ⟨k, m, hw, fun k' m'' hw' => (hlt j mj hwj).trans (hI.rank_lt hw' hheld)⟩
  rintro ⟨t, ht⟩
  obtain ⟨k, m, hw, hlt⟩ := hchain t t ht
  exact absurd (hlt k m hw) (Nat.lt_irrefl _)

/-- **Ordered commands do not deadlock**, for any number of threads and any schedule. -/
theorem no_deadlock_of_ordered {σ : S} {todo : T → List Cmd}
    (htodo : ∀ t, ∀ c ∈ todo t, Ordered rank (fun _ => none) (M.code c)) {sched : List T}
    (hrun : run M sched (State.init σ todo) = some s) (ks : Set K) : ¬ Deadlock ks s :=
  (orderInv_run htodo hrun).no_deadlock ks

/-! ## Commands in three phases -/

section Phases

variable {rank : K → Nat}

theorem ordered_releases {rels : List K} {H : K → Option Mode} (hH : ∀ k, H k ≠ none → k ∈ rels) :
    Ordered rank H (rels.map Instr.release : List (Instr K Op)) := by
  induction rels generalizing H with
  | nil => exact fun k => not_not.mp (fun h => absurd (hH k h) (by simp))
  | cons k rels ih =>
      refine ih (fun j hj => ?_)
      by_cases hjk : j = k
      · exact absurd hj (by simp [hjk])
      · rw [Function.update_of_ne hjk] at hj
        exact (List.mem_cons.mp (hH j hj)).resolve_left hjk

theorem ordered_performs {H : K → Option Mode} {p : List (Instr K Op)} (hp : Ordered rank H p)
    (ops : List Op) : Ordered rank H (ops.map Instr.perform ++ p) := by
  induction ops with
  | nil => exact hp
  | cons o ops ih => exact ih

theorem ordered_acquires {acqs : List (K × Mode)}
    (hsorted : (acqs.map Prod.fst).Pairwise (fun j k => rank j < rank k)) {H : K → Option Mode}
    (hbelow : ∀ j, H j ≠ none → ∀ k ∈ acqs.map Prod.fst, rank j < rank k) {p : List (Instr K Op)}
    (hp : Ordered rank (holding H acqs) p) :
    Ordered rank H (acqs.map (fun a => Instr.acquire a.1 a.2) ++ p) := by
  induction acqs generalizing H with
  | nil => exact hp
  | cons a acqs ih =>
      rw [List.map_cons, List.pairwise_cons] at hsorted
      refine ⟨fun j hj => hbelow j hj a.1 List.mem_cons_self, ih hsorted.2 (fun j hj k hk => ?_) hp⟩
      by_cases hja : j = a.1
      · subst hja
        exact hsorted.1 k hk
      · rw [Function.update_of_ne hja] at hj
        exact hbelow j hj k (List.mem_cons_of_mem a.1 hk)

/-- **Three phases are ordered** when the locks are taken in strictly increasing rank and all are given
    back. -/
theorem ordered_phases {acqs : List (K × Mode)} {ops : List Op} {rels : List K}
    (hsorted : (acqs.map Prod.fst).Pairwise (fun j k => rank j < rank k))
    (hrels : rels.Perm (acqs.map Prod.fst)) :
    Ordered rank (fun _ => none) (phases acqs ops rels) := by
  refine ordered_acquires hsorted (fun _ h => absurd rfl h)
    (ordered_performs (ordered_releases (fun k hk => ?_)) ops)
  by_contra hmem
  rw [hrels.mem_iff] at hmem
  exact hk (holding_of_notMem hmem _)

end Phases

end Locking
