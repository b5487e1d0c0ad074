import Kvs.Lib.LockSystem

/-!
# `Lib.TwoPhase` — commands that lock everything first are serializable

The store is a family of locations, each guarded by a lock. A command is *disciplined* when every
operation comes after its last acquisition and touches only locations whose lock the command holds, in
exclusive mode where it writes. For any number of threads and any schedule, disciplined commands are
serializable (`serializable`): ordered by the moment they take their last lock, and run one at a time
in that order, they leave the same store and give the same outputs, and the order respects both the
order inside a thread and real time.

The proof carries the serial run along with the concurrent one (`SerialInv`): a command joins the
serial order when it takes its last lock, and from then on running its remaining instructions on the
concurrent store gives what the serial run has already promised.
-/

namespace Locking

variable {T K Op Cmd L V Out : Type*} [DecidableEq T] [DecidableEq K]

/-! ## Operations with a footprint -/

/-- The footprint of each operation on a store of locations, and what it promises: an operation changes
    only the locations it accesses exclusively, and depends only on the locations it accesses. -/
structure Footprint (exec : Op → (L → V) → (L → V) × Out) where
  access : Op → L → Option Mode
  frame : ∀ o σ l, access o l ≠ some .exclusive → (exec o σ).1 l = σ l
  out_eq : ∀ o σ τ, (∀ l, access o l ≠ none → σ l = τ l) → (exec o σ).2 = (exec o τ).2
  eq_on : ∀ o σ τ, (∀ l, access o l ≠ none → σ l = τ l) →
    ∀ l, access o l ≠ none → (exec o σ).1 l = (exec o τ).1 l

/-- The locks held (`H`) allow what `o` does to the locations. -/
def Covered {exec : Op → (L → V) → (L → V) × Out} (fp : Footprint exec) (guard : L → K)
    (H : K → Option Mode) (o : Op) : Prop :=
  ∀ l m, fp.access o l = some m →
    ∃ m', H (guard l) = some m' ∧ (m = .exclusive → m' = .exclusive)

/-- Past the lock point: no acquisition is left. -/
def Locked (p : List (Instr K Op)) : Prop := ∀ i ∈ p, i.isAcquire = false

/-- **The locking discipline**, from the locks held (`H`): no lock is taken twice, every operation is
    covered, nothing is taken after the first operation or release, and nothing is left held. -/
def Disciplined {exec : Op → (L → V) → (L → V) × Out} (fp : Footprint exec) (guard : L → K) :
    (K → Option Mode) → List (Instr K Op) → Prop
  | H, [] => ∀ k, H k = none
  | H, .acquire k m :: p => H k = none ∧ Disciplined fp guard (Function.update H k (some m)) p
  | H, .perform o :: p => Covered fp guard H o ∧ Locked p ∧ Disciplined fp guard H p
  | H, .release k :: p =>
      H k ≠ none ∧ Locked p ∧ Disciplined fp guard (Function.update H k none) p

/-! ## One command alone -/

/-- The instructions run with nobody else about: the store they leave and their outputs. -/
def runCode {S : Type*} (M : Machine K Op Cmd S Out) : List (Instr K Op) → S → S × List Out
  | [], σ => (σ, [])
  | .acquire _ _ :: p, σ => runCode M p σ
  | .perform o :: p, σ =>
      let (σ', out) := M.exec o σ
      let (σ'', outs) := runCode M p σ'
      (σ'', out :: outs)
  | .release _ :: p, σ => runCode M p σ

/-- The commands run one at a time in this order: the store they leave and the outputs of each. -/
def serial {S : Type*} (M : Machine K Op Cmd S Out) : List Cmd → S → S × List (List Out)
  | [], σ => (σ, [])
  | c :: cs, σ =>
      let (σ', outs) := runCode M (M.code c) σ
      let (σ'', rest) := serial M cs σ'
      (σ'', outs :: rest)

omit [DecidableEq K] in
theorem serial_concat {S : Type*} (M : Machine K Op Cmd S Out) (cs : List Cmd) (c : Cmd) (σ : S) :
    serial M (cs ++ [c]) σ
      = ((runCode M (M.code c) (serial M cs σ).1).1,
          (serial M cs σ).2 ++ [(runCode M (M.code c) (serial M cs σ).1).2]) := by
  induction cs generalizing σ with
  | nil => rfl
  | cons d cs ih => simp [serial, ih]

omit [DecidableEq K] in
/-- Alone, a command in three phases is its operations. -/
theorem runCode_phases {S : Type*} (M : Machine K Op Cmd S Out) (acqs : List (K × Mode))
    (ops : List Op) (rels : List K) (σ : S) :
    runCode M (phases acqs ops rels) σ = runCode M (ops.map .perform) σ := by
  have hrels : ∀ (rels : List K) (σ : S), runCode M (rels.map .release) σ = (σ, []) := by
    intro rels
    induction rels with
    | nil => exact fun σ => rfl
    | cons k rels ih => exact fun σ => ih σ
  have hops : ∀ (ops : List Op) (σ : S),
      runCode M (ops.map .perform ++ rels.map .release) σ = runCode M (ops.map .perform) σ := by
    intro ops
    induction ops with
    | nil => exact hrels rels
    | cons o ops ih =>
        intro σ
        simp only [List.map_cons, List.cons_append, runCode, ih]
  induction acqs with
  | nil => exact hops ops σ
  | cons a acqs ih => exact ih

omit [DecidableEq K] in
/-- Operations that leave the store alone, whatever it is, all return what they do on it. -/
theorem runCode_readonly {S : Type*} {M : Machine K Op Cmd S Out} {ops : List Op}
    (hops : ∀ o ∈ ops, ∀ σ, (M.exec o σ).1 = σ) (σ : S) :
    runCode M (ops.map .perform) σ = (σ, ops.map (fun o => (M.exec o σ).2)) := by
  induction ops with
  | nil => rfl
  | cons o ops ih =>
      simp only [List.map_cons, runCode, hops o List.mem_cons_self,
        ih (fun o' ho' => hops o' (List.mem_cons_of_mem o ho'))]

omit [DecidableEq K] in
theorem locked_cons {i : Instr K Op} {p : List (Instr K Op)} (hi : i.isAcquire = false)
    (h : Locked p) : Locked (i :: p) := by
  intro j hj
  rcases List.mem_cons.mp hj with rfl | hj'
  · exact hi
  · exact h j hj'

section Alone

variable {M : Machine K Op Cmd (L → V) Out} {fp : Footprint M.exec} {guard : L → K}

/-- A locked command leaves alone what it does not hold exclusively. -/
theorem runCode_frame {H : K → Option Mode} {p : List (Instr K Op)} (hd : Disciplined fp guard H p)
    (hl : Locked p) {l : L} (hH : H (guard l) ≠ some .exclusive) (σ : L → V) :
    (runCode M p σ).1 l = σ l := by
  induction p generalizing H σ with
  | nil => rfl
  | cons i p ih =>
      cases i with
      | acquire k m => exact absurd (hl _ List.mem_cons_self) (by simp [Instr.isAcquire])
      | perform o =>
          obtain ⟨hc, hp, hdp⟩ := hd
          have hacc : fp.access o l ≠ some .exclusive := by
            intro hx
            obtain ⟨m', hm', hx'⟩ := hc l _ hx
            exact hH (by rw [hm', hx' rfl])
          rw [runCode]
          exact (ih hdp hp hH _).trans (fp.frame o σ l hacc)
      | release k =>
          obtain ⟨_, hp, hdp⟩ := hd
          rw [runCode]
          refine ih hdp hp ?_ σ
          by_cases hk : guard l = k
          · simp [hk]
          · rwa [Function.update_of_ne hk]

/-- A locked command sees only what it holds: stores that agree there give the same outputs, and
    results that agree there. -/
theorem runCode_congr {H : K → Option Mode} {p : List (Instr K Op)} (hd : Disciplined fp guard H p)
    (hl : Locked p) {σ τ : L → V} (hag : ∀ l, H (guard l) ≠ none → σ l = τ l) :
    (runCode M p σ).2 = (runCode M p τ).2 ∧
      ∀ l, H (guard l) ≠ none → (runCode M p σ).1 l = (runCode M p τ).1 l := by
  induction p generalizing H σ τ with
  | nil => exact ⟨rfl, hag⟩
  | cons i p ih =>
      cases i with
      | acquire k m => exact absurd (hl _ List.mem_cons_self) (by simp [Instr.isAcquire])
      | perform o =>
          obtain ⟨hc, hp, hdp⟩ := hd
          have hacc : ∀ l, fp.access o l ≠ none → σ l = τ l := by
            intro l hx
            obtain ⟨m, hm⟩ := Option.ne_none_iff_exists'.mp hx
            obtain ⟨m', hm', _⟩ := hc l m hm
            exact hag l (by simp [hm'])
          have hag' : ∀ l, H (guard l) ≠ none → (M.exec o σ).1 l = (M.exec o τ).1 l := by
            intro l hHl
            by_cases hx : fp.access o l = none
            · rw [fp.frame o σ l (by simp [hx]), fp.frame o τ l (by simp [hx])]
              exact hag l hHl
            · exact fp.eq_on o σ τ hacc l hx
          have hrest := ih hdp hp hag'
          simp only [runCode]
          exact ⟨by rw [fp.out_eq o σ τ hacc, hrest.1], hrest.2⟩
      | release k =>
          obtain ⟨_, hp, hdp⟩ := hd
          have hrest := ih hdp hp (σ := σ) (τ := τ) (fun l hHl => hag l (by
            by_cases hk : guard l = k
            · simp [hk] at hHl
            · rwa [Function.update_of_ne hk] at hHl))
          simp only [runCode]
          refine ⟨hrest.1, fun l hHl => ?_⟩
          by_cases hk : guard l = k
          · -- given back here, so nothing after this point writes it
            have hfree : Function.update H k none (guard l) ≠ some .exclusive := by simp [hk]
            rw [runCode_frame hdp hp hfree σ, runCode_frame hdp hp hfree τ]
            exact hag l hHl
          · exact hrest.2 l (by rwa [Function.update_of_ne hk])

end Alone

/-! ## Real time -/

/-- In the history, command `a` finished before command `b` started. -/
def FinishedBefore (log : List (Event T)) (a b : T × Nat) : Prop :=
  [Event.finish a.1 a.2, Event.start b.1 b.2].Sublist log

omit [DecidableEq T] in
theorem pair_sublist_concat {x y z : Event T} {log : List (Event T)}
    (h : [x, y].Sublist (log ++ [z])) : [x, y].Sublist log ∨ (y = z ∧ x ∈ log) := by
  obtain ⟨l₁, l₂, heq, h₁, h₂⟩ := List.sublist_append_iff.mp h
  rcases List.sublist_singleton.mp h₂ with rfl | rfl
  · rw [List.append_nil] at heq
    exact Or.inl (heq ▸ h₁)
  · obtain ⟨rfl, hyz⟩ : l₁ = [x] ∧ z = y := by
      rcases l₁ with _ | ⟨a, _ | ⟨b, l⟩⟩ <;> simp_all
    exact Or.inr ⟨hyz.symm, List.singleton_sublist.mp h₁⟩

omit [DecidableEq T] in
theorem FinishedBefore.mem {log : List (Event T)} {a b : T × Nat} (h : FinishedBefore log a b) :
    Event.finish a.1 a.2 ∈ log :=
  h.subset List.mem_cons_self

/-! ## The serial order -/

/-- A place in the serial order: the command, whose it is, and the outputs it has there. -/
structure Entry (T Cmd Out : Type*) where
  thread : T
  index : Nat
  cmd : Cmd
  outs : List Out

/-- Which command of which thread an entry stands for. -/
def Entry.id (e : Entry T Cmd Out) : T × Nat := (e.thread, e.index)

section Serializable

variable {M : Machine K Op Cmd (L → V) Out} {fp : Footprint M.exec} {guard : L → K}

/-- What the invariant says of one thread `t`: `H` is what it holds, `σ` the concurrent store, `τ` the
    serial one, and `past` tells whether its command has passed the lock point. From there on, the
    instructions that remain, run on `σ`, give the promised outputs and on the locations held the
    serial store. -/
structure ThreadInv (fp : Footprint M.exec) (guard : L → K) (order : List (Entry T Cmd Out))
    (σ τ : L → V) (t : T) (th : Thread K Op Cmd Out) (H : K → Option Mode) (past : Prop) : Prop where
  todo : ∀ c ∈ th.todo, Disciplined fp guard (fun _ => none) (M.code c)
  idle : th.running = none → H = fun _ => none
  running : ∀ r, th.running = some r → Disciplined fp guard H r.rest
  locked : past → ∃ r, th.running = some r ∧ Locked r.rest
  growing : ∀ r, th.running = some r → ¬ past →
    r.outs = [] ∧ ∀ ρ, runCode M r.rest ρ = runCode M (M.code r.cmd) ρ
  finished : ∀ i c os, th.finished[i]? = some (c, os) → ⟨t, i, c, os⟩ ∈ order
  promised : ∀ r, past → th.running = some r →
    ⟨t, th.finished.length, r.cmd, r.outs ++ (runCode M r.rest σ).2⟩ ∈ order
  ahead : ∀ r, past → th.running = some r →
    ∀ l, H (guard l) ≠ none → (runCode M r.rest σ).1 l = τ l

/-- **The serialization invariant.** `C` is the set of threads whose command has passed its lock point,
    `order` the serial order so far, which starts from the store `σ₀`. -/
structure SerialInv (fp : Footprint M.exec) (guard : L → K) (σ₀ : L → V)
    (s : State T K Op Cmd (L → V) Out) (C : Set T) (order : List (Entry T Cmd Out)) : Prop where
  locks : LockInv s
  thread : ∀ t, ThreadInv fp guard order s.store (serial M (order.map Entry.cmd) σ₀).1 t
    (s.threads t) (s.held t) (t ∈ C)
  outs : (serial M (order.map Entry.cmd) σ₀).2 = order.map Entry.outs
  free : ∀ l, (∀ t ∈ C, s.held t (guard l) = none) →
    s.store l = (serial M (order.map Entry.cmd) σ₀).1 l
  range : ∀ e ∈ order, e.index < (s.threads e.thread).finished.length ∨
    (e.index = (s.threads e.thread).finished.length ∧ e.thread ∈ C)
  program : order.Pairwise (fun x y => x.thread = y.thread → x.index < y.index)
  realtime : order.Pairwise (fun x y => ¬ FinishedBefore s.log y.id x.id)
  logged : ∀ t i, Event.finish t i ∈ s.log → i < (s.threads t).finished.length

/-- Every thread past its lock point is counted in `C`. -/
def Synced (s : State T K Op Cmd (L → V) Out) (C : Set T) : Prop :=
  ∀ t r, (s.threads t).running = some r → Locked r.rest → t ∈ C

variable {σ₀ : L → V} {s : State T K Op Cmd (L → V) Out} {C : Set T}
  {order : List (Entry T Cmd Out)}

theorem serialInv_init (σ₀ : L → V) (todo : T → List Cmd)
    (htodo : ∀ t, ∀ c ∈ todo t, Disciplined fp guard (fun _ => none) (M.code c)) :
    SerialInv fp guard σ₀ (State.init σ₀ todo) ∅ [] where
  locks := lockInv_init σ₀ todo
  thread t :=
    { todo := htodo t
      idle := fun _ => rfl
      running := fun _ h => absurd h (by simp [State.init])
      locked := fun h => absurd h (by simp)
      growing := fun _ h => absurd h (by simp [State.init])
      finished := fun _ _ _ h => absurd h (by simp [State.init])
      promised := fun _ h => absurd h (by simp)
      ahead := fun _ h => absurd h (by simp) }
  outs := rfl
  free _ _ := rfl
  range _ h := absurd h (by simp)
  program := List.Pairwise.nil
  realtime := List.Pairwise.nil
  logged _ _ h := absurd h (by simp [State.init])

/-- A thread that is not past its lock point sees, on what it holds, the serial store. -/
theorem SerialInv.store_eq (hI : SerialInv fp guard σ₀ s C order) {t : T} (ht : t ∉ C) {l : L}
    (hl : s.held t (guard l) ≠ none) :
    s.store l = (serial M (order.map Entry.cmd) σ₀).1 l := by
  by_cases hfree : ∀ u ∈ C, s.held u (guard l) = none
  · exact hI.free l hfree
  · -- another thread past its lock point shares the lock, so it only reads the location
    obtain ⟨u, hu, hul⟩ : ∃ u ∈ C, s.held u (guard l) ≠ none := by
      by_contra hno
      exact hfree fun u hu => by
        by_contra hne
        exact hno ⟨u, hu, hne⟩
    obtain ⟨r, hr, hlk⟩ := (hI.thread u).locked hu
    have hshared : s.held u (guard l) ≠ some .exclusive := by
      intro hx
      obtain ⟨m, hm⟩ := Option.ne_none_iff_exists'.mp hl
      exact ht (hI.locks.exclusion hx hm ▸ hu)
    rw [← (hI.thread u).ahead r hu hr l hul]
    exact (runCode_frame ((hI.thread u).running r hr) hlk hshared s.store).symm

/-- **The lock point.** A thread that has taken its last lock joins the serial order. -/
theorem SerialInv.commit (hI : SerialInv fp guard σ₀ s C order) {t : T}
    {r : Running K Op Cmd Out} (ht : t ∉ C) (hr : (s.threads t).running = some r)
    (hlk : Locked r.rest) :
    ∃ e : Entry T Cmd Out, SerialInv fp guard σ₀ s (insert t C) (order ++ [e]) := by
  obtain ⟨houts, hcode⟩ := (hI.thread t).growing r hr ht
  have hd := (hI.thread t).running r hr
  -- on what the thread holds, the concurrent run and the serial run go the same way
  have hsame := runCode_congr (M := M) hd hlk
    (σ := s.store) (τ := (serial M (order.map Entry.cmd) σ₀).1) (fun l hl => hI.store_eq ht hl)
  obtain ⟨e, het, hei, hec, heo⟩ : ∃ e : Entry T Cmd Out, e.thread = t ∧
      e.index = (s.threads t).finished.length ∧ e.cmd = r.cmd ∧
      e.outs = (runCode M r.rest (serial M (order.map Entry.cmd) σ₀).1).2 :=
    ⟨⟨t, _, r.cmd, _⟩, rfl, rfl, rfl, rfl⟩
  refine ⟨e, ?_⟩
  have hserial : serial M ((order ++ [e]).map Entry.cmd) σ₀
      = ((runCode M r.rest (serial M (order.map Entry.cmd) σ₀).1).1,
          (serial M (order.map Entry.cmd) σ₀).2
            ++ [(runCode M r.rest (serial M (order.map Entry.cmd) σ₀).1).2]) := by
    rw [List.map_append, List.map_singleton, serial_concat, hec, hcode]
  -- the serial store changes only where the thread holds the lock exclusively
  have hother : ∀ l, s.held t (guard l) ≠ some .exclusive →
      (runCode M r.rest (serial M (order.map Entry.cmd) σ₀).1).1 l
        = (serial M (order.map Entry.cmd) σ₀).1 l :=
    fun l hl => runCode_frame hd hlk hl _
  constructor
  · exact hI.locks
  · intro u
    rw [hserial]
    have hu := hI.thread u
    constructor
    · exact hu.todo
    · exact hu.idle
    · exact hu.running
    · intro hmem
      rcases Set.mem_insert_iff.mp hmem with rfl | hmem'
      · exact ⟨r, hr, hlk⟩
      · exact hu.locked hmem'
    · exact fun q hq hmem => hu.growing q hq (fun h => hmem (Set.mem_insert_of_mem t h))
    · exact fun i c os h => List.mem_append_left _ (hu.finished i c os h)
    · intro q hmem hq
      rcases Set.mem_insert_iff.mp hmem with rfl | hmem'
      · obtain rfl : r = q := Option.some.inj (hr.symm.trans hq)
        rw [houts, List.nil_append, hsame.1, ← hei, ← hec, ← heo, ← het]
        exact List.mem_append_right _ List.mem_cons_self
      · exact List.mem_append_left _ (hu.promised q hmem' hq)
    · intro q hmem hq l hl
      rcases Set.mem_insert_iff.mp hmem with rfl | hmem'
      · obtain rfl : r = q := Option.some.inj (hr.symm.trans hq)
        exact hsame.2 l hl
      · -- a thread that was past its lock point holds nothing the new one writes
        rw [hother l, hu.ahead q hmem' hq l hl]
        intro hx
        obtain ⟨m, hm⟩ := Option.ne_none_iff_exists'.mp hl
        exact ht (hI.locks.exclusion hx hm ▸ hmem')
  · -- the outputs of the serial run are those of its entries
    rw [hserial, hI.outs, List.map_append, List.map_singleton, heo]
  · intro l hl
    rw [hserial, hother l (by simp [hl t (Set.mem_insert t C)])]
    exact hI.free l (fun u hu => hl u (Set.mem_insert_of_mem t hu))
  · intro x hx
    rcases List.mem_append.mp hx with hx' | hx'
    · exact (hI.range x hx').imp id (fun h => ⟨h.1, Set.mem_insert_of_mem t h.2⟩)
    · obtain rfl := List.mem_singleton.mp hx'
      exact Or.inr ⟨by rw [hei, het], het ▸ Set.mem_insert x.thread C⟩
  · -- earlier commands of the same thread have finished
    rw [List.pairwise_append]
    refine ⟨hI.program, List.pairwise_singleton _ _, ?_⟩
    intro x hx y hy hxy
    rw [List.mem_singleton.mp hy] at hxy ⊢
    rcases hI.range x hx with hlt | ⟨_, hC⟩
    · rwa [hei, ← het, ← hxy]
    · exact absurd (het ▸ hxy ▸ hC) ht
  · -- the command has not finished, so nothing started after it
    rw [List.pairwise_append]
    refine ⟨hI.realtime, List.pairwise_singleton _ _, ?_⟩
    intro x _ y hy hbefore
    rw [List.mem_singleton.mp hy] at hbefore
    have hlt := hI.logged _ _ hbefore.mem
    simp only [Entry.id, het, hei] at hlt
    exact absurd hlt (Nat.lt_irrefl _)
  · exact hI.logged

/-! ### What each step keeps -/

/-- Starting a command: nothing is held and nothing promised yet. -/
theorem SerialInv.start (hI : SerialInv fp guard σ₀ s C order) {t : T} {c : Cmd} {cs : List Cmd}
    (hrun : (s.threads t).running = none) (htodo : (s.threads t).todo = c :: cs) :
    t ∉ C ∧ SerialInv fp guard σ₀
      { s.setThread t ⟨cs, some ⟨c, M.code c, []⟩, (s.threads t).finished⟩ with
        log := s.log ++ [.start t (s.threads t).finished.length] } C order := by
  have ht := hI.thread t
  have htC : t ∉ C := by
    intro h
    obtain ⟨r, hr, _⟩ := ht.locked h
    exact absurd (hrun.symm.trans hr) (by simp)
  have hfin : ∀ u, ((s.setThread t ⟨cs, some ⟨c, M.code c, []⟩, (s.threads t).finished⟩).threads
      u).finished = (s.threads u).finished := by
    intro u
    by_cases hu : u = t
    · subst hu; simp
    · rw [setThread_ne _ _ _ hu]
  refine ⟨htC, ?_⟩
  constructor
  · exact hI.locks.congr rfl
  · intro u
    by_cases hu : u = t
    · subst hu
      have hdc := ht.todo c (by rw [htodo]; exact List.mem_cons_self)
      rw [← ht.idle hrun] at hdc
      simp only [setThread_self]
      constructor
      · exact fun d hd => ht.todo d (by rw [htodo]; exact List.mem_cons_of_mem c hd)
      · exact fun h => absurd h (by simp)
      · intro r hr
        obtain rfl := Option.some.inj hr
        exact hdc
      · exact fun h => absurd h htC
      · intro r hr _
        obtain rfl := Option.some.inj hr
        exact ⟨rfl, fun _ => rfl⟩
      · exact ht.finished
      · exact fun _ h => absurd h htC
      · exact fun _ h => absurd h htC
    · simp only [setThread_ne _ _ _ hu]
      exact hI.thread u
  · exact hI.outs
  · exact hI.free
  · intro e he
    simp only [hfin]
    exact hI.range e he
  · exact hI.program
  · refine List.Pairwise.imp_of_mem ?_ hI.realtime
    intro x y hx _ hno hbefore
    rcases pair_sublist_concat hbefore with hold | ⟨hstart, _⟩
    · exact hno hold
    · -- the command that starts now is not in the order yet
      obtain ⟨hxt, hxi⟩ := Event.start.inj hstart
      simp only [Entry.id] at hxt hxi
      rcases hI.range x hx with hlt | ⟨_, hC⟩
      · rw [hxt, hxi] at hlt
        exact absurd hlt (Nat.lt_irrefl _)
      · exact htC (hxt ▸ hC)
  · intro u i h
    simp only [hfin]
    rcases List.mem_append.mp h with h' | h'
    · exact hI.logged u i h'
    · exact absurd h' (by simp)

/-- Ending a command: its outputs are those it was promised. -/
theorem SerialInv.finish (hI : SerialInv fp guard σ₀ s C order) {t : T} {c : Cmd} {os : List Out}
    (htC : t ∈ C) (hrun : (s.threads t).running = some ⟨c, [], os⟩) :
    SerialInv fp guard σ₀
      { s.setThread t ⟨(s.threads t).todo, none, (s.threads t).finished ++ [(c, os)]⟩ with
        log := s.log ++ [.finish t (s.threads t).finished.length] } (C \ {t}) order := by
  have ht := hI.thread t
  have hnone : s.held t = fun _ => none := funext (ht.running _ hrun)
  constructor
  · exact hI.locks.congr rfl
  · intro u
    by_cases hu : u = t
    · subst hu
      have hout : u ∉ C \ {u} := by simp
      simp only [setThread_self]
      constructor
      · exact ht.todo
      · exact fun _ => hnone
      · exact fun _ h => absurd h (by simp)
      · exact fun h => absurd h hout
      · exact fun _ h => absurd h (by simp)
      · intro i d ds h
        rcases Nat.lt_trichotomy i (s.threads u).finished.length with hlt | heq | hgt
        · rw [List.getElem?_append_left hlt] at h
          exact ht.finished i d ds h
        · -- the command that ends now: nothing remains, so it has returned what it was promised
          subst heq
          rw [List.getElem?_append_right (Nat.le_refl _), Nat.sub_self] at h
          obtain ⟨rfl, rfl⟩ := Prod.mk.inj (Option.some.inj h)
          have hp := ht.promised _ htC hrun
          simp only [runCode, List.append_nil] at hp
          exact hp
        · rw [List.getElem?_eq_none (by simp; omega)] at h
          exact absurd h (by simp)
      · exact fun _ h => absurd h hout
      · exact fun _ h => absurd h hout
    · have hmem : u ∈ C \ {t} ↔ u ∈ C := by simp [hu]
      simp only [setThread_ne _ _ _ hu, hmem]
      exact hI.thread u
  · exact hI.outs
  · intro l hl
    refine hI.free l (fun u hu => ?_)
    by_cases hut : u = t
    · rw [hut, hnone]
    · exact hl u ⟨hu, hut⟩
  · intro e he
    by_cases het : e.thread = t
    · simp only [het, setThread_self, List.length_append, List.length_singleton]
      refine Or.inl ?_
      rcases hI.range e he with hlt | ⟨heq, _⟩
      · rw [het] at hlt; omega
      · rw [het] at heq; omega
    · simp only [setThread_ne _ _ _ het]
      exact (hI.range e he).imp id (fun h => ⟨h.1, h.2, het⟩)
  · exact hI.program
  · refine hI.realtime.imp ?_
    intro x y hno hbefore
    rcases pair_sublist_concat hbefore with hold | ⟨hfin, _⟩
    · exact hno hold
    · exact absurd hfin (by simp)
  · intro u i h
    rcases List.mem_append.mp h with h' | h'
    · have := hI.logged u i h'
      by_cases hut : u = t
      · subst hut
        simp only [setThread_self, List.length_append, List.length_singleton]
        omega
      · simpa only [setThread_ne _ _ _ hut] using this
    · obtain ⟨rfl, rfl⟩ := Event.finish.inj (List.mem_singleton.mp h')
      simp

/-- A step inside a command leaves the order and the history alone: what is left to show is what it
    does to the locks, the store and the threads. -/
theorem SerialInv.advance (hI : SerialInv fp guard σ₀ s C order) {t : T}
    {r : Running K Op Cmd Out} {s' : State T K Op Cmd (L → V) Out}
    (hthreads : s'.threads
      = Function.update s.threads t ⟨(s.threads t).todo, some r, (s.threads t).finished⟩)
    (hlog : s'.log = s.log) (hlocks : LockInv s')
    (hself : ThreadInv fp guard order s'.store (serial M (order.map Entry.cmd) σ₀).1 t
      ⟨(s.threads t).todo, some r, (s.threads t).finished⟩ (s'.held t) (t ∈ C))
    (hothers : ∀ u, u ≠ t → ThreadInv fp guard order s'.store
      (serial M (order.map Entry.cmd) σ₀).1 u (s.threads u) (s'.held u) (u ∈ C))
    (hfree : ∀ l, (∀ u ∈ C, s'.held u (guard l) = none) →
      s'.store l = (serial M (order.map Entry.cmd) σ₀).1 l) :
    SerialInv fp guard σ₀ s' C order := by
  have hfin : ∀ u, (s'.threads u).finished = (s.threads u).finished := by
    intro u
    rw [hthreads]
    by_cases hu : u = t
    · subst hu; simp
    · rw [Function.update_of_ne hu]
  constructor
  · exact hlocks
  · intro u
    rw [hthreads]
    by_cases hu : u = t
    · subst hu
      rw [Function.update_self]
      exact hself
    · rw [Function.update_of_ne hu]
      exact hothers u hu
  · exact hI.outs
  · exact hfree
  · intro e he
    rw [hfin]
    exact hI.range e he
  · exact hI.program
  · rw [hlog]
    exact hI.realtime
  · intro u i h
    rw [hfin]
    exact hI.logged u i (hlog ▸ h)

omit [DecidableEq T] in
/-- A thread past its lock point goes on to `p`, which keeps its promises. -/
theorem ThreadInv.pastLock {σ τ σ' : L → V} {t : T} {th : Thread K Op Cmd Out}
    {H H' : K → Option Mode} {past : Prop} (ht : ThreadInv fp guard order σ τ t th H past)
    (hpast : past) {c : Cmd} {p : List (Instr K Op)} {os : List Out}
    (hd : Disciplined fp guard H' p) (hlk : Locked p)
    (hpromised : ⟨t, th.finished.length, c, os ++ (runCode M p σ').2⟩ ∈ order)
    (hahead : ∀ l, H' (guard l) ≠ none → (runCode M p σ').1 l = τ l) :
    ThreadInv fp guard order σ' τ t ⟨th.todo, some ⟨c, p, os⟩, th.finished⟩ H' past where
  todo := ht.todo
  idle := fun h => absurd h (by simp)
  running := by
    intro r hr
    obtain rfl := Option.some.inj hr
    exact hd
  locked := fun _ => ⟨_, rfl, hlk⟩
  growing := fun _ _ h => absurd hpast h
  finished := ht.finished
  promised := by
    intro r _ hr
    obtain rfl := Option.some.inj hr
    exact hpromised
  ahead := by
    intro r _ hr
    obtain rfl := Option.some.inj hr
    exact hahead

/-- Taking a lock, before the lock point. -/
theorem SerialInv.acquire (hI : SerialInv fp guard σ₀ s C order) {t : T} {c : Cmd} {k : K} {m : Mode}
    {p : List (Instr K Op)} {os : List Out}
    (hrun : (s.threads t).running = some ⟨c, .acquire k m :: p, os⟩)
    (hfree : compatible m (s.locks k) = true) :
    t ∉ C ∧ SerialInv fp guard σ₀ ((s.setLock k ((t, m) :: s.locks k)).setThread t
      ⟨(s.threads t).todo, some ⟨c, p, os⟩, (s.threads t).finished⟩) C order := by
  have ht := hI.thread t
  have htC : t ∉ C := by
    intro h
    obtain ⟨r, hr, hlk⟩ := ht.locked h
    obtain rfl := Option.some.inj (hrun.symm.trans hr)
    exact absurd (hlk _ List.mem_cons_self) (by simp [Instr.isAcquire])
  obtain ⟨hnew, hd⟩ := ht.running _ hrun
  have hC : ∀ u ∈ C, u ≠ t := fun u hu h => htC (h ▸ hu)
  refine ⟨htC, hI.advance rfl rfl ((hI.locks.acquire hfree hnew).congr rfl) ?_ ?_ ?_⟩
  · rw [setThread_held, held_acquire_self]
    constructor
    · exact ht.todo
    · exact fun h => absurd h (by simp)
    · intro r hr
      obtain rfl := Option.some.inj hr
      exact hd
    · exact fun h => absurd h htC
    · intro r hr _
      obtain rfl := Option.some.inj hr
      have hg := ht.growing _ hrun htC
      exact hg
    · exact ht.finished
    · exact fun _ h => absurd h htC
    · exact fun _ h => absurd h htC
  · intro u hu
    rw [setThread_held, held_acquire_ne hu]
    exact hI.thread u
  · intro l hl
    refine hI.free l (fun u hu => ?_)
    rw [← hl u hu]
    exact (congrFun (held_acquire_ne (hC u hu) m) (guard l)).symm

/-- One operation, past the lock point: the others hold nothing that it writes. -/
theorem SerialInv.perform (hI : SerialInv fp guard σ₀ s C order) {t : T} {c : Cmd} {o : Op}
    {p : List (Instr K Op)} {os : List Out} (htC : t ∈ C)
    (hrun : (s.threads t).running = some ⟨c, .perform o :: p, os⟩) :
    SerialInv fp guard σ₀ { s.setThread t ⟨(s.threads t).todo,
        some ⟨c, p, os ++ [(M.exec o s.store).2]⟩, (s.threads t).finished⟩ with
      store := (M.exec o s.store).1 } C order := by
  have ht := hI.thread t
  obtain ⟨hcov, hlk, hd⟩ := ht.running _ hrun
  -- a location whose lock is not held exclusively by `t` is not written
  have hkeep : ∀ l, s.held t (guard l) ≠ some .exclusive → (M.exec o s.store).1 l = s.store l := by
    intro l hl
    refine fp.frame o s.store l (fun hx => ?_)
    obtain ⟨m', hm', hx'⟩ := hcov l _ hx
    exact hl (by rw [hm', hx' rfl])
  refine hI.advance rfl rfl (hI.locks.congr rfl) ?_ ?_ ?_
  · apply ht.pastLock htC hd hlk
    · have hp := ht.promised _ htC hrun
      simp only [runCode] at hp
      simpa only [List.append_assoc, List.singleton_append] using hp
    · exact ht.ahead _ htC hrun
  · intro u hu
    have hIu := hI.thread u
    -- `u` holds nothing that `t` holds exclusively
    have hag : ∀ l, s.held u (guard l) ≠ none → (M.exec o s.store).1 l = s.store l := by
      intro l hl
      refine hkeep l (fun hx => ?_)
      obtain ⟨m, hm⟩ := Option.ne_none_iff_exists'.mp hl
      exact hu (hI.locks.exclusion hx hm)
    constructor
    · exact hIu.todo
    · exact hIu.idle
    · exact hIu.running
    · exact hIu.locked
    · exact hIu.growing
    · exact hIu.finished
    · -- what `u` has promised depends only on what it holds
      intro r huC hr
      obtain ⟨r', hr', hlk'⟩ := hIu.locked huC
      obtain rfl := Option.some.inj (hr.symm.trans hr')
      rw [(runCode_congr (M := M) (hIu.running r hr) hlk' hag).1]
      exact hIu.promised r huC hr
    · intro r huC hr l hl
      obtain ⟨r', hr', hlk'⟩ := hIu.locked huC
      obtain rfl := Option.some.inj (hr.symm.trans hr')
      rw [(runCode_congr (M := M) (hIu.running r hr) hlk' hag).2 l hl]
      exact hIu.ahead r huC hr l hl
  · intro l hl
    have hnone : s.held t (guard l) = none := hl t htC
    exact (hkeep l (by simp [hnone])).trans (hI.free l hl)

/-- Giving a lock back, past the lock point: what it guards has reached its serial value. -/
theorem SerialInv.release (hI : SerialInv fp guard σ₀ s C order) {t : T} {c : Cmd} {k : K}
    {p : List (Instr K Op)} {os : List Out} (htC : t ∈ C)
    (hrun : (s.threads t).running = some ⟨c, .release k :: p, os⟩) :
    SerialInv fp guard σ₀ ((s.setLock k ((s.locks k).eraseP (fun h => h.1 = t))).setThread t
      ⟨(s.threads t).todo, some ⟨c, p, os⟩, (s.threads t).finished⟩) C order := by
  have ht := hI.thread t
  obtain ⟨_, hlk, hd⟩ := ht.running _ hrun
  refine hI.advance rfl rfl ((hI.locks.release t k).congr rfl) ?_ ?_ ?_
  · rw [setThread_held, held_release_self hI.locks]
    apply ht.pastLock htC hd hlk
    · exact ht.promised _ htC hrun
    · intro l hl
      refine ht.ahead _ htC hrun l (fun hnone => hl ?_)
      by_cases hk : guard l = k
      · rw [hk, Function.update_self]
      · rw [Function.update_of_ne hk, hnone]
  · intro u hu
    rw [setThread_held, held_release_ne hu]
    exact hI.thread u
  · intro l hl
    by_cases hold : s.held t (guard l) = none
    · refine hI.free l (fun u hu => ?_)
      by_cases hut : u = t
      · rw [hut, hold]
      · rw [← hl u hu]
        exact (congrFun (held_release_ne hut) (guard l)).symm
    · -- `l` is guarded by the lock given back, so nothing that remains writes it
      have hgone : Function.update (s.held t) k none (guard l) = none := by
        rw [← held_release_self hI.locks]
        exact hl t htC
      rw [← ht.ahead _ htC hrun l hold]
      exact (runCode_frame (M := M) hd hlk (by simp [hgone]) s.store).symm

/-- **Step lemma.** Every step of every thread keeps the invariant, for some larger serial order. -/
theorem serialInv_step (hI : SerialInv fp guard σ₀ s C order) (hC : Synced s C) {t : T}
    {s' : State T K Op Cmd (L → V) Out} (hstep : Step M t s s') :
    ∃ C' order', SerialInv fp guard σ₀ s' C' order' ∧ Synced s' C' := by
  -- a step that leaves `C` and the order alone may still have passed the lock point of `t`
  have hsync : ∀ {s'' : State T K Op Cmd (L → V) Out}, SerialInv fp guard σ₀ s'' C order →
      t ∉ C → (∀ u, u ≠ t → s''.threads u = s.threads u) →
      ∃ C' order', SerialInv fp guard σ₀ s'' C' order' ∧ Synced s'' C' := by
    intro s'' hI'' htC hothers
    by_cases hlk : ∃ r, (s''.threads t).running = some r ∧ Locked r.rest
    · obtain ⟨r, hr, hr'⟩ := hlk
      obtain ⟨e, he⟩ := hI''.commit htC hr hr'
      refine ⟨insert t C, order ++ [e], he, fun u q hq hql => ?_⟩
      by_cases hu : u = t
      · exact hu ▸ Set.mem_insert t C
      · exact Set.mem_insert_of_mem t (hC u q (hothers u hu ▸ hq) hql)
    · refine ⟨C, order, hI'', fun u q hq hql => ?_⟩
      by_cases hu : u = t
      · exact absurd ⟨q, hu ▸ hq, hql⟩ hlk
      · exact hC u q (hothers u hu ▸ hq) hql
  cases hstep with
  | start hrun htodo =>
      obtain ⟨htC, hI'⟩ := hI.start hrun htodo
      exact hsync hI' htC (fun u hu => setThread_ne _ _ _ hu)
  | finish hrun =>
      have htC : t ∈ C := hC t _ hrun (fun _ h => absurd h (by simp))
      refine ⟨_, _, hI.finish htC hrun, fun u q hq hql => ?_⟩
      have hut : u ≠ t := by rintro rfl; simp at hq
      simp only [setThread_ne _ _ _ hut] at hq
      exact ⟨hC u q hq hql, hut⟩
  | acquire hrun hfree =>
      obtain ⟨htC, hI'⟩ := hI.acquire hrun hfree
      exact hsync hI' htC (fun u hu => setThread_ne _ _ _ hu)
  | perform hrun =>
      obtain ⟨_, hlk, _⟩ := (hI.thread t).running _ hrun
      have htC : t ∈ C := hC t _ hrun (locked_cons rfl hlk)
      refine ⟨_, _, hI.perform htC hrun, fun u q hq hql => ?_⟩
      by_cases hut : u = t
      · exact hut ▸ htC
      · simp only [setThread_ne _ _ _ hut] at hq
        exact hC u q hq hql
  | release hrun =>
      obtain ⟨_, hlk, _⟩ := (hI.thread t).running _ hrun
      have htC : t ∈ C := hC t _ hrun (locked_cons rfl hlk)
      refine ⟨_, _, hI.release htC hrun, fun u q hq hql => ?_⟩
      by_cases hut : u = t
      · exact hut ▸ htC
      · simp only [setThread_ne _ _ _ hut] at hq
        exact hC u q hq hql

/-- What it means for `order` to explain a run that started from `σ₀` and ended in `s`: it lists
    exactly the finished commands with their outputs, respects the order inside each thread and real
    time, and run one at a time from `σ₀` gives the outputs and the store of the run. -/
structure Explains (M : Machine K Op Cmd (L → V) Out) (σ₀ : L → V)
    (s : State T K Op Cmd (L → V) Out) (order : List (Entry T Cmd Out)) : Prop where
  entries : ∀ e, e ∈ order ↔ (s.threads e.thread).finished[e.index]? = some (e.cmd, e.outs)
  program : order.Pairwise (fun x y => x.thread = y.thread → x.index < y.index)
  realtime : order.Pairwise (fun x y => ¬ FinishedBefore s.log y.id x.id)
  serial_eq : serial M (order.map Entry.cmd) σ₀ = (s.store, order.map Entry.outs)

theorem SerialInv.explains (hI : SerialInv fp guard σ₀ s C order)
    (hquiet : ∀ t, (s.threads t).running = none) : Explains M σ₀ s order := by
  have hC : ∀ t, t ∉ C := by
    intro t h
    obtain ⟨r, hr, _⟩ := (hI.thread t).locked h
    exact absurd ((hquiet t).symm.trans hr) (by simp)
  refine ⟨fun e => ⟨fun he => ?_, fun he => (hI.thread _).finished _ _ _ he⟩, hI.program,
    hI.realtime, ?_⟩
  · -- the finished command with this number has an entry, and numbers are not used twice
    have hlt : e.index < (s.threads e.thread).finished.length :=
      (hI.range e he).resolve_right (fun h => hC _ h.2)
    obtain ⟨⟨c, os⟩, hget⟩ : ∃ x, (s.threads e.thread).finished[e.index]? = some x :=
      ⟨_, List.getElem?_eq_getElem hlt⟩
    have hmem := (hI.thread e.thread).finished _ _ _ hget
    have hdistinct : order.Pairwise (fun x y => ¬ (x.thread = y.thread ∧ x.index = y.index)) :=
      hI.program.imp (fun h ⟨h₁, h₂⟩ => absurd (h h₁) (by omega))
    have hsymm : Std.Symm (fun x y : Entry T Cmd Out =>
        ¬ (x.thread = y.thread ∧ x.index = y.index)) :=
      ⟨fun _ _ h ⟨h₁, h₂⟩ => h ⟨h₁.symm, h₂.symm⟩⟩
    have heq : e = ⟨e.thread, e.index, c, os⟩ := by
      by_contra hne
      exact hdistinct.forall he hmem hne ⟨rfl, rfl⟩
    rw [hget, heq]
  · refine Prod.ext (funext fun l => ?_) hI.outs
    exact (hI.free l (fun t ht => absurd ht (hC t))).symm

/-- **Disciplined commands are serializable.** For every schedule after which no command is in
    progress there is a serial order that explains the run. -/
theorem serializable_of_disciplined {todo : T → List Cmd}
    (htodo : ∀ t, ∀ c ∈ todo t, Disciplined fp guard (fun _ => none) (M.code c))
    {sched : List T} (hrun : run M sched (State.init σ₀ todo) = some s)
    (hquiet : ∀ t, (s.threads t).running = none) :
    ∃ order, Explains M σ₀ s order := by
  have hinv : ∃ C order, SerialInv fp guard σ₀ s C order ∧ Synced s C := by
    refine run_invariant (fun s => ∃ C order, SerialInv fp guard σ₀ s C order ∧ Synced s C)
      ?_ ⟨∅, [], serialInv_init σ₀ todo htodo, ?_⟩ hrun
    · rintro t u u' ⟨C, order, hI, hC⟩ hstep
      exact serialInv_step hI hC hstep
    · exact fun t r hr => absurd hr (by simp [State.init])
  obtain ⟨C, order, hI, _⟩ := hinv
  exact ⟨order, hI.explains hquiet⟩

end Serializable

/-! ## Commands in three phases -/

section Phases

variable {exec : Op → (L → V) → (L → V) × Out} {fp : Footprint exec} {guard : L → K}

omit [DecidableEq K] in
theorem locked_releases (rels : List K) : Locked (rels.map Instr.release : List (Instr K Op)) := by
  intro i hi
  obtain ⟨k, _, rfl⟩ := List.mem_map.mp hi
  rfl

omit [DecidableEq K] in
theorem locked_performs {p : List (Instr K Op)} (hp : Locked p) (ops : List Op) :
    Locked (ops.map Instr.perform ++ p) := by
  intro i hi
  rcases List.mem_append.mp hi with hi | hi
  · obtain ⟨o, _, rfl⟩ := List.mem_map.mp hi
    rfl
  · exact hp i hi

/-- Giving back exactly what is held is disciplined. -/
theorem disciplined_releases {rels : List K} (hnd : rels.Nodup) {H : K → Option Mode}
    (hH : ∀ k, H k ≠ none ↔ k ∈ rels) : Disciplined fp guard H (rels.map Instr.release) := by
  induction rels generalizing H with
  | nil => exact fun k => not_not.mp (fun h => absurd ((hH k).mp h) (by simp))
  | cons k rels ih =>
      rw [List.nodup_cons] at hnd
      refine ⟨(hH k).mpr List.mem_cons_self, locked_releases rels, ih hnd.2 (fun j => ?_)⟩
      by_cases hj : j = k
      · subst hj
        simp [hnd.1]
      · rw [Function.update_of_ne hj, hH j, List.mem_cons, or_iff_right hj]

theorem disciplined_performs {H : K → Option Mode} {ops : List Op}
    (hops : ∀ o ∈ ops, Covered fp guard H o) {p : List (Instr K Op)} (hl : Locked p)
    (hp : Disciplined fp guard H p) : Disciplined fp guard H (ops.map Instr.perform ++ p) := by
  induction ops with
  | nil => exact hp
  | cons o ops ih =>
      exact ⟨hops o List.mem_cons_self, locked_performs hl ops,
        ih (fun o' ho' => hops o' (List.mem_cons_of_mem o ho'))⟩

theorem disciplined_acquires {acqs : List (K × Mode)} (hnd : (acqs.map Prod.fst).Nodup)
    {H : K → Option Mode} (hfree : ∀ k ∈ acqs.map Prod.fst, H k = none) {p : List (Instr K Op)}
    (hp : Disciplined fp guard (holding H acqs) p) :
    Disciplined fp guard H (acqs.map (fun a => Instr.acquire a.1 a.2) ++ p) := by
  induction acqs generalizing H with
  | nil => exact hp
  | cons a acqs ih =>
      rw [List.map_cons, List.nodup_cons] at hnd
      refine ⟨hfree a.1 List.mem_cons_self, ih hnd.2 (fun k hk => ?_) hp⟩
      have hka : k ≠ a.1 := by rintro rfl; exact hnd.1 hk
      rw [Function.update_of_ne hka]
      exact hfree k (List.mem_cons_of_mem a.1 hk)

/-- **Three phases are disciplined**: distinct locks taken, operations they cover, the same locks given
    back in any order. -/
theorem disciplined_phases {acqs : List (K × Mode)} {ops : List Op} {rels : List K}
    (hnd : (acqs.map Prod.fst).Nodup) (hrels : rels.Perm (acqs.map Prod.fst))
    (hops : ∀ o ∈ ops, ∀ l m, fp.access o l = some m →
      ∃ m', (guard l, m') ∈ acqs ∧ (m = .exclusive → m' = .exclusive)) :
    Disciplined fp guard (fun _ => none) (phases acqs ops rels) := by
  refine disciplined_acquires hnd (fun _ _ => rfl)
    (disciplined_performs (fun o ho l m hm => ?_) (locked_releases rels)
      (disciplined_releases (hrels.nodup_iff.mpr hnd) (fun k => ?_)))
  · obtain ⟨m', hmem, hx⟩ := hops o ho l m hm
    exact ⟨m', holding_of_mem hnd hmem _, hx⟩
  · rw [holding_ne_none_iff hnd, hrels.mem_iff]

end Phases

end Locking
