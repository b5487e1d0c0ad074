import Kvs.Server.StartUp

/-!
# `Correctness.StartUp` — what the start of the server leaves of the registration queue

From the first `sem_init` on the ring is that of `Lib.BoundedBuffer` in every run (`StartInv`), however
`main`, the host and the managers are scheduled. Every run comes to a stop; and when nothing undefined has
happened, which is when the host came to no semaphore too early (`undefined_iff`), everything read has
been handed to a manager by then (`handed_of_stopped`).
-/

namespace Kvs.Server

open BoundedBuffer Transition

variable {write : List Byte → List Byte → List Byte} {reads : List (List Byte)} {s s' : StartState}

/-! ## The ring -/

/-- What holds of the ring from the creation of the host's thread on. -/
structure StartInv (write : List Byte → List Byte → List Byte) (reads : List (List Byte))
    (s : StartState) : Prop where
  before : s.main = .initSpace →
    s.queue = { registrationQueue (Fin MAX_SESSION_COUNT) reads with space := 0 }
  items : s.main = .initClients → s.queue.items = 0
  ring : s.main ≠ .initSpace → RingInv write (fun _ => List.replicate SLOT_SIZE 0) reads s.queue

theorem startInv_init (write : List Byte → List Byte → List Byte) (reads : List (List Byte)) :
    StartInv write reads (startState reads) where
  before _ := rfl
  items h := absurd h (by simp [startState])
  ring h := absurd rfl h

/-- Once `main` has created a manager, both semaphores are initialised. -/
theorem created_inv {main : StartPc} {t : Fin MAX_SESSION_COUNT} (h : main.created t = true) :
    ∃ left, main = .createManagers left := by
  cases main with
  | initSpace => exact absurd h (by simp [StartPc.created])
  | initClients => exact absurd h (by simp [StartPc.created])
  | createManagers left => exact ⟨left, rfl⟩

/-- In front of the second `sem_init` the host announces nothing. -/
theorem stepProducer_items {queue queue' : State MAX_SESSION_COUNT (Fin MAX_SESSION_COUNT) (List Byte)
    (List Byte)} (hready : StartPc.ready .initClients queue.producer = true)
    (hstep : stepProducer write queue = some queue') : queue'.items = queue.items := by
  cases hpc : queue.producer with
  | postItem => exact absurd (hpc ▸ hready) (by simp [StartPc.ready])
  | waitSpace =>
      simp only [stepProducer, hpc] at hstep
      split at hstep
      · rw [← Option.some.inj hstep]
      · exact absurd hstep (by simp)
  | deposit =>
      simp only [stepProducer, hpc] at hstep
      split at hstep
      · exact absurd hstep (by simp)
      · rw [← Option.some.inj hstep]
  | advance =>
      simp only [stepProducer, hpc] at hstep
      rw [← Option.some.inj hstep]

/-- **Step.** Every step of the system keeps the invariant. -/
theorem startInv_step {e : StartEvent} (h : StartInv write reads s)
    (hstep : StartStep write s e s') : StartInv write reads s' := by
  cases hstep with
  | initSpace hpc =>
      -- with its slots free, this is the ring at its start
      have hqueue : { s.queue with space := MAX_SESSION_COUNT }
          = registrationQueue (Fin MAX_SESSION_COUNT) reads := by
        rw [h.before hpc]
        rfl
      refine ⟨fun hmain => absurd hmain (by simp), fun _ => ?_, fun _ => ?_⟩
      · exact congrArg State.items hqueue
      · simp only [hqueue]
        exact ringInv_init _ _ _
  | initClients hpc =>
      have hqueue : { s.queue with items := 0 } = s.queue := by
        rw [← h.items hpc]
      refine ⟨fun hmain => absurd hmain (by simp), fun hmain => absurd hmain (by simp), fun _ => ?_⟩
      simp only [hqueue]
      exact h.ring (by simp [hpc])
  | create hpc =>
      exact ⟨fun hmain => absurd hmain (by simp), fun hmain => absurd hmain (by simp),
        fun _ => h.ring (by simp [hpc])⟩
  | host hready hqueue =>
      refine ⟨fun hmain => ?_, fun hmain => ?_, fun hmain => ?_⟩
      · -- in front of the first `sem_init` the host stands at its `sem_wait`
        rw [hmain, h.before hmain] at hready
        exact absurd hready (by simp [StartPc.ready, registrationQueue, State.init])
      · rw [hmain] at hready
        exact (stepProducer_items hready hqueue).trans (h.items hmain)
      · exact ringInv_step (h.ring hmain) (step_inv (t := .producer) hqueue)
  | uninitialised hready => exact ⟨h.before, h.items, h.ring⟩
  | manager hcreated hfree hqueue =>
      obtain ⟨left, hmain⟩ := created_inv hcreated
      refine ⟨fun hmain' => absurd (hmain.symm.trans hmain') (by simp),
        fun hmain' => absurd (hmain.symm.trans hmain') (by simp), fun _ => ?_⟩
      exact ringInv_step (h.ring (by simp [hmain])) (step_inv (t := .consumer _) hqueue)
  | sessionEnds hin => exact ⟨h.before, h.items, h.ring⟩

/-- **Run.** The invariant holds after every run. -/
theorem startInv_run {es : List StartEvent}
    (hrun : Transition.run (startStep write) es (startState reads) = some s) :
    StartInv write reads s := by
  refine Transition.run_invariant (StartInv write reads) ?_ (startInv_init write reads) hrun
  intro u e u' hu hstep
  exact startInv_step hu (startStep_inv hstep).2

/-! ## Runs to the end -/

/-- The lines `main` has left. -/
def StartPc.work : StartPc → Nat
  | .initSpace => MAX_SESSION_COUNT + 2
  | .initClients => MAX_SESSION_COUNT + 1
  | .createManagers left => left.length

/-- How many steps are left at most. Each step of the ring may bring a session that has to end. -/
def startWork (s : StartState) : Nat :=
  s.main.work + 2 * work s.queue + ∑ t, (s.inSession t).toNat + (!s.undefined).toNat

/-- Every step leaves fewer. -/
theorem startWork_step {e : StartEvent} (hdefined : s.undefined = false)
    (hstep : StartStep write s e s') : startWork s' < startWork s := by
  cases hstep with
  | initSpace hpc =>
      simp only [startWork, hpc, StartPc.work, work]
      omega
  | initClients hpc =>
      simp only [startWork, hpc, StartPc.work, work, List.length_finRange]
      omega
  | create hpc =>
      simp only [startWork, hpc, StartPc.work, List.length_cons]
      omega
  | host hready hqueue =>
      have hline : Step write s.queue _ := step_inv (t := .producer) hqueue
      have hwork := work_step hline
      simp only [startWork]
      omega
  | uninitialised hready =>
      simp [startWork, hdefined]
  | manager hcreated hfree hqueue =>
      rename_i t queue
      have hline : Step write s.queue queue := step_inv (t := .consumer t) hqueue
      have hwork := work_step hline
      have hsum := sum_move Bool.toNat s.inSession t (s.queue.consumers t = .postSpace)
      have hone := Bool.toNat_le (decide (s.queue.consumers t = .postSpace))
      rw [hfree, Bool.toNat_false] at hsum
      simp only [startWork]
      omega
  | sessionEnds hin =>
      rename_i t
      have hsum := sum_move Bool.toNat s.inSession t false
      rw [hin, Bool.toNat_true, Bool.toNat_false] at hsum
      simp only [startWork]
      omega

/-- **Every run comes to a stop.** -/
theorem startRun_length {es : List StartEvent}
    (hrun : Transition.run (startStep write) es s = some s') :
    startWork s' + es.length ≤ startWork s := by
  induction es generalizing s with
  | nil =>
      obtain rfl := Option.some.inj hrun
      exact Nat.le_refl _
  | cons e es ih =>
      obtain ⟨u, hu, hrest⟩ := run_cons_eq_some.mp hrun
      obtain ⟨hdefined, hstep⟩ := startStep_inv hu
      have hhead := startWork_step hdefined hstep
      have htail := ih hrest
      rw [List.length_cons]
      omega

theorem startWork_startState (reads : List (List Byte)) :
    startWork (startState reads) = 20 * reads.length + 8 := by
  simp [startWork, startState, registrationQueue, State.init, work, StartPc.work, ProducerPc.work,
    ConsumerPc.work, MAX_SESSION_COUNT]
  omega

/-! ## Semaphores that are not initialised -/

/-- Only a semaphore that is used too early makes a step undefined. -/
theorem undefined_step_iff {e : StartEvent} (hdefined : s.undefined = false)
    (hstep : StartStep write s e s') : s'.undefined = false ↔ InitialisedFirst s e := by
  cases hstep with
  | host hready hqueue => exact iff_of_true hdefined (fun _ => hready)
  | uninitialised hready => simp [InitialisedFirst, hready]
  | initSpace hpc => exact iff_of_true hdefined (by simp [InitialisedFirst])
  | initClients hpc => exact iff_of_true hdefined (by simp [InitialisedFirst])
  | create hpc => exact iff_of_true hdefined (by simp [InitialisedFirst])
  | manager hcreated hfree hqueue => exact iff_of_true hdefined (by simp [InitialisedFirst])
  | sessionEnds hin => exact iff_of_true hdefined (by simp [InitialisedFirst])

/-- Nothing follows an undefined step. -/
theorem run_undefined {es : List StartEvent} (hs : s.undefined = true)
    (hrun : Transition.run (startStep write) es s = some s') : es = [] ∧ s' = s := by
  cases es with
  | nil => exact ⟨rfl, (Option.some.inj hrun).symm⟩
  | cons e es =>
      obtain ⟨u, hu, _⟩ := run_cons_eq_some.mp hrun
      rw [startStep_undefined hs] at hu
      exact absurd hu (by simp)

/-- A run is defined to its end if and only if the host never comes to a semaphore too early. -/
theorem undefined_iff {es : List StartEvent} (hs : s.undefined = false)
    (hrun : Transition.run (startStep write) es s = some s') :
    s'.undefined = false ↔ StepsMeet (startStep write) InitialisedFirst es s := by
  induction es generalizing s with
  | nil =>
      obtain rfl := Option.some.inj hrun
      exact iff_of_true hs trivial
  | cons e es ih =>
      obtain ⟨u, hu, hrest⟩ := run_cons_eq_some.mp hrun
      have hfirst := undefined_step_iff hs (startStep_inv hu).2
      rw [stepsMeet_cons hu, ← hfirst]
      cases hundef : u.undefined with
      | false =>
          rw [ih hundef hrest]
          exact (and_iff_right rfl).symm
      | true =>
          obtain ⟨_, rfl⟩ := run_undefined hundef hrest
          simp [hundef]

/-- Where the system has stopped with everything defined, no thread of the ring can take a step. -/
theorem blocked_of_stopped (hdefined : s.undefined = false) (hstop : Stopped write s) :
    s.main = .createManagers [] ∧ Blocked write s.queue := by
  have hstep : ∀ e, startStep write s e = none := hstop
  have hsession : ∀ t, s.inSession t = false := by
    intro t
    have ht := hstep (.sessionEnds t)
    cases hin : s.inSession t with
    | false => rfl
    | true => exact absurd ht (by simp [startStep, hdefined, hin])
  have hmain : s.main = .createManagers [] := by
    have hm := hstep .main
    cases hpc : s.main with
    | initSpace => exact absurd hm (by simp [startStep, startMain, hdefined, hpc])
    | initClients => exact absurd hm (by simp [startStep, startMain, hdefined, hpc])
    | createManagers left =>
        cases left with
        | nil => rfl
        | cons t left => exact absurd hm (by simp [startStep, startMain, hdefined, hpc])
  refine ⟨hmain, ?_⟩
  intro t
  cases t with
  | producer =>
      have hhost := hstep .host
      simpa [startStep, step, hdefined, hmain, StartPc.ready] using hhost
  | consumer t =>
      have hmanager := hstep (.manager t)
      simpa [startStep, step, hdefined, hmain, StartPc.created, hsession t] using hmanager

/-- **Nothing is left behind.** Where the system has stopped with everything defined, the managers have
    copied every read. -/
theorem handed_of_stopped (h : StartInv write reads s) (hdefined : s.undefined = false)
    (hstop : Stopped write s) : s.queue.taken.length = reads.length := by
  obtain ⟨hmain, hblocked⟩ := blocked_of_stopped hdefined hstop
  have hring := h.ring (by simp [hmain])
  exact (hring.done_of_blocked hblocked).2

/-- The copies made so far are of the reads, in order. -/
theorem StartInv.taken (h : StartInv write reads s) :
    s.queue.taken.length ≤ reads.length ∧ ∀ j, ∀ hj : j < s.queue.taken.length,
      s.queue.taken[j].2 = leftAt write (fun _ : Fin MAX_SESSION_COUNT => List.replicate SLOT_SIZE 0)
        reads j := by
  by_cases hmain : s.main = .initSpace
  · have hnone : s.queue.taken = [] := by
      rw [h.before hmain]
      rfl
    simp [hnone]
  · have hring := h.ring hmain
    exact ⟨hring.taken_length_le, fun j hj => hring.taken_eq hj⟩

end Kvs.Server
