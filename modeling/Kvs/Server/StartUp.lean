import Kvs.Lib.Transition
import Kvs.Server.Register

/-!
# `Server.StartUp` — `main`, the host and the managers

`main` creates the thread of `host_FIFO`, then initialises both semaphores and creates the manager
threads, one line after the other. The host does not wait for that: its first line is `sem_wait`, and
nothing is defined about a semaphore that is used before its `sem_init`. A manager that has given its
slot back is in the session it opens, for as long as that lasts.
-/

namespace Kvs.Server

open BoundedBuffer

/-! ## The state -/

/-- Where `main` stands once the host's thread is created: in front of either `sem_init`, or in the loop
    of `pthread_create` with the managers that are left. -/
inductive StartPc where
  | initSpace
  | initClients
  | createManagers (left : List (Fin MAX_SESSION_COUNT))
  deriving DecidableEq, Repr

/-- The semaphore of the host's next line, if it has one, is initialised. -/
def StartPc.ready : StartPc → ProducerPc → Bool
  | .initSpace, .waitSpace => false
  | .initSpace, .postItem => false
  | .initClients, .postItem => false
  | _, _ => true

/-- The thread of manager `t` is created. -/
def StartPc.created (t : Fin MAX_SESSION_COUNT) : StartPc → Bool
  | .createManagers left => t ∉ left
  | _ => false

/-- `main`, the ring with its threads, the managers that are in a session, and whether a semaphore has
    been used that was not initialised. -/
structure StartState where
  main : StartPc
  queue : State MAX_SESSION_COUNT (Fin MAX_SESSION_COUNT) (List Byte) (List Byte)
  inSession : Fin MAX_SESSION_COUNT → Bool
  undefined : Bool

/-- The host's thread is created, and neither semaphore holds its value. -/
def startState (reads : List (List Byte)) : StartState where
  main := .initSpace
  queue := { registrationQueue (Fin MAX_SESSION_COUNT) reads with space := 0 }
  inSession := fun _ => false
  undefined := false

/-! ## The steps -/

/-- The next line of `main`, of the host or of a manager, or the end of a manager's session. -/
inductive StartEvent where
  | main
  | host
  | manager (t : Fin MAX_SESSION_COUNT)
  | sessionEnds (t : Fin MAX_SESSION_COUNT)
  deriving DecidableEq, Repr

def startMain (s : StartState) : Option StartState :=
  match s.main with
  | .initSpace =>
      some { s with main := .initClients, queue := { s.queue with space := MAX_SESSION_COUNT } }
  | .initClients =>
      some { s with
        main := .createManagers (List.finRange MAX_SESSION_COUNT)
        queue := { s.queue with items := 0 } }
  | .createManagers [] => none
  | .createManagers (_ :: left) => some { s with main := .createManagers left }

/-- One step of the system, where `write` says what a read makes of a slot. Nothing is defined once a
    semaphore has been used that was not initialised. -/
def startStep (write : List Byte → List Byte → List Byte) (s : StartState) (e : StartEvent) :
    Option StartState :=
  if s.undefined then none
  else
    match e with
    | .main => startMain s
    | .host =>
        if s.main.ready s.queue.producer then
          (stepProducer write s.queue).map (fun queue => { s with queue := queue })
        else some { s with undefined := true }
    | .manager t =>
        if s.main.created t ∧ s.inSession t = false then
          (stepConsumer t s.queue).map (fun queue =>
            { s with
              queue := queue
              inSession := Function.update s.inSession t (s.queue.consumers t = .postSpace) })
        else none
    | .sessionEnds t =>
        if s.inSession t then some { s with inSession := Function.update s.inSession t false }
        else none

/-- The host comes to no semaphore in front of its `sem_init`. -/
def InitialisedFirst (s : StartState) (e : StartEvent) : Prop :=
  e = .host → s.main.ready s.queue.producer = true

instance (s : StartState) (e : StartEvent) : Decidable (InitialisedFirst s e) :=
  inferInstanceAs (Decidable (_ → _))

/-- No thread can take a step, and no session is left to end. -/
def Stopped (write : List Byte → List Byte → List Byte) (s : StartState) : Prop :=
  ∀ e, startStep write s e = none

instance (write : List Byte → List Byte → List Byte) (s : StartState) : Decidable (Stopped write s) :=
  decidable_of_iff
    (startStep write s .main = none ∧ startStep write s .host = none ∧
      (∀ t, startStep write s (.manager t) = none) ∧ ∀ t, startStep write s (.sessionEnds t) = none)
    ⟨fun h e => match e with
      | .main => h.1
      | .host => h.2.1
      | .manager t => h.2.2.1 t
      | .sessionEnds t => h.2.2.2 t,
    fun h => ⟨h .main, h .host, fun t => h (.manager t), fun t => h (.sessionEnds t)⟩⟩

/-- The rules of a step: `main`'s three lines, a line of the ring's threads, the use of a semaphore that
    is not initialised, and the end of a session. -/
inductive StartStep (write : List Byte → List Byte → List Byte) (s : StartState) :
    StartEvent → StartState → Prop where
  | initSpace (hpc : s.main = .initSpace) :
      StartStep write s .main
        { s with main := .initClients, queue := { s.queue with space := MAX_SESSION_COUNT } }
  | initClients (hpc : s.main = .initClients) :
      StartStep write s .main
        { s with
          main := .createManagers (List.finRange MAX_SESSION_COUNT)
          queue := { s.queue with items := 0 } }
  | create {t : Fin MAX_SESSION_COUNT} {left : List (Fin MAX_SESSION_COUNT)}
      (hpc : s.main = .createManagers (t :: left)) :
      StartStep write s .main { s with main := .createManagers left }
  | host {queue : State MAX_SESSION_COUNT (Fin MAX_SESSION_COUNT) (List Byte) (List Byte)}
      (hready : s.main.ready s.queue.producer = true) (hqueue : stepProducer write s.queue = some queue) :
      StartStep write s .host { s with queue := queue }
  | uninitialised (hready : s.main.ready s.queue.producer = false) :
      StartStep write s .host { s with undefined := true }
  | manager {t : Fin MAX_SESSION_COUNT}
      {queue : State MAX_SESSION_COUNT (Fin MAX_SESSION_COUNT) (List Byte) (List Byte)}
      (hcreated : s.main.created t = true) (hfree : s.inSession t = false)
      (hqueue : stepConsumer t s.queue = some queue) :
      StartStep write s (.manager t)
        { s with
          queue := queue
          inSession := Function.update s.inSession t (s.queue.consumers t = .postSpace) }
  | sessionEnds {t : Fin MAX_SESSION_COUNT} (hin : s.inSession t = true) :
      StartStep write s (.sessionEnds t) { s with inSession := Function.update s.inSession t false }

variable {write : List Byte → List Byte → List Byte} {s s' : StartState}

theorem startStep_undefined (h : s.undefined = true) (e : StartEvent) : startStep write s e = none := by
  simp [startStep, h]

/-- **Inversion.** A step is one of the rules, in a state where nothing undefined has happened. -/
theorem startStep_inv {e : StartEvent} (h : startStep write s e = some s') :
    s.undefined = false ∧ StartStep write s e s' := by
  have hdefined : s.undefined = false := by
    cases hundef : s.undefined with
    | false => rfl
    | true => rw [startStep_undefined hundef] at h; exact absurd h (by simp)
  refine ⟨hdefined, ?_⟩
  unfold startStep at h
  rw [if_neg (Bool.eq_false_iff.mp hdefined)] at h
  cases e with
  | main =>
      simp only [startMain] at h
      split at h
      · rename_i hpc
        exact Option.some.inj h ▸ StartStep.initSpace hpc
      · rename_i hpc
        exact Option.some.inj h ▸ StartStep.initClients hpc
      · exact absurd h (by simp)
      · rename_i hpc
        exact Option.some.inj h ▸ StartStep.create hpc
  | host =>
      simp only at h
      split at h
      · rename_i hready
        obtain ⟨queue, hqueue, rfl⟩ := Option.map_eq_some_iff.mp h
        exact StartStep.host hready hqueue
      · rename_i hready
        exact Option.some.inj h ▸ StartStep.uninitialised (Bool.eq_false_iff.mpr hready)
  | manager t =>
      simp only at h
      split at h
      · rename_i hrun
        obtain ⟨queue, hqueue, rfl⟩ := Option.map_eq_some_iff.mp h
        exact StartStep.manager hrun.1 hrun.2 hqueue
      · exact absurd h (by simp)
  | sessionEnds t =>
      simp only at h
      split at h
      · rename_i hin
        exact Option.some.inj h ▸ StartStep.sessionEnds hin
      · exact absurd h (by simp)

end Kvs.Server
