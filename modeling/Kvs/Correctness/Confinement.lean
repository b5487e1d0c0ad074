import Kvs.Correctness.Subscriptions

/-!
# `Correctness.Confinement` — what one client can do to the server

A call that fails on a pipe of a client ends the process, a registration that does not scan leaves the
manager with paths it never stored, and a key without a bucket subscripts outside the arrays. A run whose
steps are free of that (`Harmless`) leaves the process running, and only such a run does
(`server_confined`); each of its steps stays with its own session.
-/

namespace Kvs.Server

/-! ## Harmless steps -/

/-- The operation stays inside the arrays. -/
def SessionOp.InBounds : SessionOp → Prop
  | .subscribe key => HasBucket key
  | .unsubscribe key => HasBucket key
  | .disconnect => True
  | .unrecognized => True
  | .pipeClosed => True

instance : (op : SessionOp) → Decidable op.InBounds
  | .subscribe key => inferInstanceAs (Decidable (HasBucket key))
  | .unsubscribe key => inferInstanceAs (Decidable (HasBucket key))
  | .disconnect => isTrue trivial
  | .unrecognized => isTrue trivial
  | .pipeClosed => isTrue trivial

/-- The registration scans into three paths, the request stays inside the arrays, and no call fails. -/
def Manager.Harmless (manager : Manager) : Result → Prop
  | .taken slot => (sessionPaths slot).isSome = true
  | .got data _ =>
      match manager with
      | .read s => (decodeRequest (overwrite s.request data)).InBounds
      | _ => True
  | .openFails => False
  | .writeFails => False
  | .readFails => False
  | .opened _ => True
  | .wrote _ => True
  | .atEnd => True

instance (manager : Manager) : (result : Result) → Decidable (manager.Harmless result)
  | .taken slot => inferInstanceAs (Decidable ((sessionPaths slot).isSome = true))
  | .got data _ =>
      match manager with
      | .read s => inferInstanceAs (Decidable (decodeRequest (overwrite s.request data)).InBounds)
      | .waiting => isTrue trivial
      | .openResp _ => isTrue trivial
      | .openReq _ _ => isTrue trivial
      | .openNotif _ _ _ => isTrue trivial
      | .greet _ _ => isTrue trivial
      | .reply _ _ _ => isTrue trivial
  | .openFails => isFalse id
  | .writeFails => isFalse id
  | .readFails => isFalse id
  | .opened _ => isTrue trivial
  | .wrote _ => isTrue trivial
  | .atEnd => isTrue trivial

def Harmless (s : ServerState) : ServerEvent → Prop
  | .job _ => True
  | .manager m result => (s.managers m).Harmless result

instance (s : ServerState) : (e : ServerEvent) → Decidable (Harmless s e)
  | .job _ => isTrue trivial
  | .manager m result => inferInstanceAs (Decidable ((s.managers m).Harmless result))

theorem handleRequest_isSome_iff (s : Session) (ht : HashTable) (stack : List Byte) (op : SessionOp) :
    (handleRequest s ht stack op).isSome = true ↔ op.InBounds := by
  cases op with
  | subscribe key =>
      -- past the subscript nothing can fail
      refine (isSome_bind_iff (Q := True) (kvsSubscribe_isSome_iff ht key s.notifFd)
        (fun r _ => ?_)).trans (and_iff_left trivial)
      exact iff_of_true rfl trivial
  | unsubscribe key =>
      refine (isSome_bind_iff (Q := True) (kvsUnsubscribe_isSome_iff ht key s.notifFd)
        (fun r _ => ?_)).trans (and_iff_left trivial)
      exact iff_of_true rfl trivial
  | disconnect => exact iff_of_true rfl trivial
  | unrecognized => exact iff_of_true rfl trivial
  | pipeClosed => exact iff_of_true rfl trivial

theorem ManagerStep.harmless {ht ht' : HashTable} {manager manager' : Manager} {result : Result}
    (h : ManagerStep ht manager result manager' ht') : manager.Harmless result := by
  cases h with
  | takes hpaths =>
      show (sessionPaths _).isSome = true
      rw [hpaths]
      rfl
  | opensResp => trivial
  | opensReq => trivial
  | opensNotif _ => trivial
  | greets _ => trivial
  | handles _ hh => exact (handleRequest_isSome_iff _ _ _ _).mp (by rw [hh]; rfl)
  | ends => trivial
  | replies _ => trivial

/-- Nothing harmless ends the process, or leaves it undefined. -/
theorem ManagerOutcome.harmful {ht : HashTable} {manager : Manager} {result : Result} {outcome : Outcome}
    (h : ManagerOutcome ht manager result outcome) (hstops : outcome = .exits ∨ outcome = .undefined) :
    ¬ manager.Harmless result := by
  intro hharmless
  cases h with
  | goesOn h => exact absurd hstops (by simp)
  | exits hfails =>
      -- a call that fails is never harmless
      cases result with
      | openFails => exact hharmless
      | writeFails => exact hharmless
      | readFails => exact hharmless
      | taken slot => exact hfails
      | opened fd => exact hfails
      | wrote n => exact hfails
      | got data stack => exact hfails
      | atEnd => exact hfails
  | noPaths hnone =>
      rw [Manager.Harmless, hnone] at hharmless
      exact absurd hharmless (by simp)
  | @noBucket s data stack hnone =>
      have hsome := (handleRequest_isSome_iff s ht stack _).mpr hharmless
      rw [hnone] at hsome
      exact absurd hsome (by simp)

/-! ## One step -/

/-- **Step.** The process goes on running exactly after a harmless step. -/
theorem stepServer_running_iff {s s' : ServerState} {e : ServerEvent} (h : stepServer s e = some s') :
    s'.process = .running ↔ Harmless s e := by
  obtain ⟨hrunning, hstep⟩ := stepServer_cases h
  cases hstep with
  | job => exact iff_of_true hrunning trivial
  | goesOn _ hstep => exact iff_of_true hrunning hstep.harmless
  | exits hstops => exact iff_of_false (by simp) (hstops.harmful (Or.inl rfl))
  | undefined hstops => exact iff_of_false (by simp) (hstops.harmful (Or.inr rfl))

/-- A request changes no value. -/
theorem handleRequest_toMap {s : Session} {ht : HashTable} {stack : List Byte} {op : SessionOp}
    {handled : Handled} (h : handleRequest s ht stack op = some handled) :
    handled.table.toMap = ht.toMap := by
  cases op with
  | disconnect =>
      obtain rfl := Option.some.inj h
      rfl
  | subscribe key =>
      obtain ⟨k, _, rfl⟩ := handleRequest_subscribe h
      exact toMap_changeAt ht k
  | unsubscribe key =>
      obtain ⟨k, _, rfl⟩ := handleRequest_unsubscribe h
      exact toMap_changeAt ht k
  | unrecognized =>
      obtain rfl := Option.some.inj h
      rfl
  | pipeClosed =>
      obtain rfl := Option.some.inj h
      rfl

/-- The failure or the request stays with its own session: the process runs, the other managers and the
    store are as they were, jobs go on, and a session that ends gives its manager back. -/
structure Confined (s : ServerState) (m : Fin MAX_SESSION_COUNT) (result : Result) (s' : ServerState) :
    Prop where
  running : s'.process = .running
  others : ∀ m', m' ≠ m → s'.managers m' = s.managers m'
  store : s'.table.toMap = s.table.toMap
  jobs : ∀ command, stepServer s' (.job command) = some { s' with table := runJob command s'.table }
  waits : (endsSession (s.managers m) result).isSome = true → s'.managers m = .waiting

theorem managerStep_waits {ht ht' : HashTable} {manager manager' : Manager} {result : Result}
    (h : ManagerStep ht manager result manager' ht')
    (hends : (endsSession manager result).isSome = true) : manager' = .waiting := by
  cases h with
  | takes _ => exact absurd hends (by simp [endsSession])
  | opensResp => exact absurd hends (by simp [endsSession])
  | opensReq => exact absurd hends (by simp [endsSession])
  | opensNotif _ => exact absurd hends (by simp [endsSession])
  | greets _ => exact absurd hends (by simp [endsSession])
  | handles _ _ => exact absurd hends (by simp [endsSession])
  | ends => rfl
  | @replies session left ends n hn =>
      -- the last bytes of the answer to a disconnect
      cases ends with
      | false => exact absurd hends (by simp [endsSession])
      | true =>
          have hall : n = left.length := by
            by_contra hne
            simp [endsSession, hne] at hends
          simp [replying, hall]

theorem managerStep_toMap {ht ht' : HashTable} {manager manager' : Manager} {result : Result}
    (h : ManagerStep ht manager result manager' ht') : ht'.toMap = ht.toMap := by
  cases h with
  | handles _ hh => exact handleRequest_toMap hh
  | takes _ => rfl
  | opensResp => rfl
  | opensReq => rfl
  | opensNotif _ => rfl
  | greets _ => rfl
  | ends => rfl
  | replies _ => rfl

theorem stepServer_job {s : ServerState} (h : s.process = .running) (command : WorkerCmd) :
    stepServer s (.job command) = some { s with table := runJob command s.table } := by
  rw [stepServer, if_pos h]

/-- **Step.** What a manager does is confined to its session exactly when it is harmless. -/
theorem confined_iff {s s' : ServerState} {m : Fin MAX_SESSION_COUNT} {result : Result}
    (h : stepServer s (.manager m result) = some s') :
    Confined s m result s' ↔ (s.managers m).Harmless result := by
  have hrunning := stepServer_running_iff h
  constructor
  · intro hconfined
    exact hrunning.mp hconfined.running
  · intro hharmless
    have hgoes := hrunning.mpr hharmless
    obtain ⟨_, hstep⟩ := stepServer_cases h
    cases hstep with
    | goesOn _ hstep =>
        refine ⟨hgoes, fun m' hne => Function.update_of_ne hne _ _, managerStep_toMap hstep,
          stepServer_job hgoes, ?_⟩
        intro hends
        show Function.update s.managers m _ m = .waiting
        rw [Function.update_self]
        exact managerStep_waits hstep hends
    | exits _ => exact absurd hgoes (by simp)
    | undefined _ => exact absurd hgoes (by simp)

/-! ## Back to the semaphore -/

/-- How many calls a manager thread has left until it waits again, when its client sends nothing more: the
    three of `open`, at most one `write` for each byte, and the `read` that finds the pipe closed. -/
def Manager.callsLeft : Manager → Nat
  | .waiting => 0
  | .openResp _ => 6
  | .openReq _ _ => 5
  | .openNotif _ _ _ => 4
  | .greet _ left => left.length + 1
  | .read _ => 1
  | .reply _ left _ => left.length + 1

theorem callsLeft_greeting (s : Session) (left : List Byte) :
    (greeting s left).callsLeft = left.length + 1 := by
  unfold greeting
  split
  · rename_i hnil
    rw [hnil]
    rfl
  · rfl

theorem callsLeft_replying (s : Session) (left : List Byte) (ends : Bool) :
    (replying s left ends).callsLeft ≤ left.length + 1 := by
  unfold replying
  split
  · split
    · exact Nat.zero_le _
    · exact Nat.le_add_left _ _
  · exact Nat.le_refl _

theorem callsLeft_pos {manager : Manager} (h : manager.isWaiting = false) : 0 < manager.callsLeft := by
  cases manager with
  | waiting => exact absurd h (by simp [Manager.isWaiting])
  | openResp _ => exact Nat.succ_pos _
  | openReq _ _ => exact Nat.succ_pos _
  | openNotif _ _ _ => exact Nat.succ_pos _
  | greet _ _ => exact Nat.succ_pos _
  | read _ => exact Nat.succ_pos _
  | reply _ _ _ => exact Nat.succ_pos _

/-- The client has sent something. -/
def Result.isRequest : Result → Bool
  | .got _ _ => true
  | _ => false

/-- **Every call leaves fewer**, a request apart. -/
theorem managerStep_callsLeft {ht ht' : HashTable} {manager manager' : Manager} {result : Result}
    (h : ManagerStep ht manager result manager' ht') (hbusy : manager.isWaiting = false)
    (hquiet : result.isRequest = false) : manager'.callsLeft < manager.callsLeft := by
  cases h with
  | takes _ => exact absurd hbusy (by simp [Manager.isWaiting])
  | opensResp => exact Nat.lt_succ_self _
  | opensReq => exact Nat.lt_succ_self _
  | opensNotif _ =>
      rw [callsLeft_greeting]
      show (sendMsg (ascii "10")).length + 1 < 4
      decide
  | @greets session left n hn =>
      rw [callsLeft_greeting, List.length_drop]
      show left.length - n + 1 < left.length + 1
      omega
  | handles _ _ => exact absurd hquiet (by simp [Result.isRequest])
  | ends => exact Nat.succ_pos _
  | @replies session left ends n hn =>
      have hle := callsLeft_replying session (left.drop n) ends
      rw [List.length_drop] at hle
      show _ < left.length + 1
      omega

/-- The client of this manager sends a request. -/
def ServingEvent.isRequestTo (m : Fin MAX_SESSION_COUNT) : ServingEvent → Bool
  | .server (.manager m' result) => m' = m ∧ result.isRequest = true
  | _ => false

/-- A call of this manager returns. -/
def ServingEvent.isCallOf (m : Fin MAX_SESSION_COUNT) : ServingEvent → Bool
  | .server (.manager m' _) => m' = m
  | _ => false

/-- No step of the others moves a manager, and each of its own calls but a request leaves it fewer. -/
theorem servingStep_callsLeft {s s' : ServingState} {e : ServingEvent} {m : Fin MAX_SESSION_COUNT}
    (h : ServingStep s e s') (hbusy : (s.server.managers m).isWaiting = false)
    (hquiet : e.isRequestTo m = false) (hgoes : s'.server.process = .running) :
    (s'.server.managers m).callsLeft + (if e.isCallOf m then 1 else 0)
      ≤ (s.server.managers m).callsLeft := by
  cases h with
  | neverReturns _ _ => exact Nat.le_refl _
  | server _ h =>
      obtain ⟨_, hstep⟩ := stepServer_cases h
      cases hstep with
      | job => exact Nat.le_refl _
      | exits _ => exact absurd hgoes (by simp)
      | undefined _ => exact absurd hgoes (by simp)
      | @goesOn m' result manager ht hallowed hstep =>
          by_cases hm : m' = m
          · subst hm
            have hresult : result.isRequest = false := by
              simpa [ServingEvent.isRequestTo] using hquiet
            have hless := managerStep_callsLeft hstep hbusy hresult
            simp only [ServingEvent.isCallOf, Function.update_self, decide_true, if_true]
            omega
          · simp [ServingEvent.isCallOf, hm, Function.update_of_ne (Ne.symm hm)]

/-! ## Runs -/

/-- Whatever a manager does in this step is confined to its session. -/
def ConfinedStep (s : ServerState) : ServerEvent → Prop
  | .job _ => True
  | .manager m result => ∀ s', stepServer s (.manager m result) = some s' → Confined s m result s'

theorem confinedStep_iff {s s' : ServerState} {e : ServerEvent} (h : stepServer s e = some s') :
    ConfinedStep s e ↔ Harmless s e := by
  cases e with
  | job _ => exact Iff.rfl
  | manager m result =>
      constructor
      · intro hconfined
        exact (confined_iff h).mp (hconfined s' h)
      · intro hharmless s'' hs''
        exact (confined_iff hs'').mpr hharmless

/-- Nothing in this event harms anyone, and if it is a call, it returns. -/
def HarmlessCall (s : ServingState) : ServingEvent → Prop
  | .server e => Harmless s.server e
  | .neverReturns _ => False

instance (s : ServingState) : (e : ServingEvent) → Decidable (HarmlessCall s e)
  | .server e => inferInstanceAs (Decidable (Harmless s.server e))
  | .neverReturns _ => isFalse id

/-- What this event does is confined to its session. A call that does not return does nothing. -/
def ConfinedCall (s : ServingState) : ServingEvent → Prop
  | .server e => ConfinedStep s.server e
  | .neverReturns _ => True

def ServingEvent.Returns : ServingEvent → Prop
  | .server _ => True
  | .neverReturns _ => False

theorem harmlessCall_iff {s s' : ServingState} {e : ServingEvent} (h : stepServing s e = some s') :
    HarmlessCall s e ↔ ConfinedCall s e ∧ e.Returns := by
  cases stepServing_cases h with
  | server _ hserver => exact (confinedStep_iff hserver).symm.trans (and_iff_left trivial).symm
  | neverReturns _ _ => exact (and_iff_right trivial).symm

theorem servingStep_running {s s' : ServingState} {e : ServingEvent} (hharmless : HarmlessCall s e)
    (h : stepServing s e = some s') : s'.server.process = .running := by
  cases stepServing_cases h with
  | server _ hserver => exact (stepServer_running_iff hserver).mpr hharmless
  | neverReturns _ _ => exact absurd hharmless id

/-- **Run.** The process still runs at the end of a run of harmless steps. -/
theorem run_running {events : List ServingEvent} {s s' : ServingState}
    (hs : s.server.process = .running) (hrun : Transition.run stepServing events s = some s')
    (hharmless : Transition.StepsMeet stepServing HarmlessCall events s) :
    s'.server.process = .running :=
  Transition.run_invariant_guarded (fun s => s.server.process = .running)
    (fun _ _ _ he _ hstep => servingStep_running he hstep) hharmless hs hrun

/-- Who is stuck stays so: at the end nobody is if and only if every call of the run has returned. -/
theorem stuck_iff {events : List ServingEvent} {s s' : ServingState}
    (hrun : Transition.run stepServing events s = some s') :
    (∀ m, s'.stuck m = false) ↔ (∀ m, s.stuck m = false) ∧
      Transition.StepsMeet stepServing (fun _ e => e.Returns) events s := by
  induction events generalizing s with
  | nil =>
      obtain rfl := Option.some.inj hrun
      exact (and_iff_left trivial).symm
  | cons e events ih =>
      obtain ⟨u, hu, hrest⟩ := Transition.run_cons_eq_some.mp hrun
      rw [ih hrest, Transition.stepsMeet_cons hu]
      cases stepServing_cases hu with
      | server _ _ => simp [ServingEvent.Returns]
      | @neverReturns m _ _ =>
          refine iff_of_false (fun h => ?_) (fun h => h.2.1)
          have hm : Function.update s.stuck m true m = false := h.1 m
          rw [Function.update_self] at hm
          exact absurd hm (by simp)

/-- The manager thread is not stuck, and after so many calls it has been back at the semaphore, whatever
    the others do, if these steps are harmless and its client sends no more requests. -/
structure ReturnsToWaiting (m : Fin MAX_SESSION_COUNT) (s : ServingState) : Prop where
  free : s.stuck m = false
  returns : ∃ n, ∀ es s', Transition.run stepServing es s = some s' →
    Transition.StepsMeet stepServing HarmlessCall es s → (∀ e ∈ es, e.isRequestTo m = false) →
    n ≤ es.countP (ServingEvent.isCallOf m) →
    ∃ es₁ es₂ u, es = es₁ ++ es₂ ∧ Transition.run stepServing es₁ s = some u ∧
      u.server.managers m = .waiting

/-- **Run.** A manager that makes all the calls it has left has been back at the semaphore. -/
theorem returns_of_callsLeft {m : Fin MAX_SESSION_COUNT} {es : List ServingEvent} {s s' : ServingState}
    (hrun : Transition.run stepServing es s = some s')
    (hharmless : Transition.StepsMeet stepServing HarmlessCall es s)
    (hquiet : ∀ e ∈ es, e.isRequestTo m = false)
    (hcalls : (s.server.managers m).callsLeft ≤ es.countP (ServingEvent.isCallOf m)) :
    ∃ es₁ es₂ u, es = es₁ ++ es₂ ∧ Transition.run stepServing es₁ s = some u ∧
      u.server.managers m = .waiting := by
  by_cases hwaits : (s.server.managers m).isWaiting = true
  · refine ⟨[], es, s, rfl, rfl, ?_⟩
    cases hm : s.server.managers m with
    | waiting => rfl
    | _ => exact absurd hwaits (by simp [hm, Manager.isWaiting])
  · have hbusy : (s.server.managers m).isWaiting = false := Bool.eq_false_iff.mpr hwaits
    induction es generalizing s with
    | nil =>
        have hpos := callsLeft_pos hbusy
        rw [List.countP_nil] at hcalls
        omega
    | cons e es ih =>
        obtain ⟨u, hu, hrest⟩ := Transition.run_cons_eq_some.mp hrun
        obtain ⟨hfirst, hothers⟩ := (Transition.stepsMeet_cons hu).mp hharmless
        rw [List.forall_mem_cons] at hquiet
        have hless := servingStep_callsLeft (stepServing_cases hu) hbusy hquiet.1
          (servingStep_running hfirst hu)
        rw [List.countP_cons] at hcalls
        by_cases hback : (u.server.managers m).isWaiting = true
        · refine ⟨[e], es, u, rfl, Transition.run_cons_eq_some.mpr ⟨u, hu, rfl⟩, ?_⟩
          cases hm : u.server.managers m with
          | waiting => rfl
          | _ => exact absurd hback (by simp [hm, Manager.isWaiting])
        · obtain ⟨es₁, es₂, v, hes, hv, hwaiting⟩ := ih hrest hothers hquiet.2 (by omega) hback
            (Bool.eq_false_iff.mpr hback)
          exact ⟨e :: es₁, es₂, v, by rw [hes, List.cons_append],
            Transition.run_cons_eq_some.mpr ⟨u, hu, hv⟩, hwaiting⟩

theorem serving_unsubscribeAndLeave :
    (Transition.run stepServing (unsubscribeAndLeave.map .server) (.init tableWithA)).isSome = true := by
  decide +kernel

end Kvs.Server
