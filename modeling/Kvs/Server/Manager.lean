import Kvs.Lib.Transition
import Kvs.Server.Operations
import Kvs.Server.Register
import Kvs.Server.Session
import Kvs.Server.Subscribers

/-!
# `Server.Manager` — the manager threads, and the server they run in

`thread_manage_session` as a state machine whose events are the results of its system calls: a slot of
the registration queue, the three pipes opened one after the other, the bytes a `write` took, what a
`read` returned. A call that fails ends the process (`exit`, or the signal of a broken pipe), and so do
the places where the code subscripts or stores outside an array: nothing is known from there on.

The server is the table, the manager threads and the state of the process. Its events are those of the
managers, and the commands of jobs, each run as a whole.

## Contents
- **Sessions.** `Session`, `handleRequest`.
- **Manager threads.** `Manager`, `Result`, `stepManager`, its steps `ManagerStep` and its inversion
  `ManagerOutcome`.
- **The server.** `ServerState`, `stepServer` and its inversion `ServerStep`.
- **Calls that never return.** `ServingState`, `stepServing` and its inversion `ServingStep`.
-/

namespace Kvs.Server

/-! ## Sessions -/

/-- A session: the descriptors of its pipes, which are open at the same time, the array `request`, and
    the requests handled so far with the results of those that have one. -/
structure Session where
  respFd : Int
  reqFd : Int
  notifFd : Int
  distinct : respFd ≠ notifFd
  request : List Byte
  handled : List (SessionOp × Option Int)

/-- The session has subscribed to the key, successfully, and not unsubscribed since. -/
def Session.subscribedTo (s : Session) (key : CStr) : Bool :=
  s.handled.foldl (fun subscribed h => match h with
    | (.subscribe k, some result) => if k = key ∧ result = 0 then true else subscribed
    | (.unsubscribe k, _) => if k = key then false else subscribed
    | _ => subscribed) false

/-- What a round of the request loop leaves: the table, the result of the operation if there is one, what
    is sent and to which descriptor, and whether the loop ends. -/
structure Handled where
  table : HashTable
  result : Option Int
  sent : Sent
  ends : Bool

/-- `(char) result + '0'` -/
def resultChar (result : Int) : Byte := (result + 48).toNat.toUInt8

/-- The `switch` on a request. `stack` is what the memory holds from `response[1]` on: the array has two
    bytes and no NUL, so `send_msg` reads on behind them, and a disconnect leaves `response[1]` unset. -/
def handleRequest (s : Session) (ht : HashTable) (stack : List Byte) : SessionOp → Option Handled
  | .disconnect => some ⟨ht, none, [(s.notifFd, sendMsg (2 :: stack))], true⟩
  | .subscribe key => do
      let (ht', result) ← kvsSubscribe ht key s.notifFd
      some ⟨ht', some result, [(s.notifFd, sendMsg (3 :: resultChar result :: stack.drop 1))], false⟩
  | .unsubscribe key => do
      let (ht', result) ← kvsUnsubscribe ht key s.notifFd
      some ⟨ht', some result, [(s.notifFd, sendMsg (4 :: resultChar result :: stack.drop 1))], false⟩
  | .unrecognized => some ⟨ht, none, [], false⟩
  | .pipeClosed => some ⟨ht, none, [], true⟩

/-! ## Manager threads -/

/-- Where a manager thread stands: at the semaphore, before one of the three `open` calls, in `send_msg`
    with these bytes left to write, or at the `read` of the request loop. -/
inductive Manager where
  | waiting
  | openResp (paths : PipePaths)
  | openReq (paths : PipePaths) (respFd : Int)
  | openNotif (paths : PipePaths) (respFd reqFd : Int)
  | greet (session : Session) (left : List Byte)
  | read (session : Session)
  | reply (session : Session) (left : List Byte) (ends : Bool)

/-- The descriptors that a manager thread has open. -/
def Manager.fds : Manager → List Int
  | .waiting => []
  | .openResp _ => []
  | .openReq _ respFd => [respFd]
  | .openNotif _ respFd reqFd => [respFd, reqFd]
  | .greet s _ => [s.respFd, s.reqFd, s.notifFd]
  | .read s => [s.respFd, s.reqFd, s.notifFd]
  | .reply s _ _ => [s.respFd, s.reqFd, s.notifFd]

/-- The open session of a manager thread. -/
def Manager.session : Manager → Option Session
  | .waiting => none
  | .openResp _ => none
  | .openReq _ _ => none
  | .openNotif _ _ _ => none
  | .greet s _ => some s
  | .read s => some s
  | .reply s _ _ => some s

/-- What a system call of a manager thread returns. `stack` is as for `handleRequest`. -/
inductive Result where
  | taken (slot : List Byte)
  | opened (fd : Int)
  | openFails
  | wrote (n : Nat)
  | writeFails
  | got (data stack : List Byte)
  | atEnd
  | readFails

/-- What follows: the thread goes on, the process ends, or the behaviour is undefined. -/
inductive Outcome where
  | goesOn (m : Manager) (ht : HashTable)
  | exits
  | undefined

/-- The loop of `send_msg` with these bytes left, and where the thread goes from there. -/
def greeting (s : Session) (left : List Byte) : Manager := if left = [] then .read s else .greet s left

def replying (s : Session) (left : List Byte) (ends : Bool) : Manager :=
  if left = [] then (if ends then .waiting else .read s) else .reply s left ends

/-- The next system call of a manager thread returns; `none` when it cannot return that. -/
def stepManager (ht : HashTable) : Manager → Result → Option Outcome
  | .waiting, .taken slot =>
      match sessionPaths slot with
      | some paths => some (.goesOn (.openResp paths) ht)
      | none => some .undefined
  | .openResp paths, .opened fd => some (.goesOn (.openReq paths fd) ht)
  | .openReq paths respFd, .opened fd => some (.goesOn (.openNotif paths respFd fd) ht)
  | .openNotif _ respFd reqFd, .opened fd =>
      if h : respFd ≠ fd then
        some (.goesOn (greeting ⟨respFd, reqFd, fd, h, zeroRequest, []⟩ (sendMsg (ascii "10"))) ht)
      else none
  | .openResp _, .openFails => some .exits
  | .openReq _ _, .openFails => some .exits
  | .openNotif _ _ _, .openFails => some .exits
  | .greet s left, .wrote n =>
      if 0 < n ∧ n ≤ left.length then some (.goesOn (greeting s (left.drop n)) ht) else none
  | .greet _ _, .writeFails => some .exits
  | .read s, .got data stack =>
      if 1 ≤ data.length ∧ data.length ≤ 42 then
        let request := overwrite s.request data
        let op := decodeRequest request
        match handleRequest s ht stack op with
        | some h =>
            let s' := { s with request := request, handled := s.handled ++ [(op, h.result)] }
            some (.goesOn (replying s' (h.sent.flatMap Prod.snd) h.ends) h.table)
        | none => some .undefined
      else none
  | .read _, .atEnd => some (.goesOn .waiting ht)
  | .read _, .readFails => some .exits
  | .reply s left ends, .wrote n =>
      if 0 < n ∧ n ≤ left.length then some (.goesOn (replying s (left.drop n) ends) ht) else none
  | .reply _ _ _, .writeFails => some .exits
  | _, _ => none

/-- A step of a manager thread that goes on, with the table after it. -/
inductive ManagerStep (ht : HashTable) : Manager → Result → Manager → HashTable → Prop where
  | takes {slot : List Byte} {paths : PipePaths} (h : sessionPaths slot = some paths) :
      ManagerStep ht .waiting (.taken slot) (.openResp paths) ht
  | opensResp {paths : PipePaths} {fd : Int} :
      ManagerStep ht (.openResp paths) (.opened fd) (.openReq paths fd) ht
  | opensReq {paths : PipePaths} {respFd fd : Int} :
      ManagerStep ht (.openReq paths respFd) (.opened fd) (.openNotif paths respFd fd) ht
  | opensNotif {paths : PipePaths} {respFd reqFd fd : Int} (h : respFd ≠ fd) :
      ManagerStep ht (.openNotif paths respFd reqFd) (.opened fd)
        (greeting ⟨respFd, reqFd, fd, h, zeroRequest, []⟩ (sendMsg (ascii "10"))) ht
  | greets {s : Session} {left : List Byte} {n : Nat} (h : 0 < n ∧ n ≤ left.length) :
      ManagerStep ht (.greet s left) (.wrote n) (greeting s (left.drop n)) ht
  | handles {s : Session} {data stack : List Byte} {h : Handled}
      (hlen : 1 ≤ data.length ∧ data.length ≤ 42)
      (hh : handleRequest s ht stack (decodeRequest (overwrite s.request data)) = some h) :
      ManagerStep ht (.read s) (.got data stack)
        (replying { s with
            request := overwrite s.request data
            handled := s.handled ++ [(decodeRequest (overwrite s.request data), h.result)] }
          (h.sent.flatMap Prod.snd) h.ends) h.table
  | ends {s : Session} : ManagerStep ht (.read s) .atEnd .waiting ht
  | replies {s : Session} {left : List Byte} {ends : Bool} {n : Nat} (h : 0 < n ∧ n ≤ left.length) :
      ManagerStep ht (.reply s left ends) (.wrote n) (replying s (left.drop n) ends) ht

/-- The call fails. -/
def Result.Fails : Result → Prop
  | .openFails => True
  | .writeFails => True
  | .readFails => True
  | .taken _ => False
  | .opened _ => False
  | .wrote _ => False
  | .got _ _ => False
  | .atEnd => False

/-- What a step of a manager thread comes to: it goes on, a call has failed, a registration has no paths,
    or a key has no bucket. -/
inductive ManagerOutcome (ht : HashTable) : Manager → Result → Outcome → Prop where
  | goesOn {manager manager' : Manager} {result : Result} {ht' : HashTable}
      (h : ManagerStep ht manager result manager' ht') :
      ManagerOutcome ht manager result (.goesOn manager' ht')
  | exits {manager : Manager} {result : Result} (h : result.Fails) :
      ManagerOutcome ht manager result .exits
  | noPaths {slot : List Byte} (h : sessionPaths slot = none) :
      ManagerOutcome ht .waiting (.taken slot) .undefined
  | noBucket {s : Session} {data stack : List Byte}
      (h : handleRequest s ht stack (decodeRequest (overwrite s.request data)) = none) :
      ManagerOutcome ht (.read s) (.got data stack) .undefined

theorem stepManager_cases {ht : HashTable} {m : Manager} {result : Result} {outcome : Outcome}
    (h : stepManager ht m result = some outcome) : ManagerOutcome ht m result outcome := by
  unfold stepManager at h
  split at h
  · -- a slot of the registration queue
    split at h
    · rename_i hpaths
      obtain rfl := Option.some.inj h
      exact .goesOn (.takes hpaths)
    · rename_i hnone
      obtain rfl := Option.some.inj h
      exact .noPaths hnone
  · obtain rfl := Option.some.inj h
    exact .goesOn .opensResp
  · obtain rfl := Option.some.inj h
    exact .goesOn .opensReq
  · split at h
    · rename_i hne
      obtain rfl := Option.some.inj h
      exact .goesOn (.opensNotif hne)
    · exact absurd h (by simp)
  · obtain rfl := Option.some.inj h
    exact .exits trivial
  · obtain rfl := Option.some.inj h
    exact .exits trivial
  · obtain rfl := Option.some.inj h
    exact .exits trivial
  · split at h
    · rename_i hn
      obtain rfl := Option.some.inj h
      exact .goesOn (.greets hn)
    · exact absurd h (by simp)
  · obtain rfl := Option.some.inj h
    exact .exits trivial
  · -- a request
    split at h
    · rename_i hlen
      simp only at h
      split at h
      · rename_i hh
        obtain rfl := Option.some.inj h
        exact .goesOn (.handles hlen hh)
      · rename_i hnone
        obtain rfl := Option.some.inj h
        exact .noBucket hnone
    · exact absurd h (by simp)
  · obtain rfl := Option.some.inj h
    exact .goesOn .ends
  · obtain rfl := Option.some.inj h
    exact .exits trivial
  · split at h
    · rename_i hn
      obtain rfl := Option.some.inj h
      exact .goesOn (.replies hn)
    · exact absurd h (by simp)
  · obtain rfl := Option.some.inj h
    exact .exits trivial
  · exact absurd h (by simp)

theorem stepManager_goesOn {ht ht' : HashTable} {m m' : Manager} {result : Result}
    (h : stepManager ht m result = some (.goesOn m' ht')) : ManagerStep ht m result m' ht' := by
  cases stepManager_cases h with
  | goesOn h => exact h

/-! ## The server -/

inductive Process where
  | running
  | exited
  | undefined
  deriving DecidableEq, Repr

/-- The process, the table and the manager threads. Once the process does not run, the other two are as
    they were last and mean nothing any more. -/
structure ServerState where
  process : Process
  table : HashTable
  managers : Fin MAX_SESSION_COUNT → Manager

/-- The server before any client has come. -/
def ServerState.init (table : HashTable) : ServerState := ⟨.running, table, fun _ => .waiting⟩

/-- A system call of a manager thread returns, or a command of a job is run. A command on a key that
    `hash` has no bucket for is not among them. -/
inductive ServerEvent where
  | manager (m : Fin MAX_SESSION_COUNT) (result : Result)
  | job (command : WorkerCmd)

/-- A descriptor that `open` may return: the standard ones stay open, and no manager has it open. -/
def FreeFd (s : ServerState) (fd : Int) : Prop := 2 < fd ∧ ∀ m, fd ∉ (s.managers m).fds

instance (s : ServerState) (fd : Int) : Decidable (FreeFd s fd) := inferInstanceAs (Decidable (_ ∧ _))

/-- The table after a command of a job. -/
def runJob (command : WorkerCmd) (ht : HashTable) : HashTable :=
  ⟨(Locking.runCode worker (processCommand command) ht.table).1⟩

/-- The result is one that the descriptors open now allow. -/
def Result.Allowed (s : ServerState) : Result → Prop
  | .opened fd => FreeFd s fd
  | _ => True

instance (s : ServerState) (result : Result) : Decidable (result.Allowed s) := by
  cases result <;> unfold Result.Allowed <;> infer_instance

def stepServer (s : ServerState) (event : ServerEvent) : Option ServerState :=
  if s.process = .running then
    match event with
    | .job command => some { s with table := runJob command s.table }
    | .manager m result =>
        if result.Allowed s then
          match stepManager s.table (s.managers m) result with
          | some (.goesOn manager ht) =>
              some { s with table := ht, managers := Function.update s.managers m manager }
          | some .exits => some { s with process := .exited }
          | some .undefined => some { s with process := .undefined }
          | none => none
        else none
  else none

/-- A step of the server, and what it leaves. -/
inductive ServerStep (s : ServerState) : ServerEvent → ServerState → Prop where
  | job {command : WorkerCmd} :
      ServerStep s (.job command) { s with table := runJob command s.table }
  | goesOn {m : Fin MAX_SESSION_COUNT} {result : Result} {manager : Manager} {ht : HashTable}
      (hallowed : result.Allowed s) (h : ManagerStep s.table (s.managers m) result manager ht) :
      ServerStep s (.manager m result)
        { s with table := ht, managers := Function.update s.managers m manager }
  | exits {m : Fin MAX_SESSION_COUNT} {result : Result}
      (h : ManagerOutcome s.table (s.managers m) result .exits) :
      ServerStep s (.manager m result) { s with process := .exited }
  | undefined {m : Fin MAX_SESSION_COUNT} {result : Result}
      (h : ManagerOutcome s.table (s.managers m) result .undefined) :
      ServerStep s (.manager m result) { s with process := .undefined }

theorem stepServer_cases {s s' : ServerState} {event : ServerEvent}
    (h : stepServer s event = some s') : s.process = .running ∧ ServerStep s event s' := by
  unfold stepServer at h
  split at h
  · rename_i hrunning
    refine ⟨hrunning, ?_⟩
    split at h
    · obtain rfl := Option.some.inj h
      exact .job
    · split at h
      · rename_i hallowed
        split at h
        · rename_i hstep
          obtain rfl := Option.some.inj h
          exact .goesOn hallowed (stepManager_goesOn hstep)
        · rename_i hstep
          obtain rfl := Option.some.inj h
          exact .exits (stepManager_cases hstep)
        · rename_i hstep
          obtain rfl := Option.some.inj h
          exact .undefined (stepManager_cases hstep)
        · exact absurd h (by simp)
      · exact absurd h (by simp)
  · exact absurd h (by simp)

/-! ## Calls that never return -/

/-- The server, and the manager threads whose last call does not return: an `open` of a FIFO whose other
    end nobody opens, a `read` or a `write` that waits for a client that does nothing. -/
structure ServingState where
  server : ServerState
  stuck : Fin MAX_SESSION_COUNT → Bool

def ServingState.init (ht : HashTable) : ServingState := ⟨.init ht, fun _ => false⟩

/-- Something happens in the server, or the call a manager thread has made on a client's pipe turns out
    not to return. -/
inductive ServingEvent where
  | server (e : ServerEvent)
  | neverReturns (m : Fin MAX_SESSION_COUNT)

/-- The thread of this event can go on. -/
def ServingState.free (s : ServingState) : ServerEvent → Bool
  | .manager m _ => !s.stuck m
  | .job _ => true

/-- The thread waits at the semaphore, for the next registration. -/
def Manager.isWaiting : Manager → Bool
  | .waiting => true
  | _ => false

/-- A step of the server by a thread that is not stuck, or a manager that gets stuck in a session or on
    its way to one. -/
def stepServing (s : ServingState) : ServingEvent → Option ServingState
  | .server e =>
      if s.free e then (stepServer s.server e).map (fun server => { s with server := server }) else none
  | .neverReturns m =>
      if s.server.process = .running ∧ (s.server.managers m).isWaiting = false ∧ s.stuck m = false then
        some { s with stuck := Function.update s.stuck m true }
      else none

/-- A step, and what it leaves. -/
inductive ServingStep (s : ServingState) : ServingEvent → ServingState → Prop where
  | server {e : ServerEvent} {server : ServerState} (hfree : s.free e = true)
      (h : stepServer s.server e = some server) :
      ServingStep s (.server e) { s with server := server }
  | neverReturns {m : Fin MAX_SESSION_COUNT} (hrunning : s.server.process = .running)
      (hbusy : (s.server.managers m).isWaiting = false) :
      ServingStep s (.neverReturns m) { s with stuck := Function.update s.stuck m true }

theorem stepServing_cases {s s' : ServingState} {e : ServingEvent} (h : stepServing s e = some s') :
    ServingStep s e s' := by
  cases e with
  | server e =>
      simp only [stepServing] at h
      split at h
      · rename_i hfree
        obtain ⟨server, hserver, rfl⟩ := Option.map_eq_some_iff.mp h
        exact .server hfree hserver
      · exact absurd h (by simp)
  | neverReturns m =>
      simp only [stepServing] at h
      split at h
      · rename_i hstuck
        exact Option.some.inj h ▸ .neverReturns hstuck.1 hstuck.2.1
      · exact absurd h (by simp)

end Kvs.Server
