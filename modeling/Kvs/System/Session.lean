import Kvs.Client.Api
import Kvs.Lib.Transition
import Kvs.Server.Manager

/-!
# `System.Session` — a client and the manager thread that serves it

The two ends of a session as one system: a client, from the first `open` of `kvs_connect` on, and the
manager thread that has taken its registration. Between them are three pipes, each the bytes written and
not yet read. What a system call returns is no event from outside any more, as it is for the manager
alone: it follows from the pipes and from where the other side stands.

The `open` of a FIFO waits for the other side to come to the `open` of the same FIFO. A `read` waits
while its pipe is empty and has a writer. A `write` of at most `PIPE_BUF` bytes waits until all of them
fit; a longer one goes on in parts. A write to a pipe that nobody reads raises `SIGPIPE`, which ends the
process. What `send_msg` reads of the manager's stack behind the two bytes of `response` is given with the
result of the `read`; it only lengthens an answer. What `thread_notif` prints of what it reads moves
nothing here; it is the subject of `Correctness.Notify`.

## Contents
- **The client.** `Call`, `ClientPc`, `NotifPc`, what `read_msg` returns.
- **Pipes.** `stage` of each side, `Fits`.
- **The system.** `State`, `Event`, `step` and its inversion `Step`.
-/

namespace Kvs.System

open Client Server

/-! ## The client -/

/-- A call that the loop of `main` makes on the session. -/
inductive Call where
  | subscribe (key : CStr)
  | unsubscribe (key : CStr)
  | disconnect
  deriving DecidableEq

/-- What the call writes to the request pipe. -/
def Call.message : Call → List Byte
  | .subscribe key => Client.kvsSubscribe key
  | .unsubscribe key => Client.kvsUnsubscribe key
  | .disconnect => kvsDisconnect

/-- Where the client stands: before one of the three `open` calls of `kvs_connect`, at its `read_msg`, in
    the loop of `main`, at the `read_msg` of `kvs_disconnect`, behind the calls of `close` there, or at its
    end: `main` has returned this, a signal has killed the process, or `thread_notif` has called
    `exit(EXIT_FAILURE)`. -/
inductive ClientPc where
  | openResp
  | openReq
  | openNotif
  | connect
  | loop
  | disconnect
  | closing
  | returned (ret : Int)
  | killed
  | exited
  deriving DecidableEq

/-- `kvs_connect` has returned 0 and the process has not ended, so that `thread_notif` runs. -/
def ClientPc.Connected : ClientPc → Prop
  | .loop => True
  | .disconnect => True
  | .closing => True
  | _ => False

instance : (pc : ClientPc) → Decidable pc.Connected
  | .loop => isTrue trivial
  | .disconnect => isTrue trivial
  | .closing => isTrue trivial
  | .openResp => isFalse id
  | .openReq => isFalse id
  | .openNotif => isFalse id
  | .connect => isFalse id
  | .returned _ => isFalse id
  | .killed => isFalse id
  | .exited => isFalse id

/-- Where `thread_notif` stands: in front of its `read`, in it, or at its end. -/
inductive NotifPc where
  | loop
  | read
  | ended
  deriving DecidableEq

/-- Where a call leaves the client once its message is written. `kvs_subscribe` and `kvs_unsubscribe`
    wait for no answer. -/
def Call.next : Call → ClientPc
  | .subscribe _ => .loop
  | .unsubscribe _ => .loop
  | .disconnect => .disconnect

/-- `read_msg`: the second byte of what the `read` of two bytes returns, NUL at the end of the pipe. The
    buffer is not initialised: `mem` is the byte it holds there. -/
def readMsg (mem : Byte) : List Byte → Byte
  | [] => 0
  | [_] => mem
  | _ :: b :: _ => b

/-! ## Pipes -/

/-- What one `write` puts into a pipe at once. -/
abbrev PIPE_BUF : Nat := 4096

/-- How far a side has come: 1, 2 or 3 in the `open` of the response, the request or the notification
    pipe, 4 with all of them open, 0 with all of them closed. Its end of pipe `i` is there for the other
    side from stage `i` on: an `open` that waits counts as an open end. -/
def ClientPc.stage : ClientPc → Nat
  | .openResp => 1
  | .openReq => 2
  | .openNotif => 3
  | .connect => 4
  | .loop => 4
  | .disconnect => 4
  | .closing => 0
  | .returned _ => 0
  | .killed => 0
  | .exited => 0

def managerStage : Manager → Nat
  | .waiting => 0
  | .openResp _ => 1
  | .openReq _ _ => 2
  | .openNotif _ _ _ => 3
  | .greet _ _ => 4
  | .read _ => 4
  | .reply _ _ _ => 4

/-- A `write` of `len` bytes puts `n` of them into this pipe of capacity `cap`. -/
def Fits (cap : Nat) (pipe : List Byte) (len n : Nat) : Prop :=
  0 < n ∧ n ≤ len ∧ pipe.length + n ≤ cap ∧ (len ≤ PIPE_BUF → n = len)

instance (cap : Nat) (pipe : List Byte) (len n : Nat) : Decidable (Fits cap pipe len n) :=
  inferInstanceAs (Decidable (_ ∧ _))

/-! ## The system -/

/-- The client with the calls it has still to make, the manager thread and the process it belongs to, the
    three pipes, and the client's thread for notifications. The last three fields keep what was: the calls
    made, what the reads of the request pipe returned, and what the manager took each of them for. -/
structure State where
  client : ClientPc
  calls : List Call
  manager : Manager
  process : Process
  resp : List Byte
  req : List Byte
  notif : List Byte
  thread : NotifPc
  made : List Call
  reads : List (List Byte)
  performed : List SessionOp

/-- Client and manager at their first `open`. -/
def State.init (calls : List Call) (paths : PipePaths) : State :=
  ⟨.openResp, calls, .openResp paths, .running, [], [], [], .loop, [], [], []⟩

/-- A system call of the client returns, with the byte `readMsg` may find; its thread for notifications
    makes a step; a system call of the manager returns, the table being this one at the time; or a worker
    thread of the server writes a notification to the session's own descriptor while that is open. Nothing
    in the source calls `notify_clients`, so these last steps are more than the server makes. -/
inductive Event where
  | client (mem : Byte)
  | clientNotif
  | manager (ht : HashTable) (result : Result)
  | notification (data : List Byte)

/-- The event is a step of one of the two ends. -/
def Event.Own : Event → Prop
  | .client _ => True
  | .clientNotif => True
  | .manager _ _ => True
  | .notification _ => False

def stepClient (cap : Nat) (s : State) (mem : Byte) : Option State :=
  match s.client with
  | .openResp => if 1 ≤ managerStage s.manager then some { s with client := .openReq } else none
  | .openReq => if 2 ≤ managerStage s.manager then some { s with client := .openNotif } else none
  | .openNotif => if 3 ≤ managerStage s.manager then some { s with client := .connect } else none
  | .connect =>
      if s.resp = [] ∧ 1 ≤ managerStage s.manager then none
      else
        some { s with
          client := if readMsg mem s.resp = 48 then .loop else .returned 1
          resp := s.resp.drop 2 }
  | .loop =>
      match s.calls with
      | [] => none
      | call :: calls =>
          if 2 ≤ managerStage s.manager then
            if Fits cap s.req call.message.length call.message.length then
              some { s with
                client := call.next
                calls := calls
                req := s.req ++ call.message
                made := s.made ++ [call] }
            else none
          else some { s with client := .killed }
  | .disconnect =>
      if s.resp = [] ∧ 1 ≤ managerStage s.manager then none
      else
        some { s with
          client := if readMsg mem s.resp = 0 then .closing else .returned 1
          resp := s.resp.drop 2 }
  | .closing => some { s with client := .returned 0 }
  | .returned _ => none
  | .killed => none
  | .exited => none

/-- `thread_notif`. It reads with the descriptor that `kvs_disconnect` closes: a `read` it is in goes on,
    one it makes after that fails, and the thread ends the process with `exit(EXIT_FAILURE)`. At the end
    of the pipe it returns. -/
def stepNotif (s : State) : Option State :=
  match s.thread with
  | .loop =>
      if s.client = .loop ∨ s.client = .disconnect then some { s with thread := .read }
      else if s.client = .closing then some { s with client := .exited }
      else none
  | .read =>
      if s.client.Connected then
        if s.notif ≠ [] then
          some { s with notif := s.notif.drop (2 * MAX_STRING_SIZE), thread := .loop }
        else if managerStage s.manager < 3 then some { s with thread := .ended }
        else none
      else none
  | .ended => none

/-- What a system call of the manager moves, where it can return this now. -/
def transfer (cap : Nat) (s : State) : Manager → Result → Option State
  | .openResp _, .opened _ => if 1 ≤ s.client.stage then some s else none
  | .openReq _ _, .opened _ => if 2 ≤ s.client.stage then some s else none
  | .openNotif _ _ _, .opened _ => if 3 ≤ s.client.stage then some s else none
  | .greet _ left, .wrote n =>
      if 1 ≤ s.client.stage ∧ Fits cap s.resp left.length n then
        some { s with resp := s.resp ++ left.take n }
      else none
  | .greet _ _, .writeFails => if s.client.stage < 1 then some s else none
  | .read session, .got data _ =>
      if s.req ≠ [] ∧ data = s.req.take 42 then
        some { s with
          req := s.req.drop 42
          reads := s.reads ++ [data]
          performed := s.performed ++ [decodeRequest (overwrite session.request data)] }
      else none
  | .read _, .atEnd => if s.req = [] ∧ s.client.stage < 2 then some s else none
  | .reply _ left _, .wrote n =>
      if 3 ≤ s.client.stage ∧ Fits cap s.notif left.length n then
        some { s with notif := s.notif ++ left.take n }
      else none
  | .reply _ _ _, .writeFails => if s.client.stage < 3 then some s else none
  | _, _ => none

/-- What the manager thread comes to. -/
def State.after (s : State) : Outcome → State
  | .goesOn manager _ => { s with manager := manager }
  | .exits => { s with process := .exited }
  | .undefined => { s with process := .undefined }

/-- Nothing is followed beyond the end of the server's process. -/
def step (cap : Nat) (s : State) (event : Event) : Option State :=
  if s.process = .running then
    match event with
    | .client mem => stepClient cap s mem
    | .clientNotif => stepNotif s
    | .manager ht result =>
        match transfer cap s s.manager result, stepManager ht s.manager result with
        | some s', some outcome => some (s'.after outcome)
        | _, _ => none
    | .notification data =>
        if 3 < managerStage s.manager ∧ Fits cap s.notif data.length data.length then
          if 3 ≤ s.client.stage then some { s with notif := s.notif ++ data }
          else some { s with process := .exited }
        else none
  else none

/-! ## Steps -/

/-- A step of the system, and what it leaves. -/
inductive Step (cap : Nat) (s : State) : Event → State → Prop where
  | opensResp {mem : Byte} (hclient : s.client = .openResp) (hmanager : 1 ≤ managerStage s.manager) :
      Step cap s (.client mem) { s with client := .openReq }
  | opensReq {mem : Byte} (hclient : s.client = .openReq) (hmanager : 2 ≤ managerStage s.manager) :
      Step cap s (.client mem) { s with client := .openNotif }
  | opensNotif {mem : Byte} (hclient : s.client = .openNotif) (hmanager : 3 ≤ managerStage s.manager) :
      Step cap s (.client mem) { s with client := .connect }
  | connects {mem : Byte} (hclient : s.client = .connect)
      (hready : s.resp ≠ [] ∨ managerStage s.manager < 1) :
      Step cap s (.client mem) { s with
        client := if readMsg mem s.resp = 48 then .loop else .returned 1
        resp := s.resp.drop 2 }
  | calls {mem : Byte} {call : Call} {calls : List Call} (hclient : s.client = .loop)
      (hcalls : s.calls = call :: calls) (hmanager : 2 ≤ managerStage s.manager)
      (hfits : Fits cap s.req call.message.length call.message.length) :
      Step cap s (.client mem) { s with
        client := call.next
        calls := calls
        req := s.req ++ call.message
        made := s.made ++ [call] }
  | callFails {mem : Byte} {call : Call} {calls : List Call} (hclient : s.client = .loop)
      (hcalls : s.calls = call :: calls) (hmanager : managerStage s.manager < 2) :
      Step cap s (.client mem) { s with client := .killed }
  | disconnects {mem : Byte} (hclient : s.client = .disconnect)
      (hready : s.resp ≠ [] ∨ managerStage s.manager < 1) :
      Step cap s (.client mem) { s with
        client := if readMsg mem s.resp = 0 then .closing else .returned 1
        resp := s.resp.drop 2 }
  | returns {mem : Byte} (hclient : s.client = .closing) :
      Step cap s (.client mem) { s with client := .returned 0 }
  | notifCalls (hthread : s.thread = .loop) (hclient : s.client = .loop ∨ s.client = .disconnect) :
      Step cap s .clientNotif { s with thread := .read }
  | notifFails (hthread : s.thread = .loop) (hclient : s.client = .closing) :
      Step cap s .clientNotif { s with client := .exited }
  | notifReads (hthread : s.thread = .read) (hclient : s.client.Connected) (hnotif : s.notif ≠ []) :
      Step cap s .clientNotif
        { s with notif := s.notif.drop (2 * MAX_STRING_SIZE), thread := .loop }
  | notifEnds (hthread : s.thread = .read) (hclient : s.client.Connected) (hnotif : s.notif = [])
      (hmanager : managerStage s.manager < 3) :
      Step cap s .clientNotif { s with thread := .ended }
  | managerOpensResp {ht : HashTable} {paths : PipePaths} {fd : Int}
      (hmanager : s.manager = .openResp paths) (hclient : 1 ≤ s.client.stage) :
      Step cap s (.manager ht (.opened fd)) { s with manager := .openReq paths fd }
  | managerOpensReq {ht : HashTable} {paths : PipePaths} {respFd fd : Int}
      (hmanager : s.manager = .openReq paths respFd) (hclient : 2 ≤ s.client.stage) :
      Step cap s (.manager ht (.opened fd)) { s with manager := .openNotif paths respFd fd }
  | managerOpensNotif {ht : HashTable} {paths : PipePaths} {respFd reqFd fd : Int} (hne : respFd ≠ fd)
      (hmanager : s.manager = .openNotif paths respFd reqFd) (hclient : 3 ≤ s.client.stage) :
      Step cap s (.manager ht (.opened fd)) { s with
        manager := .greet ⟨respFd, reqFd, fd, hne, zeroRequest, []⟩ (ascii "10") }
  | greets {ht : HashTable} {session : Session} {left : List Byte} {n : Nat}
      (hmanager : s.manager = .greet session left) (hclient : 1 ≤ s.client.stage)
      (hfits : Fits cap s.resp left.length n) :
      Step cap s (.manager ht (.wrote n)) { s with
        resp := s.resp ++ left.take n
        manager := greeting session (left.drop n) }
  | greetFails {ht : HashTable} {session : Session} {left : List Byte}
      (hmanager : s.manager = .greet session left) (hclient : s.client.stage < 1) :
      Step cap s (.manager ht .writeFails) { s with process := .exited }
  | handles {ht : HashTable} {session : Session} {stack : List Byte} {h : Handled}
      (hmanager : s.manager = .read session) (hreq : s.req ≠ [])
      (hh : handleRequest session ht stack (decodeRequest (overwrite session.request (s.req.take 42)))
        = some h) :
      Step cap s (.manager ht (.got (s.req.take 42) stack)) { s with
        req := s.req.drop 42
        reads := s.reads ++ [s.req.take 42]
        performed := s.performed ++ [decodeRequest (overwrite session.request (s.req.take 42))]
        manager := replying { session with
            request := overwrite session.request (s.req.take 42)
            handled := session.handled
              ++ [(decodeRequest (overwrite session.request (s.req.take 42)), h.result)] }
          (h.sent.flatMap Prod.snd) h.ends }
  | noBucket {ht : HashTable} {session : Session} {stack : List Byte}
      (hmanager : s.manager = .read session) (hreq : s.req ≠ [])
      (hh : handleRequest session ht stack (decodeRequest (overwrite session.request (s.req.take 42)))
        = none) :
      Step cap s (.manager ht (.got (s.req.take 42) stack)) { s with
        req := s.req.drop 42
        reads := s.reads ++ [s.req.take 42]
        performed := s.performed ++ [decodeRequest (overwrite session.request (s.req.take 42))]
        process := .undefined }
  | ends {ht : HashTable} {session : Session} (hmanager : s.manager = .read session) (hreq : s.req = [])
      (hclient : s.client.stage < 2) : Step cap s (.manager ht .atEnd) { s with manager := .waiting }
  | answers {ht : HashTable} {session : Session} {left : List Byte} {ends : Bool} {n : Nat}
      (hmanager : s.manager = .reply session left ends) (hclient : 3 ≤ s.client.stage)
      (hfits : Fits cap s.notif left.length n) :
      Step cap s (.manager ht (.wrote n)) { s with
        notif := s.notif ++ left.take n
        manager := replying session (left.drop n) ends }
  | answerFails {ht : HashTable} {session : Session} {left : List Byte} {ends : Bool}
      (hmanager : s.manager = .reply session left ends) (hclient : s.client.stage < 3) :
      Step cap s (.manager ht .writeFails) { s with process := .exited }
  | notified {data : List Byte} (hmanager : 3 < managerStage s.manager) (hclient : 3 ≤ s.client.stage)
      (hfits : Fits cap s.notif data.length data.length) :
      Step cap s (.notification data) { s with notif := s.notif ++ data }
  | notifyFails {data : List Byte} (hmanager : 3 < managerStage s.manager) (hclient : s.client.stage < 3)
      (hfits : Fits cap s.notif data.length data.length) :
      Step cap s (.notification data) { s with process := .exited }

theorem stepClient_cases {cap : Nat} {s s' : State} {mem : Byte} (h : stepClient cap s mem = some s') :
    Step cap s (.client mem) s' := by
  have hready (hwait : ¬ (s.resp = [] ∧ 1 ≤ managerStage s.manager)) :
      s.resp ≠ [] ∨ managerStage s.manager < 1 := by
    rw [not_and_or, not_le] at hwait
    exact hwait
  unfold stepClient at h
  split at h
  · rename_i hclient
    split_ifs at h with hmanager
    obtain rfl := Option.some.inj h
    exact .opensResp hclient hmanager
  · rename_i hclient
    split_ifs at h with hmanager
    obtain rfl := Option.some.inj h
    exact .opensReq hclient hmanager
  · rename_i hclient
    split_ifs at h with hmanager
    obtain rfl := Option.some.inj h
    exact .opensNotif hclient hmanager
  · rename_i hclient
    split at h
    · exact absurd h (by simp)
    · rename_i hwait
      obtain rfl := Option.some.inj h
      exact .connects hclient (hready hwait)
  · rename_i hclient
    split at h
    · exact absurd h (by simp)
    · rename_i hcalls
      split_ifs at h with hmanager hfits
      · obtain rfl := Option.some.inj h
        exact .calls hclient hcalls hmanager hfits
      · obtain rfl := Option.some.inj h
        exact .callFails hclient hcalls (not_le.mp hmanager)
  · rename_i hclient
    split at h
    · exact absurd h (by simp)
    · rename_i hwait
      obtain rfl := Option.some.inj h
      exact .disconnects hclient (hready hwait)
  · rename_i hclient
    obtain rfl := Option.some.inj h
    exact .returns hclient
  · exact absurd h (by simp)
  · exact absurd h (by simp)
  · exact absurd h (by simp)

theorem stepNotif_cases {cap : Nat} {s s' : State} (h : stepNotif s = some s') :
    Step cap s .clientNotif s' := by
  unfold stepNotif at h
  split at h
  · rename_i hthread
    split_ifs at h with hopen hclosed
    · obtain rfl := Option.some.inj h
      exact .notifCalls hthread hopen
    · obtain rfl := Option.some.inj h
      exact .notifFails hthread hclosed
  · rename_i hthread
    split_ifs at h with hclient hnotif hend
    · obtain rfl := Option.some.inj h
      exact .notifReads hthread hclient hnotif
    · obtain rfl := Option.some.inj h
      exact .notifEnds hthread hclient (not_not.mp hnotif) hend
  · exact absurd h (by simp)

/-- The response to a registration, and what it leaves to write. -/
theorem greeting_ten (session : Session) :
    greeting session (Server.sendMsg (ascii "10")) = .greet session (ascii "10") := by
  have hten : Server.sendMsg (ascii "10") = ascii "10" := by decide
  rw [hten, greeting, if_neg (by decide)]

theorem stepManager_steps {cap : Nat} {s s' : State} {m : Manager} {ht : HashTable} {result : Result}
    {outcome : Outcome} (hm : s.manager = m) (htransfer : transfer cap s m result = some s')
    (hstep : stepManager ht m result = some outcome) :
    Step cap s (.manager ht result) (s'.after outcome) := by
  unfold transfer at htransfer
  split at htransfer
  · split_ifs at htransfer with hclient
    obtain rfl := Option.some.inj htransfer
    obtain rfl := Option.some.inj hstep
    exact .managerOpensResp hm hclient
  · split_ifs at htransfer with hclient
    obtain rfl := Option.some.inj htransfer
    obtain rfl := Option.some.inj hstep
    exact .managerOpensReq hm hclient
  · split_ifs at htransfer with hclient
    obtain rfl := Option.some.inj htransfer
    rw [stepManager] at hstep
    split_ifs at hstep with hne
    obtain rfl := Option.some.inj hstep
    rw [greeting_ten]
    exact .managerOpensNotif hne hm hclient
  · split_ifs at htransfer with hwrite
    obtain rfl := Option.some.inj htransfer
    rw [stepManager] at hstep
    split_ifs at hstep
    obtain rfl := Option.some.inj hstep
    exact .greets hm hwrite.1 hwrite.2
  · split_ifs at htransfer with hclient
    obtain rfl := Option.some.inj htransfer
    obtain rfl := Option.some.inj hstep
    exact .greetFails hm hclient
  · split_ifs at htransfer with hread
    obtain ⟨hreq, rfl⟩ := hread
    obtain rfl := Option.some.inj htransfer
    rw [stepManager] at hstep
    split_ifs at hstep
    simp only at hstep
    split at hstep
    · rename_i hh
      obtain rfl := Option.some.inj hstep
      exact .handles hm hreq hh
    · rename_i hh
      obtain rfl := Option.some.inj hstep
      exact .noBucket hm hreq hh
  · split_ifs at htransfer with hend
    obtain rfl := Option.some.inj htransfer
    obtain rfl := Option.some.inj hstep
    exact .ends hm hend.1 hend.2
  · split_ifs at htransfer with hwrite
    obtain rfl := Option.some.inj htransfer
    rw [stepManager] at hstep
    split_ifs at hstep
    obtain rfl := Option.some.inj hstep
    exact .answers hm hwrite.1 hwrite.2
  · split_ifs at htransfer with hclient
    obtain rfl := Option.some.inj htransfer
    obtain rfl := Option.some.inj hstep
    exact .answerFails hm hclient
  · exact absurd htransfer (by simp)

theorem step_cases {cap : Nat} {s s' : State} {event : Event} (h : step cap s event = some s') :
    s.process = .running ∧ Step cap s event s' := by
  unfold step at h
  split at h
  · rename_i hrunning
    refine ⟨hrunning, ?_⟩
    split at h
    · exact stepClient_cases h
    · exact stepNotif_cases h
    · split at h
      · rename_i htransfer hstep
        obtain rfl := Option.some.inj h
        exact stepManager_steps rfl htransfer hstep
      · exact absurd h (by simp)
    · split_ifs at h with hopen hclient
      · obtain rfl := Option.some.inj h
        exact .notified hopen.1 hclient hopen.2
      · obtain rfl := Option.some.inj h
        exact .notifyFails hopen.1 (not_le.mp hclient) hopen.2
  · exact absurd h (by simp)

/-- A step of the manager in which its system call returns this. -/
theorem step_manager (cap : Nat) (ht : HashTable) (result : Result) {s s' : State} {m : Manager}
    {outcome : Outcome} (hrunning : s.process = .running) (hm : s.manager = m)
    (htransfer : transfer cap s m result = some s') (hstep : stepManager ht m result = some outcome) :
    step cap s (.manager ht result) = some (s'.after outcome) := by
  unfold step
  rw [if_pos hrunning]
  simp only [hm, htransfer, hstep]

/-- The steps described are the steps the system can make. -/
theorem step_of {cap : Nat} {s s' : State} {event : Event} (hrunning : s.process = .running)
    (h : Step cap s event s') : step cap s event = some s' := by
  have hlen (hreq : s.req ≠ []) : 1 ≤ (s.req.take 42).length ∧ (s.req.take 42).length ≤ 42 := by
    have hpos := List.length_pos_iff.mpr hreq
    rw [List.length_take]
    omega
  cases h with
  | opensResp hc hm => simp [step, hrunning, stepClient, hc, hm]
  | opensReq hc hm => simp [step, hrunning, stepClient, hc, hm]
  | opensNotif hc hm => simp [step, hrunning, stepClient, hc, hm]
  | connects hc hready =>
      have hgo : ¬ (s.resp = [] ∧ 1 ≤ managerStage s.manager) := by
        rw [not_and_or, not_le]
        exact hready
      simp only [step, hrunning, stepClient, hc, if_neg hgo, if_true]
  | calls hc hcalls hm hfits => simp [step, hrunning, stepClient, hc, hcalls, hm, hfits]
  | callFails hc hcalls hm => simp [step, hrunning, stepClient, hc, hcalls, Nat.not_le_of_lt hm]
  | disconnects hc hready =>
      have hgo : ¬ (s.resp = [] ∧ 1 ≤ managerStage s.manager) := by
        rw [not_and_or, not_le]
        exact hready
      simp only [step, hrunning, stepClient, hc, if_neg hgo, if_true]
  | returns hc => simp [step, hrunning, stepClient, hc]
  | notifCalls hthread hc => simp only [step, hrunning, stepNotif, hthread, if_pos hc, if_true]
  | notifFails hthread hc => simp [step, hrunning, stepNotif, hthread, hc]
  | notifReads hthread hc hnotif => simp only [step, hrunning, stepNotif, hthread, if_pos hc, if_pos hnotif, if_true]
  | notifEnds hthread hc hnotif hm =>
      simp only [step, hrunning, stepNotif, hthread, if_pos hc, if_neg (not_not.mpr hnotif), if_pos hm, if_true]
  | @managerOpensResp ht paths fd hm hc =>
      exact step_manager cap ht (.opened fd) hrunning hm (if_pos hc) rfl
  | @managerOpensReq ht paths respFd fd hm hc =>
      exact step_manager cap ht (.opened fd) hrunning hm (if_pos hc) rfl
  | @managerOpensNotif ht paths respFd reqFd fd hne hm hc =>
      rw [step_manager cap ht (.opened fd) hrunning hm (if_pos hc) (dif_pos hne), greeting_ten]
      rfl
  | @greets ht session left n hm hc hfits =>
      exact step_manager cap ht (.wrote n) hrunning hm (if_pos ⟨hc, hfits⟩) (if_pos ⟨hfits.1, hfits.2.1⟩)
  | @greetFails ht session left hm hc =>
      exact step_manager cap ht .writeFails hrunning hm (if_pos hc) rfl
  | @handles ht session stack h hm hreq hh =>
      have hstep : stepManager ht (.read session) (.got (s.req.take 42) stack)
          = some (.goesOn (replying { session with
                request := overwrite session.request (s.req.take 42)
                handled := session.handled
                  ++ [(decodeRequest (overwrite session.request (s.req.take 42)), h.result)] }
              (h.sent.flatMap Prod.snd) h.ends) h.table) := by
        rw [stepManager, if_pos (hlen hreq)]
        simp only [hh]
      exact step_manager cap ht (.got (s.req.take 42) stack) hrunning hm (if_pos ⟨hreq, rfl⟩) hstep
  | @noBucket ht session stack hm hreq hh =>
      have hstep : stepManager ht (.read session) (.got (s.req.take 42) stack) = some .undefined := by
        rw [stepManager, if_pos (hlen hreq)]
        simp only [hh]
      exact step_manager cap ht (.got (s.req.take 42) stack) hrunning hm (if_pos ⟨hreq, rfl⟩) hstep
  | @ends ht session hm hreq hc =>
      exact step_manager cap ht .atEnd hrunning hm (if_pos ⟨hreq, hc⟩) rfl
  | @answers ht session left ends n hm hc hfits =>
      exact step_manager cap ht (.wrote n) hrunning hm (if_pos ⟨hc, hfits⟩) (if_pos ⟨hfits.1, hfits.2.1⟩)
  | @answerFails ht session left ends hm hc =>
      exact step_manager cap ht .writeFails hrunning hm (if_pos hc) rfl
  | notified hm hc hfits => simp only [step, hrunning, if_pos (And.intro hm hfits), if_pos hc, if_true]
  | notifyFails hm hc hfits =>
      simp only [step, hrunning, if_pos (And.intro hm hfits), if_neg (Nat.not_le_of_lt hc), if_true]

end Kvs.System
