import Kvs.Correctness.SessionProtocol

/-!
# `Correctness.SessionProgress` — how sessions come to rest

Left to themselves the two ends of a session cannot go on forever, and the states in which neither can
move are of four kinds: the session is over, with the client at its end (`Done`) or ended by its own
thread for notifications, whose descriptor `kvs_disconnect` has closed (`Exited`); the client has made all
its calls and no disconnect (`Idle`); or both ends wait for each other (`Hung`). A session hangs exactly
when the read that took the disconnect off the pipe had other bytes in front of it.
-/

namespace Kvs.System

open Client Server

/-! ## States at rest -/

/-- `main` has returned 0, and the manager waits for another registration. -/
def Done (s : State) : Prop := s.client = .returned 0 ∧ s.manager = .waiting

/-- `thread_notif` has called `exit(EXIT_FAILURE)` behind the disconnect, and the manager waits for another
    registration. -/
def Exited (s : State) : Prop := s.client = .exited ∧ s.manager = .waiting

/-- All calls are made and read, the client asks for the next command, forever, and its thread waits for
    a notification. -/
def Idle (s : State) : Prop :=
  s.client = .loop ∧ s.calls = [] ∧ (∃ session, s.manager = .read session) ∧ s.req = [] ∧
    s.notif = [] ∧ s.thread = .read

/-- The client waits in `kvs_disconnect` for the manager to close the response pipe, the manager at the
    empty request pipe for a request, and the client's thread for a notification. -/
def Hung (s : State) : Prop :=
  s.client = .disconnect ∧ (∃ session, s.manager = .read session) ∧ s.req = [] ∧ s.notif = [] ∧
    s.thread = .read

/-- Neither end can make a step. -/
def AtRest (cap : Nat) (s : State) : Prop := ∀ event : Event, event.Own → step cap s event = none

section AtRest

variable {cap : Nat} {script : List Call} {s : State}

/-- What fits in an empty pipe. -/
theorem fits_nil {left : List Byte} (hcap : PIPE_BUF ≤ cap) (hleft : left ≠ []) :
    ∃ n, Fits cap [] left.length n := by
  have hpos := List.length_pos_iff.mpr hleft
  by_cases hshort : left.length ≤ PIPE_BUF
  · exact ⟨left.length, hpos, Nat.le_refl _, by simpa using hshort.trans hcap, fun _ => rfl⟩
  · refine ⟨1, Nat.one_pos, hpos, ?_, fun h => absurd h hshort⟩
    have hone : 1 ≤ PIPE_BUF := by decide
    simpa using hone.trans hcap

theorem AtRest.no_step {s s' : State} (h : AtRest cap s) (hrunning : s.process = .running) {event : Event}
    (hstep : Step cap s event s') (hown : event.Own) : False := by
  have hnone := h event hown
  rw [step_of hrunning hstep] at hnone
  exact absurd hnone (by simp)

/-- A thread that rests in a session waits at the empty pipe. -/
theorem AtRest.notif {s : State} (h : AtRest cap s) (hi : Inv script s) (hbusy : s.manager ≠ .waiting)
    (hclient : s.client = .loop ∨ s.client = .disconnect) : s.notif = [] ∧ s.thread = .read := by
  have hconnected : s.client.Connected := by
    rcases hclient with hc | hc <;> (rw [hc]; trivial)
  cases hthread : s.thread with
  | loop => exact (h.no_step hi.running (.notifCalls hthread hclient) trivial).elim
  | ended => exact hi.not_ended hbusy hthread
  | read =>
      refine ⟨?_, rfl⟩
      by_contra hne
      exact h.no_step hi.running (.notifReads hthread hconnected hne) trivial

/-- A manager that is not ahead of the client gets its pipe open. -/
theorem AtRest.opening {s : State} (h : AtRest cap s) (hrunning : s.process = .running)
    (hstage : 1 ≤ managerStage s.manager ∧ managerStage s.manager ≤ 3) :
    s.client.stage < managerStage s.manager := by
  by_contra hle
  rw [not_lt] at hle
  cases hm : s.manager with
  | waiting => simp [hm, managerStage] at hstage
  | openResp paths =>
      rw [hm] at hle
      exact h.no_step hrunning
        (.managerOpensResp hm hle : Step cap s (.manager createHashTable (.opened 3)) _) trivial
  | openReq paths respFd =>
      rw [hm] at hle
      exact h.no_step hrunning
        (.managerOpensReq hm hle : Step cap s (.manager createHashTable (.opened 3)) _) trivial
  | openNotif paths respFd reqFd =>
      rw [hm] at hle
      have hne : respFd ≠ respFd + 1 := by omega
      exact h.no_step hrunning
        (.managerOpensNotif hne hm hle : Step cap s (.manager createHashTable (.opened (respFd + 1))) _) trivial
  | greet session left => simp [hm, managerStage] at hstage
  | read session => simp [hm, managerStage] at hstage
  | reply session left ends => simp [hm, managerStage] at hstage

/-- A manager that reads has nothing to read. -/
theorem AtRest.reading {s : State} (h : AtRest cap s) (hrunning : s.process = .running)
    {session : Session} (hm : s.manager = .read session) : s.req = [] := by
  by_contra hne
  cases hh : handleRequest session createHashTable []
      (decodeRequest (overwrite session.request (s.req.take 42))) with
  | none => exact h.no_step hrunning (.noBucket hm hne hh) trivial
  | some answer => exact h.no_step hrunning (.handles hm hne hh) trivial

/-- **Where nothing can move**, the client has ended, or the session is idle or hung. -/
theorem AtRest.cases {s : State} (h : AtRest cap s) (hi : Inv script s) (hcap : PIPE_BUF ≤ cap)
    (hproper : ∀ call ∈ script, call.Proper) : Done s ∨ Exited s ∨ Idle s ∨ Hung s := by
  -- the client cannot make a step, whatever its buffer holds
  have hclient {s' : State} (hstep : Step cap s (.client 0) s') : False :=
    h.no_step hi.running hstep trivial
  cases hi.phase with
  | opening hc hstage _ hresp _ =>
      -- the side that is not ahead gets its pipe open
      have hbehind := h.opening hi.running hstage
      rcases hc with hc | hc | hc | hc
      · exact (hclient (.opensResp hc hstage.1)).elim
      · rw [hc] at hbehind
        exact (hclient (.opensReq hc (Nat.le_of_lt hbehind))).elim
      · rw [hc] at hbehind
        exact (hclient (.opensNotif hc (Nat.le_of_lt hbehind))).elim
      · rw [hc, ClientPc.stage] at hbehind
        omega
  | @greeting session hc hm hresp _ =>
      have hstage : 1 ≤ s.client.stage := by
        rcases hc with hc | hc <;> simp [hc, ClientPc.stage]
      have hfits : Fits cap s.resp (ascii "10").length 2 := by
        refine ⟨by decide, by decide, ?_, fun _ => by decide⟩
        rw [hresp]
        exact (show 0 + 2 ≤ PIPE_BUF by decide).trans hcap
      exact (h.no_step hi.running
        (.greets hm hstage hfits : Step cap s (.manager createHashTable (.wrote 2)) _) trivial).elim
  | greeted hc hm hresp _ =>
      rcases hc with hc | hc
      · exact (hclient (.opensNotif hc (by simp [hm, managerStage]))).elim
      · have hne : s.resp ≠ [] := by
          rw [hresp]
          decide
        exact (hclient (.connects hc (.inl hne))).elim
  | @reading session hc hm hresp _ =>
      have hreq := h.reading hi.running hm
      obtain ⟨hnotif, hthread⟩ := h.notif hi (by simp [hm]) hc
      rcases hc with hc | hc
      · cases hcalls : s.calls with
        | nil => exact .inr (.inr (.inl ⟨hc, hcalls, ⟨session, hm⟩, hreq, hnotif, hthread⟩))
        | cons call calls =>
            -- the next message fits
            have hcall : call.Proper := by
              apply hproper
              rw [← hi.script, hcalls]
              simp
            obtain ⟨hpos, hle⟩ := hcall.message_length
            have hfits : Fits cap s.req call.message.length call.message.length := by
              refine ⟨hpos, Nat.le_refl _, ?_, fun _ => rfl⟩
              rw [hreq, List.length_nil, Nat.zero_add]
              exact (hle.trans (by decide : 40 ≤ PIPE_BUF)).trans hcap
            exact (hclient (.calls hc hcalls (by simp [hm, managerStage]) hfits)).elim
      · exact .inr (.inr (.inr ⟨hc, ⟨session, hm⟩, hreq, hnotif, hthread⟩))
  | @answering session left ends hc hm hleft _ _ =>
      obtain ⟨hnotif, -⟩ := h.notif hi (by simp [hm]) hc
      obtain ⟨n, hfits⟩ := fits_nil hcap hleft
      rw [← hnotif] at hfits
      have hstage : 3 ≤ s.client.stage := by
        rcases hc with hc | hc <;> simp [hc, ClientPc.stage]
      exact (h.no_step hi.running
        (.answers hm hstage hfits : Step cap s (.manager createHashTable (.wrote n)) _) trivial).elim
  | served hc hm hresp _ =>
      rcases hc with hc | hc | hc | hc
      · exact (hclient (.disconnects hc (.inr (by simp [hm, managerStage])))).elim
      · exact (hclient (.returns hc)).elim
      · exact .inl ⟨hc, hm⟩
      · exact .inr (.inl ⟨hc, hm⟩)

/-- Nothing moves once the client has ended, nor in a session that is idle or hung. -/
theorem atRest_of {s : State} (hi : Inv script s) (h : Done s ∨ Exited s ∨ Idle s ∨ Hung s) :
    AtRest cap s := by
  have hclient (mem : Byte) : stepClient cap s mem = none := by
    rcases h with ⟨hc, -⟩ | ⟨hc, -⟩ | ⟨hc, hcalls, -⟩ | ⟨hc, ⟨session, hm⟩, -⟩
    · simp [stepClient, hc]
    · simp [stepClient, hc]
    · simp [stepClient, hc, hcalls]
    · have hresp : s.resp = [] := by
        rcases hi.phase.of_read hm with ⟨hopening, -⟩ | ⟨-, hresp, -⟩
        · simp [hc] at hopening
        · exact hresp
      simp [stepClient, hc, hm, hresp, managerStage]
  have hreading : s.manager = .waiting ∨
      ∃ session, s.manager = .read session ∧ s.req = [] ∧ s.client.stage = 4 := by
    rcases h with ⟨-, hm⟩ | ⟨-, hm⟩ | ⟨hc, -, ⟨session, hm⟩, hreq, -⟩ | ⟨hc, ⟨session, hm⟩, hreq, -⟩
    · exact .inl hm
    · exact .inl hm
    · exact .inr ⟨session, hm, hreq, by rw [hc]; rfl⟩
    · exact .inr ⟨session, hm, hreq, by rw [hc]; rfl⟩
  have hmanager (result : Result) : transfer cap s s.manager result = none := by
    rcases hreading with hm | ⟨session, hm, hreq, hstage⟩
    · rw [hm]
      cases result <;> rfl
    · rw [hm]
      cases result with
      | got data stack => simp [transfer, hreq]
      | atEnd => simp [transfer, hstage]
      | taken slot => rfl
      | opened fd => rfl
      | openFails => rfl
      | wrote n => rfl
      | writeFails => rfl
      | readFails => rfl
  have hnotif : stepNotif s = none := by
    rcases h with ⟨hc, -⟩ | ⟨hc, -⟩ | ⟨-, -, ⟨session, hm⟩, -, hempty, hthread⟩ |
      ⟨-, ⟨session, hm⟩, -, hempty, hthread⟩
    · cases hthread : s.thread <;> simp [stepNotif, hthread, hc, ClientPc.Connected]
    · cases hthread : s.thread <;> simp [stepNotif, hthread, hc, ClientPc.Connected]
    · simp [stepNotif, hthread, hempty, hm, managerStage]
    · simp [stepNotif, hthread, hempty, hm, managerStage]
  intro event hown
  unfold step
  rw [if_pos hi.running]
  cases event with
  | client mem => exact hclient mem
  | clientNotif => exact hnotif
  | manager ht result => simp only [hmanager result]
  | notification data => exact absurd hown id

/-! ## The read of the disconnect -/

/-- A client that has ended has made its disconnect, and it was read by itself. -/
theorem Inv.read_of_over {s : State} (hi : Inv script s) (h : Done s ∨ Exited s) :
    s.client.Gone ∧ [2] ∈ s.reads := by
  have hgone : s.client.Gone := by
    rcases h with ⟨hc, -⟩ | ⟨hc, -⟩
    · exact .inr (.inl hc)
    · exact .inr (.inr hc)
  exact ⟨hgone, (hi.phase.of_gone hgone).2.2⟩

/-- A client that has returned has left the manager waiting. -/
theorem Inv.done_of_returned {s : State} (hi : Inv script s) (hc : s.client = .returned 0) : Done s :=
  ⟨hc, (hi.phase.of_gone (.inr (.inl hc))).1⟩

theorem Inv.unread_of_hung {s : State} (hi : Inv script s) (h : Hung s) : [2] ∉ s.reads := by
  obtain ⟨hc, ⟨session, hm⟩, -, -⟩ := h
  rcases hi.phase.of_read hm with ⟨hopening, -⟩ | ⟨-, -, hread⟩
  · simp [hc] at hopening
  · exact hread

/-- The last read of a pipe that is empty once the disconnect is made. -/
theorem Inv.last_read {s : State} (hi : Inv script s) (hmade : .disconnect ∈ s.made)
    (hreq : s.req = []) :
    ∃ before ahead, s.reads = before ++ [ahead ++ [2]] ∧ (ahead = [] ↔ [2] ∈ s.reads) := by
  have hmadeLast : s.made = s.made.dropLast ++ [.disconnect] := by
    have hne := List.ne_nil_of_mem hmade
    have hsplit := List.dropLast_append_getLast hne
    have hmem : .disconnect ∈ s.made.dropLast ++ [s.made.getLast hne] := hsplit.symm ▸ hmade
    rcases List.mem_append.mp hmem with h | h
    · exact absurd h hi.last
    · rw [List.mem_singleton.mp h]
      exact hsplit.symm
  have hstream : s.reads.flatten = (s.made.dropLast.map Call.message).flatten ++ [2] := by
    have h := hi.stream
    rw [hreq, List.append_nil, hmadeLast, List.map_append, List.flatten_append, List.map_singleton,
      disconnect_message, List.flatten_singleton] at h
    exact h
  have hsome : s.reads ≠ [] := by
    intro h
    rw [h] at hstream
    exact absurd hstream.symm (by simp)
  -- the last read is not empty, and ends as the stream does
  obtain ⟨before, data, hreads⟩ := (List.eq_nil_or_concat' s.reads).resolve_left hsome
  have hdata : data ≠ [] := (hi.pieces data (by simp [hreads])).ne_nil
  obtain ⟨ahead, b, rfl⟩ := (List.eq_nil_or_concat' data).resolve_left hdata
  rw [hreads, List.flatten_append, List.flatten_singleton, ← List.append_assoc] at hstream
  obtain ⟨-, hb⟩ := List.append_inj' hstream rfl
  obtain rfl := List.singleton_inj.mp hb
  refine ⟨before, ahead, hreads, ?_, fun h => ?_⟩
  · rintro rfl
    rw [hreads]
    simp
  · obtain ⟨-, hbefore⟩ := hi.read h
    rw [hreads, List.dropLast_concat] at hbefore
    rw [hreads] at h
    rcases List.mem_append.mp h with hold | hnew
    · exact absurd hold hbefore
    · simpa using List.mem_singleton.mp hnew

end AtRest

/-- The disconnect is sent when the subscription was read. -/
def waiting : List Event :=
  connecting ++ [.clientNotif, .client 0, onEmpty (.got [3, 97] []), onEmpty (.wrote 2), .client 0,
    .clientNotif, onEmpty (.got [2] []), onEmpty (.wrote 1), .client 0]

/-- The steps that the client has before it, but for its calls. -/
def clientRank : ClientPc → Nat
  | .openResp => 7
  | .openReq => 6
  | .openNotif => 5
  | .connect => 4
  | .loop => 3
  | .disconnect => 2
  | .closing => 1
  | .returned _ => 0
  | .killed => 0
  | .exited => 0

/-- A `read` of the thread for notifications, and the end of the thread. -/
def threadRank : NotifPc → Nat
  | .loop => 2
  | .read => 1
  | .ended => 0

def managerRank : Manager → Nat
  | .openResp _ => 5
  | .openReq _ _ => 4
  | .openNotif _ _ _ => 3
  | .greet _ _ => 2
  | .read _ => 1
  | .reply _ _ _ => 1
  | .waiting => 0

/-- What the manager has left to write. -/
def toWrite : Manager → Nat
  | .greet _ left => left.length
  | .reply _ left _ => left.length
  | _ => 0

/-- The steps that both sides have before them, and the end of the process. -/
def State.work (s : State) : Nat :=
  (if s.process = .running then 1 else 0) + clientRank s.client + s.calls.length + managerRank s.manager

/-- The bytes in the notification pipe, each of which may bring the thread to its next `read`. -/
def State.toNotify (s : State) : Nat := 2 * s.notif.length + threadRank s.thread

/-- The steps before both sides; the bytes in the request pipe; the bytes that the manager has left to
    write; the bytes in the notification pipe. How long an answer is depends on what the stack holds, so
    each of these may grow by any amount when one in front of it gets less. -/
def State.rank (s : State) : Nat ×ₗ Nat ×ₗ Nat ×ₗ Nat :=
  toLex (s.work, toLex (s.req.length, toLex (toWrite s.manager, s.toNotify)))

theorem rank_lt_iff {s s' : State} :
    s'.rank < s.rank ↔ s'.work ≤ s.work ∧ (s'.work = s.work → s'.req.length ≤ s.req.length ∧
      (s'.req.length = s.req.length → toWrite s'.manager ≤ toWrite s.manager ∧
        (toWrite s'.manager = toWrite s.manager → s'.toNotify < s.toNotify))) := by
  simp only [State.rank, Prod.Lex.toLex_lt_toLex']

theorem managerRank_greeting (session : Session) (left : List Byte) :
    managerRank (greeting session left) ≤ 2 ∧ toWrite (greeting session left) = left.length := by
  unfold greeting
  by_cases h : left = []
  · rw [if_pos h, h]
    exact ⟨Nat.le_succ 1, rfl⟩
  · rw [if_neg h]
    exact ⟨Nat.le_refl 2, rfl⟩

theorem managerRank_replying (session : Session) (left : List Byte) (ends : Bool) :
    managerRank (replying session left ends) ≤ 1 ∧ toWrite (replying session left ends) = left.length := by
  unfold replying
  by_cases h : left = []
  · rw [if_pos h, h]
    cases ends with
    | false => exact ⟨Nat.le_refl 1, rfl⟩
    | true => exact ⟨Nat.zero_le 1, rfl⟩
  · rw [if_neg h]
    exact ⟨Nat.le_refl 1, rfl⟩

theorem clientRank_next (call : Call) : clientRank call.next ≤ 3 := by
  cases call with
  | subscribe key => exact Nat.le_refl 3
  | unsubscribe key => exact Nat.le_refl 3
  | disconnect => exact Nat.le_succ 2

/-- **Every step of the two ends lowers the rank.** -/
theorem step_rank {cap : Nat} {s s' : State} {event : Event} (hown : event.Own)
    (h : step cap s event = some s') : s'.rank < s.rank := by
  obtain ⟨hrunning, hstep⟩ := step_cases h
  rw [rank_lt_iff]
  unfold State.work
  rw [if_pos hrunning]
  cases hstep with
  | opensResp hc => simp only [hrunning, hc, clientRank, if_true]; omega
  | opensReq hc => simp only [hrunning, hc, clientRank, if_true]; omega
  | opensNotif hc => simp only [hrunning, hc, clientRank, if_true]; omega
  | connects hc =>
      simp only [hrunning, hc, if_true]
      split_ifs <;> simp only [clientRank] <;> omega
  | @calls _ call calls hc hcalls =>
      have hnext := clientRank_next call
      have hloop : clientRank s.client = 3 := by
        rw [hc]
        rfl
      simp only [hrunning, hloop, hcalls, if_true, List.length_cons]
      omega
  | callFails hc => simp only [hrunning, hc, clientRank, if_true]; omega
  | disconnects hc =>
      simp only [hrunning, hc, if_true]
      split_ifs <;> simp only [clientRank] <;> omega
  | returns hc => simp only [hrunning, hc, clientRank, if_true]; omega
  | notifCalls hthread =>
      simp only [hrunning, State.toNotify, hthread, threadRank, if_true]
      omega
  | notifFails _ hc => simp only [hrunning, hc, clientRank, if_true]; omega
  | notifReads hthread _ hnotif =>
      have hpos := List.length_pos_iff.mpr hnotif
      have hsize : 2 * MAX_STRING_SIZE = 80 := rfl
      simp only [hrunning, State.toNotify, hthread, threadRank, hsize, if_true, List.length_drop]
      omega
  | notifEnds hthread =>
      simp only [hrunning, State.toNotify, hthread, threadRank, if_true]
      omega
  | managerOpensResp hm => simp only [hrunning, hm, managerRank, if_true]; omega
  | managerOpensReq hm => simp only [hrunning, hm, managerRank, if_true]; omega
  | managerOpensNotif _ hm => simp only [hrunning, hm, managerRank, if_true]; omega
  | @greets _ session left n hm _ hfits =>
      obtain ⟨hpos, hle, -⟩ := hfits
      obtain ⟨hrank, hwrite⟩ := managerRank_greeting session (left.drop n)
      have hold : managerRank s.manager = 2 ∧ toWrite s.manager = left.length := by
        rw [hm]
        exact ⟨rfl, rfl⟩
      simp only [hrunning, hold, hwrite, if_true, List.length_drop]
      omega
  | greetFails hm => simp only [hm, managerRank, reduceCtorEq, if_false]; omega
  | @handles _ session stack answer hm hreq hh =>
      have hpos := List.length_pos_iff.mpr hreq
      have hrank := (managerRank_replying { session with
            request := overwrite session.request (s.req.take 42)
            handled := session.handled
              ++ [(decodeRequest (overwrite session.request (s.req.take 42)), answer.result)] }
          (answer.sent.flatMap Prod.snd) answer.ends).1
      have hold : managerRank s.manager = 1 := by
        rw [hm]
        rfl
      simp only [hrunning, hold, if_true, List.length_drop]
      omega
  | noBucket hm => simp only [hm, managerRank, reduceCtorEq, if_false]; omega
  | ends hm => simp only [hrunning, hm, managerRank, if_true]; omega
  | @answers _ session left ends n hm _ hfits =>
      obtain ⟨hpos, hle, -⟩ := hfits
      obtain ⟨hrank, hwrite⟩ := managerRank_replying session (left.drop n) ends
      have hold : managerRank s.manager = 1 ∧ toWrite s.manager = left.length := by
        rw [hm]
        exact ⟨rfl, rfl⟩
      simp only [hrunning, hold, hwrite, if_true, List.length_drop]
      omega
  | answerFails hm => simp only [hm, managerRank, reduceCtorEq, if_false]; omega
  | notified => exact absurd hown id
  | notifyFails => exact absurd hown id

/-- Up to an answer that the client has not read and a notification behind it. -/
def notified : List Event :=
  connecting ++ [.clientNotif, .client 0, onEmpty (.got [3, 97] []), onEmpty (.wrote 2),
    .notification (ascii "(a,1)")]

end Kvs.System
