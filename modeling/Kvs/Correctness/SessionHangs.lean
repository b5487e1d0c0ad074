import Kvs.Correctness.SessionPaced

/-!
# `Correctness.SessionHangs` — which clients can hang

A run in which the last request and the disconnect behind it are read at one stroke: the manager takes
both for one request, and nobody ends the session. Every client that has asked for anything before its
disconnect can be caught like this, and no other.
-/

namespace Kvs.System

open Client Server

variable {cap : Nat} {s s' : State}

/-! ## Runs put together -/

/-- Some run leads from one state to the other. -/
def Leads (cap : Nat) (s s' : State) : Prop := ∃ events, Transition.run (step cap) events s = some s'

theorem Leads.refl (s : State) : Leads cap s s := ⟨[], rfl⟩

theorem Leads.trans {u : State} (h : Leads cap s s') (h' : Leads cap s' u) : Leads cap s u := by
  obtain ⟨events, hrun⟩ := h
  obtain ⟨more, hmore⟩ := h'
  exact ⟨events ++ more, by rw [Transition.run_append, hrun]; exact hmore⟩

theorem Step.leads {event : Event} (h : Step cap s event s') (hrunning : s.process = .running) :
    Leads cap s s' :=
  ⟨[event], Transition.run_cons_eq_some.mpr ⟨s', step_of hrunning h, rfl⟩⟩

/-- The client is in its loop with these calls to make, and all pipes are empty. -/
structure Ready (calls : List Call) (s : State) : Prop where
  running : s.process = .running
  client : s.client = .loop
  calls : s.calls = calls
  manager : ∃ session, s.manager = .read session
  resp : s.resp = []
  req : s.req = []
  notif : s.notif = []
  thread : s.thread = .read

/-- The session of this run. -/
def openedSession : Session := ⟨3, 4, 5, by decide, zeroRequest, []⟩

/-- Both sides open their pipes one after the other, and the client gets its response. -/
theorem leads_ready (hcap : PIPE_BUF ≤ cap) (calls : List Call) (paths : PipePaths) :
    ∃ s, Leads cap (.init calls paths) s ∧ Ready calls s := by
  let open_ (fd : Int) : Event := .manager createHashTable (.opened fd)
  let greeted : State :=
    ⟨.connect, calls, .greet openedSession (ascii "10"), .running, [], [], [], .loop, [], [], []⟩
  have hopen : Leads cap (.init calls paths) greeted :=
    ⟨[.client 0, open_ 3, .client 0, open_ 4, .client 0, open_ 5], rfl⟩
  have hfits : Fits cap [] (ascii "10").length 2 :=
    ⟨by decide, by decide, (show 0 + 2 ≤ PIPE_BUF by decide).trans hcap, fun _ => by decide⟩
  have hgreet : Leads cap greeted
      { greeted with resp := ascii "10", manager := greeting openedSession [] } :=
    (.greets rfl (Nat.le_add_left 1 3) hfits :
      Step cap greeted (.manager createHashTable (.wrote 2)) _).leads rfl
  have hconnect : Leads cap { greeted with resp := ascii "10", manager := greeting openedSession [] }
      { greeted with client := .loop, manager := .read openedSession, thread := .read } :=
    ⟨[.client 0, .clientNotif], rfl⟩
  exact ⟨_, (hopen.trans hgreet).trans hconnect, rfl, rfl, rfl, ⟨openedSession, rfl⟩, rfl, rfl, rfl, rfl⟩

/-- An answer of two bytes at most reaches the client, and the manager reads on. -/
theorem leads_answered (session : Session) {left : List Byte} (hcap : PIPE_BUF ≤ cap)
    (hrunning : s.process = .running) (hclient : s.client = .loop ∨ s.client = .disconnect)
    (hnotif : s.notif = []) (hthread : s.thread = .read) (hleft : left.length ≤ 2) :
    Leads cap { s with manager := replying session left false } { s with manager := .read session } := by
  unfold replying
  by_cases hnil : left = []
  · rw [if_pos hnil]
    exact Leads.refl _
  · rw [if_neg hnil]
    have hpos := List.length_pos_iff.mpr hnil
    have hstage : 3 ≤ s.client.stage := by
      rcases hclient with hc | hc <;> simp [hc, ClientPc.stage]
    have hfits : Fits cap s.notif left.length left.length := by
      refine ⟨hpos, Nat.le_refl _, ?_, fun _ => rfl⟩
      rw [hnotif, List.length_nil, Nat.zero_add]
      exact (hleft.trans (by decide : 2 ≤ PIPE_BUF)).trans hcap
    have hwrites : Step cap { s with manager := .reply session left false }
        (.manager createHashTable (.wrote left.length))
        { s with
          notif := s.notif ++ left.take left.length
          manager := replying session (left.drop left.length) false } := .answers rfl hstage hfits
    have hwrite := hwrites.leads hrunning
    have hwritten : s.notif ++ left.take left.length = left := by
      rw [hnotif, List.nil_append, List.take_length]
    rw [hwritten, List.drop_length] at hwrite
    have hconnected : s.client.Connected := by
      rcases hclient with hc | hc <;> (rw [hc]; trivial)
    have hreads : Step cap { s with notif := left, manager := .read session } .clientNotif
        { s with notif := left.drop (2 * MAX_STRING_SIZE), thread := .loop, manager := .read session } :=
      .notifReads hthread hconnected hnil
    have hall : left.drop (2 * MAX_STRING_SIZE) = s.notif := by
      rw [hnotif]
      exact List.drop_of_length_le (hleft.trans (by decide))
    rw [hall] at hreads
    -- back to its `read`
    have hcalls : Step cap { s with thread := .loop, manager := .read session } .clientNotif
        { s with thread := .read, manager := .read session } := .notifCalls rfl hclient
    rw [← hthread] at hcalls
    exact (hwrite.trans (hreads.leads hrunning)).trans (hcalls.leads hrunning)

/-- The answer to a request, the memory behind `response` starting with a NUL. -/
theorem answer_length {session : Session} {ht : HashTable} {op : SessionOp} {h : Handled}
    (hh : handleRequest session ht [] op = some h) : (h.sent.flatMap Prod.snd).length ≤ 2 := by
  have hsend (buffer : List Byte) (hlen : buffer.length ≤ 2) : (Server.sendMsg buffer).length ≤ 2 :=
    (List.takeWhile_sublist _).length_le.trans hlen
  cases op with
  | disconnect =>
      obtain rfl := Option.some.inj hh
      rw [List.flatMap_singleton]
      exact hsend _ (by simp)
  | subscribe key =>
      obtain ⟨r, -, hr⟩ := Option.bind_eq_some_iff.mp hh
      obtain rfl := Option.some.inj hr
      rw [List.flatMap_singleton]
      exact hsend _ (by simp)
  | unsubscribe key =>
      obtain ⟨r, -, hr⟩ := Option.bind_eq_some_iff.mp hh
      obtain rfl := Option.some.inj hr
      rw [List.flatMap_singleton]
      exact hsend _ (by simp)
  | unrecognized =>
      obtain rfl := Option.some.inj hh
      exact Nat.zero_le 2
  | pipeClosed =>
      obtain rfl := Option.some.inj hh
      exact Nat.zero_le 2

/-- What is in the request pipe is read, taken for something that is no disconnect, and answered. -/
theorem leads_handled {session : Session} (hcap : PIPE_BUF ≤ cap) (hrunning : s.process = .running)
    (hclient : s.client = .loop ∨ s.client = .disconnect) (hm : s.manager = .read session)
    (hnotif : s.notif = []) (hthread : s.thread = .read) (hpiece : Piece (s.req.take 42))
    (hne : s.req.take 42 ≠ [2]) :
    ∃ session', Leads cap s { s with
      req := s.req.drop 42
      reads := s.reads ++ [s.req.take 42]
      performed := s.performed ++ [decodeRequest (overwrite session.request (s.req.take 42))]
      manager := .read session' } := by
  obtain ⟨hbounds, hdisc, hopen⟩ := piece_decode hpiece session.request
  obtain ⟨answer, hh⟩ := Option.isSome_iff_exists.mp
    ((handleRequest_isSome_iff session createHashTable [] _).mpr hbounds)
  have hends : answer.ends = false := by
    rw [← Bool.not_eq_true, handleRequest_ends hh, not_or]
    exact ⟨fun h => hne (hdisc.mp h), hopen⟩
  have hreq : s.req ≠ [] := by
    intro hnil
    rw [hnil] at hpiece
    exact hpiece.ne_nil rfl
  have hhandle := (Step.handles hm hreq hh : Step cap s _ _).leads hrunning
  rw [hends] at hhandle
  let read : State := { s with
    req := s.req.drop 42
    reads := s.reads ++ [s.req.take 42]
    performed := s.performed ++ [decodeRequest (overwrite session.request (s.req.take 42))] }
  exact ⟨_, hhandle.trans
    (leads_answered (s := read) _ hcap hrunning hclient hnotif hthread (answer_length hh))⟩

/-! ## Calls one by one -/

/-- A call fits in an empty pipe, and so does a disconnect behind it. -/
theorem Call.Proper.fits {call : Call} (h : call.Proper) (hcap : PIPE_BUF ≤ cap) (req : List Byte)
    (hreq : req.length ≤ 40) : Fits cap req call.message.length call.message.length := by
  obtain ⟨hpos, hle⟩ := h.message_length
  refine ⟨hpos, Nat.le_refl _, ?_, fun _ => rfl⟩
  have hbuf : 80 ≤ PIPE_BUF := by decide
  omega

/-- A request that is sent into the empty pipe is read and answered. -/
theorem Ready.serve {call : Call} {calls : List Call} (h : Ready (call :: calls) s)
    (hcap : PIPE_BUF ≤ cap) (hproper : call.Proper) (hne : call ≠ .disconnect) :
    ∃ s', Leads cap s s' ∧ Ready calls s' := by
  obtain ⟨session, hm⟩ := h.manager
  obtain ⟨opCode, b, rest, hmessage, hop, hb⟩ := hproper.message_cons hne
  have hnext : call.next = .loop := by
    cases call with
    | subscribe key => rfl
    | unsubscribe key => rfl
    | disconnect => exact absurd rfl hne
  have hfits := hproper.fits hcap s.req (by rw [h.req]; decide)
  have hcall := (Step.calls h.client h.calls (by simp [hm, managerStage]) hfits :
    Step cap s (.client 0) _).leads h.running
  have htake : (s.req ++ call.message).take 42 = call.message := by
    rw [h.req, List.nil_append]
    exact List.take_of_length_le (hproper.message_length.2.trans (by decide))
  have hpiece : Piece ((s.req ++ call.message).take 42) := by
    rw [htake, hmessage]
    exact .request hop hb
  have hlong : (s.req ++ call.message).take 42 ≠ [2] := by
    rw [htake, hmessage]
    simp
  let called : State := { s with
    client := call.next
    calls := calls
    req := s.req ++ call.message
    made := s.made ++ [call] }
  obtain ⟨session', hread⟩ := leads_handled (s := called) hcap h.running (.inl hnext) hm h.notif h.thread
    hpiece hlong
  refine ⟨_, hcall.trans hread, h.running, hnext, rfl, ⟨session', rfl⟩, h.resp, ?_, h.notif, h.thread⟩
  show (s.req ++ call.message).drop 42 = []
  rw [h.req, List.nil_append]
  exact List.drop_of_length_le (hproper.message_length.2.trans (by decide))

/-- Requests one by one. -/
theorem Ready.serves {calls rest : List Call} (h : Ready (calls ++ rest) s) (hcap : PIPE_BUF ≤ cap)
    (hproper : ∀ call ∈ calls, call.Proper) (hne : .disconnect ∉ calls) :
    ∃ s', Leads cap s s' ∧ Ready rest s' := by
  induction calls generalizing s with
  | nil => exact ⟨s, Leads.refl s, h⟩
  | cons call calls ih =>
      have hcall : call ≠ .disconnect := by
        rintro rfl
        exact hne List.mem_cons_self
      obtain ⟨u, hu, hready⟩ := h.serve hcap (hproper call List.mem_cons_self) hcall
      obtain ⟨s', hs', hrest⟩ := ih hready (fun c hc => hproper c (List.mem_cons_of_mem call hc))
        (fun hc => hne (List.mem_cons_of_mem call hc))
      exact ⟨s', hu.trans hs', hrest⟩

/-- A request and the disconnect behind it, read at one stroke. -/
theorem Ready.hang {call : Call} {calls : List Call} (h : Ready (call :: .disconnect :: calls) s)
    (hcap : PIPE_BUF ≤ cap) (hproper : call.Proper) (hne : call ≠ .disconnect) :
    ∃ s', Leads cap s s' ∧ Hung s' := by
  obtain ⟨session, hm⟩ := h.manager
  obtain ⟨opCode, b, rest, hmessage, hop, hb⟩ := hproper.message_cons hne
  have hnext : call.next = .loop := by
    cases call with
    | subscribe key => rfl
    | unsubscribe key => rfl
    | disconnect => exact absurd rfl hne
  have hopen : 2 ≤ managerStage s.manager := by simp [hm, managerStage]
  -- both calls, with the manager still at its read
  have hcall := (Step.calls h.client h.calls hopen (hproper.fits hcap s.req (by rw [h.req]; decide)) :
    Step cap s (.client 0) _).leads h.running
  let called : State := { s with
    client := call.next
    calls := .disconnect :: calls
    req := s.req ++ call.message
    made := s.made ++ [call] }
  have hreq : called.req = call.message := by
    show s.req ++ call.message = call.message
    rw [h.req, List.nil_append]
  have hproper' : Call.Proper .disconnect := trivial
  have hdisconnect := (Step.calls (s := called) hnext rfl hopen
    (hproper'.fits hcap called.req (hreq ▸ hproper.message_length.2)) :
    Step cap called (.client 0) _).leads h.running
  let disconnected : State := { called with
    client := .disconnect
    calls := calls
    req := called.req ++ Call.message .disconnect
    made := called.made ++ [.disconnect] }
  have hboth : disconnected.req = call.message ++ [2] := by
    show called.req ++ Call.message .disconnect = call.message ++ [2]
    rw [hreq, disconnect_message]
  have hlen : disconnected.req.length ≤ 42 := by
    have hle := hproper.message_length.2
    rw [hboth, List.length_append, List.length_singleton]
    omega
  have htake : disconnected.req.take 42 = opCode :: b :: (rest ++ [2]) := by
    rw [List.take_of_length_le hlen, hboth, hmessage]
    rfl
  have hpiece : Piece (disconnected.req.take 42) := htake ▸ .request hop hb
  have hlong : disconnected.req.take 42 ≠ [2] := by
    rw [htake]
    simp
  obtain ⟨session', hread⟩ := leads_handled (s := disconnected) hcap h.running (.inr rfl) hm h.notif
    h.thread hpiece hlong
  exact ⟨_, (hcall.trans hdisconnect).trans hread, rfl, ⟨session', rfl⟩,
    List.drop_of_length_le hlen, h.notif, h.thread⟩

/-- **Which clients can hang.** A client whose first disconnect comes behind these calls has a run in
    which it hangs if and only if it makes any call before. -/
theorem session_hangs_iff {before after : List Call} (hcap : PIPE_BUF ≤ cap)
    (hproper : ∀ call ∈ before ++ .disconnect :: after, call.Proper) (hbefore : .disconnect ∉ before)
    (paths : PipePaths) :
    (∃ events s, Transition.run (step cap) events (.init (before ++ .disconnect :: after) paths) = some s ∧
      Hung s) ↔ before ≠ [] := by
  constructor
  · rintro ⟨events, s, hrun, hhung⟩ rfl
    -- the disconnect is all that was ever sent
    have hi := inv_run hproper hrun
    have hmade : s.made = [.disconnect] := by
      have hscript := hi.script
      have hmem := hi.made.mpr (.inl hhung.1)
      cases hs : s.made with
      | nil => exact absurd (hs ▸ hmem) (by simp)
      | cons call made =>
          rw [hs] at hscript
          obtain ⟨rfl, -⟩ := List.cons.inj hscript
          cases made with
          | nil => rfl
          | cons next made =>
              have hlast := hi.last
              rw [hs] at hlast
              exact absurd (by simp) hlast
    obtain ⟨earlier, ahead, hreads, hahead⟩ := hi.last_read (hi.made.mpr (.inl hhung.1)) hhung.2.2.1
    have hstream := hi.stream
    rw [hhung.2.2.1, hmade, hreads, List.append_nil, List.map_singleton, disconnect_message,
      List.flatten_singleton, List.flatten_append, List.flatten_singleton, ← List.append_assoc] at hstream
    have hnil : earlier.flatten ++ ahead = [] := List.append_left_eq_self.mp hstream
    exact hi.unread_of_hung hhung (hahead.mp (List.append_eq_nil_iff.mp hnil).2)
  · intro hne
    obtain ⟨calls, call, rfl⟩ := (List.eq_nil_or_concat' before).resolve_left hne
    have hcall : call.Proper := hproper call (by simp)
    have hsplit : calls ++ [call] ++ .disconnect :: after = calls ++ call :: .disconnect :: after := by
      rw [List.append_assoc, List.singleton_append]
    rw [hsplit]
    obtain ⟨s, hs, hready⟩ := leads_ready hcap (calls ++ call :: .disconnect :: after) paths
    obtain ⟨u, hu, hlast⟩ := hready.serves hcap (fun c hc => hproper c (by simp [hc]))
      (fun hc => hbefore (List.mem_append_left _ hc))
    obtain ⟨v, hv, hhung⟩ := hlast.hang hcap hcall
      (fun hdisc => hbefore (hdisc ▸ List.mem_append_right calls (List.mem_singleton_self call)))
    obtain ⟨events, hrun⟩ := (hs.trans hu).trans hv
    exact ⟨events, v, hrun, hhung⟩

/-- One subscription before the disconnect is enough. -/
theorem session_hangs_iff_once :
    (∃ events s, Transition.run (step 65536) events (.init subscribeOnce pipesOne) = some s ∧ Hung s) ↔
      [Call.subscribe (CStr.ofBuffer (ascii "a"))] ≠ [] := by
  have hcap : PIPE_BUF ≤ 65536 := by decide
  have hbefore : Call.disconnect ∉ [Call.subscribe (CStr.ofBuffer (ascii "a"))] := by decide
  exact session_hangs_iff hcap subscribeOnce_proper hbefore pipesOne

end Kvs.System
