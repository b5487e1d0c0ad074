import Kvs.Correctness.Confinement
import Kvs.Lib.Framing
import Kvs.System.Session

/-!
# `Correctness.SessionProtocol` — whole sessions of a client and its manager

The two ends of a session run by themselves, in every order of their steps and with any capacity of the
pipes. A byte up to 4 is an op code and starts a message, so a read that starts with one starts with a
message (`Framing.at_boundary`), and one that starts with the byte of a disconnect is the disconnect.
What can come of a session follows from that.
-/

namespace Kvs.System

open Client Server

/-! ## Messages -/

/-- A key that starts with a letter or a digit, fits in the array `keys` of `main`, and has no byte up
    to 4. -/
structure ProperKey (key : CStr) : Prop where
  bucket : HasBucket key
  length_le : key.bytes.length < MAX_STRING_SIZE
  printable : ∀ b ∈ key.bytes, ¬ b ≤ 4

/-- A call on a proper key, or a disconnect. -/
def Call.Proper : Call → Prop
  | .subscribe key => ProperKey key
  | .unsubscribe key => ProperKey key
  | .disconnect => True

theorem disconnect_message : Call.message .disconnect = [2] := by
  show kvsDisconnect = [2]
  decide

theorem subscribe_message {key : CStr} (h : ProperKey key) :
    Call.message (.subscribe key) = 3 :: key.bytes := by
  show Client.sendMsg (messageToSend 3 key) = 3 :: key.bytes
  have hkey : key.bytes.length < 40 := h.length_le
  exact sendMsg_messageToSend (by decide) (by omega)

theorem unsubscribe_message {key : CStr} (h : ProperKey key) :
    Call.message (.unsubscribe key) = 4 :: key.bytes := by
  show Client.sendMsg (messageToSend 4 key) = 4 :: key.bytes
  have hkey : key.bytes.length < 40 := h.length_le
  exact sendMsg_messageToSend (by decide) (by omega)

/-- A proper key has a first byte, a letter or a digit. -/
theorem ProperKey.cons {key : CStr} (h : ProperKey key) :
    ∃ b rest, key.bytes = b :: rest ∧ isAlnum b = true := by
  have hbucket := h.bucket
  unfold HasBucket at hbucket
  cases hbytes : key.bytes with
  | nil =>
      rw [hbytes] at hbucket
      exact absurd hbucket (by decide)
  | cons b rest =>
      rw [hbytes] at hbucket
      exact ⟨b, rest, rfl, hbucket⟩

/-- An op code starts a message, and no message has one further on. -/
theorem Call.Proper.isFrame {call : Call} (h : call.Proper) :
    Framing.IsFrame (fun b : Byte => b ≤ 4) call.message := by
  cases call with
  | subscribe key => exact ⟨3, key.bytes, subscribe_message h, by decide, h.printable⟩
  | unsubscribe key => exact ⟨4, key.bytes, unsubscribe_message h, by decide, h.printable⟩
  | disconnect => exact ⟨2, [], disconnect_message, by decide, by simp⟩

theorem Call.Proper.message_length {call : Call} (h : call.Proper) :
    1 ≤ call.message.length ∧ call.message.length ≤ 40 := by
  cases call with
  | subscribe key =>
      have hkey : key.bytes.length < 40 := h.length_le
      rw [subscribe_message h, List.length_cons]
      omega
  | unsubscribe key =>
      have hkey : key.bytes.length < 40 := h.length_le
      rw [unsubscribe_message h, List.length_cons]
      omega
  | disconnect =>
      rw [disconnect_message]
      decide

/-- What a read of the request pipe may return: the disconnect alone; a whole request with what follows
    it; or something that starts inside a request. -/
inductive Piece : List Byte → Prop where
  | disconnect : Piece [2]
  | request {opCode b : Byte} {rest : List Byte} (hop : opCode = 3 ∨ opCode = 4)
      (hkey : isAlnum b = true) : Piece (opCode :: b :: rest)
  | middle {b : Byte} {rest : List Byte} (h : ¬ b ≤ 4) : Piece (b :: rest)

theorem Piece.ne_nil {data : List Byte} (h : Piece data) : data ≠ [] := by
  cases h with
  | disconnect => exact List.cons_ne_nil 2 []
  | request hop hkey => exact List.cons_ne_nil _ _
  | middle h => exact List.cons_ne_nil _ _

/-- The message of a request: its op code and a key that has a bucket. -/
theorem Call.Proper.message_cons {call : Call} (h : call.Proper) (hne : call ≠ .disconnect) :
    ∃ opCode b rest, call.message = opCode :: b :: rest ∧ (opCode = 3 ∨ opCode = 4) ∧
      isAlnum b = true := by
  cases call with
  | subscribe key =>
      obtain ⟨b, rest, hbytes, hb⟩ := ProperKey.cons h
      exact ⟨3, b, rest, by rw [subscribe_message h, hbytes], .inl rfl, hb⟩
  | unsubscribe key =>
      obtain ⟨b, rest, hbytes, hb⟩ := ProperKey.cons h
      exact ⟨4, b, rest, by rw [unsubscribe_message h, hbytes], .inr rfl, hb⟩
  | disconnect => exact absurd rfl hne

/-- **What a read returns**, of the messages of calls among which a disconnect can only be the last, when
    this much of them was read before. -/
theorem piece_of_read {made : List Call} (hproper : ∀ call ∈ made, call.Proper)
    (hlast : .disconnect ∉ made.dropLast) {before unread : List Byte}
    (hstream : before ++ unread = (made.map Call.message).flatten) (hunread : unread ≠ []) :
    Piece (unread.take 42) ∧ (unread.take 42 = [2] → unread = [2]) := by
  obtain ⟨b, rest, rfl⟩ := List.exists_cons_of_ne_nil hunread
  by_cases hb : b ≤ 4
  · -- at the start of a message
    have hframes : ∀ m ∈ made.map Call.message, Framing.IsFrame (fun b : Byte => b ≤ 4) m := by
      intro m hm
      obtain ⟨call, hcall, rfl⟩ := List.mem_map.mp hm
      exact (hproper call hcall).isFrame
    obtain ⟨read, message, later, hmade, -, hrest⟩ := Framing.at_boundary hframes hstream.symm hb
    obtain ⟨readCalls, laterCalls, rfl, rfl, hlater⟩ := List.map_eq_append_iff.mp hmade
    obtain ⟨call, laterCalls, rfl, rfl, rfl⟩ := List.map_eq_cons_iff.mp hlater
    have hcall : call.Proper := hproper call (by simp)
    obtain ⟨_, hlen⟩ := hcall.message_length
    rw [hrest, List.take_append, List.take_of_length_le (hlen.trans (by decide))]
    by_cases hdisc : call = .disconnect
    · -- nothing was written behind a disconnect
      subst hdisc
      have hnone : laterCalls = [] := by
        by_contra hsome
        apply hlast
        rw [List.dropLast_append_of_ne_nil (by simp), List.dropLast_cons_of_ne_nil hsome]
        simp
      subst hnone
      rw [disconnect_message]
      exact ⟨.disconnect, fun _ => rfl⟩
    · obtain ⟨opCode, c, tail, hmessage, hop, hc⟩ := hcall.message_cons hdisc
      rw [hmessage, List.cons_append, List.cons_append]
      exact ⟨.request hop hc, fun h => absurd (List.cons.inj h).2 (List.cons_ne_nil _ _)⟩
  · rw [List.take_succ_cons]
    refine ⟨.middle hb, fun h => ?_⟩
    obtain ⟨rfl, -⟩ := List.cons.inj h
    exact absurd (by decide) hb

/-! ## A read and its answer -/

theorem piece_decode {data : List Byte} (h : Piece data) (request : List Byte) :
    (decodeRequest (overwrite request data)).InBounds ∧
      (decodeRequest (overwrite request data) = .disconnect ↔ data = [2]) ∧
      decodeRequest (overwrite request data) ≠ .pipeClosed := by
  cases h with
  | disconnect =>
      have hop : decodeRequest (overwrite request [2]) = .disconnect := rfl
      rw [hop]
      exact ⟨trivial, iff_of_true rfl rfl, by simp⟩
  | @request opCode b rest hop hkey =>
      have hlong : opCode :: b :: rest ≠ [2] := fun h => List.cons_ne_nil _ _ (List.cons.inj h).2
      have hbucket (tail : List Byte) : HasBucket (CStr.ofBuffer (strncpy (b :: tail) 41)) := by
        have hb : b ≠ 0 := by
          rintro rfl
          exact absurd hkey (by decide)
        show isAlnum ((CStr.ofBuffer (strncpy (b :: tail) 41)).bytes.headD 0) = true
        rw [ofBuffer_strncpy, List.take_succ_cons, untilNul, List.takeWhile_cons_of_pos (by simp [hb])]
        exact hkey
      rw [overwrite, List.cons_append, List.cons_append, decodeRequest_cons]
      rcases hop with rfl | rfl
      · exact ⟨hbucket _, iff_of_false (by simp) hlong, by simp⟩
      · exact ⟨hbucket _, iff_of_false (by simp) hlong, by simp⟩
  | @middle b rest hb =>
      have hop : b ≠ 2 ∧ b ≠ 3 ∧ b ≠ 4 := by
        refine ⟨?_, ?_, ?_⟩ <;> (rintro rfl; exact absurd (by decide) hb)
      have hne : b :: rest ≠ [2] := fun h => hop.1 (List.cons.inj h).1
      rw [overwrite, List.cons_append, decodeRequest_cons, if_neg hop.1, if_neg hop.2.1, if_neg hop.2.2]
      exact ⟨trivial, iff_of_false (by simp) hne, by simp⟩

/-- The loop ends with a disconnect, and at the end of the pipe. -/
theorem handleRequest_ends {session : Session} {ht : HashTable} {stack : List Byte} {op : SessionOp}
    {h : Handled} (hh : handleRequest session ht stack op = some h) :
    h.ends = true ↔ op = .disconnect ∨ op = .pipeClosed := by
  cases op with
  | disconnect =>
      obtain rfl := Option.some.inj hh
      exact iff_of_true rfl (.inl rfl)
  | subscribe key =>
      obtain ⟨r, -, hr⟩ := Option.bind_eq_some_iff.mp hh
      obtain rfl := Option.some.inj hr
      exact iff_of_false (by simp) (by simp)
  | unsubscribe key =>
      obtain ⟨r, -, hr⟩ := Option.bind_eq_some_iff.mp hh
      obtain rfl := Option.some.inj hr
      exact iff_of_false (by simp) (by simp)
  | unrecognized =>
      obtain rfl := Option.some.inj hh
      exact iff_of_false (by simp) (by simp)
  | pipeClosed =>
      obtain rfl := Option.some.inj hh
      exact iff_of_true rfl (.inr rfl)

/-! ## The invariant -/

/-- The client is past the `read_msg` of `kvs_disconnect`: it has closed its pipes. -/
def ClientPc.Gone (pc : ClientPc) : Prop := pc = .closing ∨ pc = .returned 0 ∨ pc = .exited

/-- How far the session has come: where the client and the manager stand together. -/
inductive Phase (s : State) : Prop where
  | opening (hclient : s.client = .openResp ∨ s.client = .openReq ∨ s.client = .openNotif ∨
        s.client = .connect)
      (hmanager : 1 ≤ managerStage s.manager ∧ managerStage s.manager ≤ 3)
      (hnear : s.client.stage ≤ managerStage s.manager + 1) (hresp : s.resp = []) (hmade : s.made = [])
  | greeting {session : Session} (hclient : s.client = .openNotif ∨ s.client = .connect)
      (hmanager : s.manager = .greet session (ascii "10")) (hresp : s.resp = []) (hmade : s.made = [])
  | greeted {session : Session} (hclient : s.client = .openNotif ∨ s.client = .connect)
      (hmanager : s.manager = .read session) (hresp : s.resp = ascii "10") (hmade : s.made = [])
  | reading {session : Session} (hclient : s.client = .loop ∨ s.client = .disconnect)
      (hmanager : s.manager = .read session) (hresp : s.resp = []) (hreads : [2] ∉ s.reads)
  | answering {session : Session} {left : List Byte} {ends : Bool}
      (hclient : s.client = .loop ∨ s.client = .disconnect)
      (hmanager : s.manager = .reply session left ends) (hleft : left ≠ []) (hresp : s.resp = [])
      (hends : ends = true ↔ [2] ∈ s.reads)
  | served (hclient : s.client = .disconnect ∨ s.client.Gone) (hmanager : s.manager = .waiting)
      (hresp : s.resp = []) (hreads : [2] ∈ s.reads)

/-- The invariant of a session, for the calls the client is to make. -/
structure Inv (script : List Call) (s : State) : Prop where
  running : s.process = .running
  script : s.made ++ s.calls = script
  /-- Every byte written to the request pipe is read once, in order, or is still there. -/
  stream : s.reads.flatten ++ s.req = (s.made.map Call.message).flatten
  pieces : ∀ data ∈ s.reads, Piece data
  /-- The client is at the disconnect once it has made it, and makes no call after that. -/
  made : .disconnect ∈ s.made ↔ s.client = .disconnect ∨ s.client.Gone
  last : .disconnect ∉ s.made.dropLast
  /-- A disconnect that was read by itself was the last of the stream. -/
  read : [2] ∈ s.reads → s.req = [] ∧ [2] ∉ s.reads.dropLast
  /-- The notification pipe is at its end only when the manager has closed it. -/
  ended : s.thread = .ended → s.manager = .waiting
  phase : Phase s

theorem inv_init (script : List Call) (paths : PipePaths) : Inv script (.init script paths) where
  running := rfl
  script := rfl
  stream := rfl
  pieces := by simp [State.init]
  made := by simp [State.init, ClientPc.Gone]
  last := by simp [State.init]
  read := by simp [State.init]
  ended := by simp [State.init]
  phase := .opening (.inl rfl) ⟨Nat.le_refl 1, by simp [State.init, managerStage]⟩
    (by simp [State.init, managerStage, ClientPc.stage]) rfl rfl

/-- A step that calls, reads and ends nothing keeps the invariant if it keeps the phase. -/
theorem Inv.moves {script : List Call} {s : State} (hi : Inv script s) (client : ClientPc)
    (manager : Manager) (resp notif : List Byte)
    (hclient : (client = .disconnect ∨ client.Gone) ↔ (s.client = .disconnect ∨ s.client.Gone))
    (hended : s.thread = .ended → manager = .waiting)
    (hphase : Phase { s with client := client, manager := manager, resp := resp, notif := notif }) :
    Inv script { s with client := client, manager := manager, resp := resp, notif := notif } where
  running := hi.running
  script := hi.script
  stream := hi.stream
  pieces := hi.pieces
  made := hi.made.trans hclient.symm
  last := hi.last
  read := hi.read
  ended := hended
  phase := hphase

/-- The thread for notifications has not ended while the manager is in the session. -/
theorem Inv.not_ended {script : List Call} {s : State} (hi : Inv script s) {p : Prop}
    (hm : s.manager ≠ .waiting) (hended : s.thread = .ended) : p :=
  absurd (hi.ended hended) hm

/-! ### What the phase says of one side -/

theorem Phase.of_gone {s : State} (h : Phase s) (hclient : s.client.Gone) :
    s.manager = .waiting ∧ s.resp = [] ∧ [2] ∈ s.reads := by
  cases h with
  | opening hc => rcases hclient with h | h | h <;> simp [h] at hc
  | greeting hc => rcases hclient with h | h | h <;> simp [h] at hc
  | greeted hc => rcases hclient with h | h | h <;> simp [h] at hc
  | reading hc => rcases hclient with h | h | h <;> simp [h] at hc
  | answering hc => rcases hclient with h | h | h <;> simp [h] at hc
  | served _ hmanager hresp hreads => exact ⟨hmanager, hresp, hreads⟩

theorem Phase.of_opening {s : State} (h : Phase s) (hclient : s.client = .openResp ∨ s.client = .openReq) :
    (1 ≤ managerStage s.manager ∧ managerStage s.manager ≤ 3) ∧ s.resp = [] ∧ s.made = [] := by
  cases h with
  | opening _ hmanager _ hresp hmade => exact ⟨hmanager, hresp, hmade⟩
  | greeting hc => rcases hclient with h | h <;> simp [h] at hc
  | greeted hc => rcases hclient with h | h <;> simp [h] at hc
  | reading hc => rcases hclient with h | h <;> simp [h] at hc
  | answering hc => rcases hclient with h | h <;> simp [h] at hc
  | served hc => rcases hclient with h | h <;> simp [h, ClientPc.Gone] at hc

theorem Phase.of_manager_opening {s : State} (h : Phase s)
    (hmanager : 1 ≤ managerStage s.manager ∧ managerStage s.manager ≤ 3) :
    (s.client = .openResp ∨ s.client = .openReq ∨ s.client = .openNotif ∨ s.client = .connect) ∧
      s.client.stage ≤ managerStage s.manager + 1 ∧ s.resp = [] ∧ s.made = [] := by
  cases h with
  | opening hclient _ hnear hresp hmade => exact ⟨hclient, hnear, hresp, hmade⟩
  | greeting _ hm => simp [hm, managerStage] at hmanager
  | greeted _ hm => simp [hm, managerStage] at hmanager
  | reading _ hm => simp [hm, managerStage] at hmanager
  | answering _ hm => simp [hm, managerStage] at hmanager
  | served _ hm => simp [hm, managerStage] at hmanager

theorem Phase.of_greet {s : State} (h : Phase s) {session : Session} {left : List Byte}
    (hmanager : s.manager = .greet session left) :
    (s.client = .openNotif ∨ s.client = .connect) ∧ left = ascii "10" ∧ s.resp = [] ∧ s.made = [] := by
  cases h with
  | opening _ hm => simp [hmanager, managerStage] at hm
  | greeting hclient hm hresp hmade =>
      rw [hmanager] at hm
      obtain ⟨-, rfl⟩ := Manager.greet.inj hm
      exact ⟨hclient, rfl, hresp, hmade⟩
  | greeted _ hm => simp [hmanager] at hm
  | reading _ hm => simp [hmanager] at hm
  | answering _ hm => simp [hmanager] at hm
  | served _ hm => simp [hmanager] at hm

theorem Phase.of_read {s : State} (h : Phase s) {session : Session}
    (hmanager : s.manager = .read session) :
    ((s.client = .openNotif ∨ s.client = .connect) ∧ s.resp = ascii "10" ∧ s.made = []) ∨
      ((s.client = .loop ∨ s.client = .disconnect) ∧ s.resp = [] ∧ [2] ∉ s.reads) := by
  cases h with
  | opening _ hm => simp [hmanager, managerStage] at hm
  | greeting _ hm => simp [hmanager] at hm
  | greeted hclient _ hresp hmade => exact .inl ⟨hclient, hresp, hmade⟩
  | reading hclient _ hresp hreads => exact .inr ⟨hclient, hresp, hreads⟩
  | answering _ hm => simp [hmanager] at hm
  | served _ hm => simp [hmanager] at hm

theorem Phase.of_reply {s : State} (h : Phase s) {session : Session} {left : List Byte} {ends : Bool}
    (hmanager : s.manager = .reply session left ends) :
    (s.client = .loop ∨ s.client = .disconnect) ∧ left ≠ [] ∧ s.resp = [] ∧
      (ends = true ↔ [2] ∈ s.reads) := by
  cases h with
  | opening _ hm => simp [hmanager, managerStage] at hm
  | greeting _ hm => simp [hmanager] at hm
  | greeted _ hm => simp [hmanager] at hm
  | reading _ hm => simp [hmanager] at hm
  | answering hclient hm hleft hresp hends =>
      rw [hmanager] at hm
      obtain ⟨-, rfl, rfl⟩ := Manager.reply.inj hm
      exact ⟨hclient, hleft, hresp, hends⟩
  | served _ hm => simp [hmanager] at hm

/-! ### Calls and reads -/

/-- The byte of a disconnect is in the stream only when the client has made it. -/
theorem disconnect_made {made : List Call} (hproper : ∀ call ∈ made, call.Proper)
    (h : (2 : Byte) ∈ (made.map Call.message).flatten) : .disconnect ∈ made := by
  obtain ⟨message, hmessage, htwo⟩ := List.mem_flatten.mp h
  obtain ⟨call, hcall, rfl⟩ := List.mem_map.mp hmessage
  by_cases hdisc : call = .disconnect
  · exact hdisc ▸ hcall
  · -- in a request no byte is 2
    obtain ⟨opCode, rest, heq, -, hrest⟩ := (hproper call hcall).isFrame
    obtain ⟨opCode', b, tail, hmessage', hop, -⟩ := (hproper call hcall).message_cons hdisc
    rw [heq] at htwo hmessage'
    obtain ⟨rfl, -⟩ := List.cons.inj hmessage'
    rcases List.mem_cons.mp htwo with rfl | htail
    · rcases hop with h | h <;> exact absurd h (by decide)
    · exact absurd (by decide) (hrest 2 htail)

section Steps

variable {script : List Call} {s s' : State}

theorem Inv.made_proper (hi : Inv script s) (hproper : ∀ call ∈ script, call.Proper) :
    ∀ call ∈ s.made, call.Proper := by
  intro call hcall
  apply hproper
  rw [← hi.script]
  exact List.mem_append_left _ hcall

theorem Inv.made_of_read (hi : Inv script s) (hproper : ∀ call ∈ script, call.Proper)
    (hread : [2] ∈ s.reads) : .disconnect ∈ s.made := by
  apply disconnect_made (hi.made_proper hproper)
  rw [← hi.stream]
  exact List.mem_append_left _ (List.mem_flatten.mpr ⟨[2], hread, List.mem_singleton_self 2⟩)

/-- The client makes its next call. -/
theorem Inv.calls {call : Call} {calls : List Call} (hi : Inv script s)
    (hproper : ∀ call ∈ script, call.Proper) (hclient : s.client = .loop)
    (hcalls : s.calls = call :: calls) :
    Inv script { s with
      client := call.next
      calls := calls
      req := s.req ++ call.message
      made := s.made ++ [call] } := by
  have hnone : .disconnect ∉ s.made := fun h => by
    rcases hi.made.mp h with h | h <;> rw [hclient] at h <;> exact absurd h (by simp [ClientPc.Gone])
  have hunread : [2] ∉ s.reads := fun h => hnone (hi.made_of_read hproper h)
  have hnext : call.next = .loop ∨ call.next = .disconnect := by
    cases call with
    | subscribe key => exact .inl rfl
    | unsubscribe key => exact .inl rfl
    | disconnect => exact .inr rfl
  exact {
    running := hi.running
    script := by
      show (s.made ++ [call]) ++ calls = script
      rw [List.append_assoc, List.singleton_append, ← hcalls]
      exact hi.script
    stream := by
      show s.reads.flatten ++ (s.req ++ call.message) = ((s.made ++ [call]).map Call.message).flatten
      rw [← List.append_assoc, hi.stream, List.map_append, List.flatten_append, List.map_singleton,
        List.flatten_singleton]
    pieces := hi.pieces
    made := by
      show .disconnect ∈ s.made ++ [call] ↔ call.next = .disconnect ∨ call.next.Gone
      cases call <;> simp [hnone, Call.next, ClientPc.Gone]
    last := by
      show .disconnect ∉ (s.made ++ [call]).dropLast
      rw [List.dropLast_concat]
      exact hnone
    read := fun h => absurd h hunread
    ended := hi.ended
    phase := by
      have hphase := hi.phase
      cases hphase with
      | opening hc => simp [hclient] at hc
      | greeting hc => simp [hclient] at hc
      | greeted hc => simp [hclient] at hc
      | reading _ hmanager hresp hreads => exact .reading hnext hmanager hresp hreads
      | answering _ hmanager hleft hresp hends => exact .answering hnext hmanager hleft hresp hends
      | served hc => simp [hclient, ClientPc.Gone] at hc }

/-- The manager reads and handles what it has read. -/
theorem Inv.handles {session session' : Session} {h : Handled} {op : SessionOp} {ht : HashTable}
    {stack : List Byte} (hi : Inv script s) (hproper : ∀ call ∈ script, call.Proper)
    (hmanager : s.manager = .read session) (hreq : s.req ≠ [])
    (hop : op = decodeRequest (overwrite session.request (s.req.take 42)))
    (hh : handleRequest session ht stack op = some h) (left : List Byte) :
    Inv script { s with
      req := s.req.drop 42
      reads := s.reads ++ [s.req.take 42]
      performed := s.performed ++ [op]
      manager := replying session' left h.ends } := by
  obtain ⟨hpiece, hlone⟩ := piece_of_read (hi.made_proper hproper) hi.last hi.stream hreq
  obtain ⟨-, hdisc, hopen⟩ := piece_decode hpiece session.request
  rw [← hop] at hdisc hopen
  have hends : h.ends = true ↔ s.req.take 42 = [2] := by
    rw [handleRequest_ends hh, ← hdisc]
    exact or_iff_left hopen
  have hmade : s.made ≠ [] := by
    intro hnil
    have hstream := hi.stream
    rw [hnil, List.map_nil, List.flatten_nil, List.append_eq_nil_iff] at hstream
    exact hreq hstream.2
  obtain ⟨hclient, hresp, hunread⟩ : (s.client = .loop ∨ s.client = .disconnect) ∧ s.resp = [] ∧
      [2] ∉ s.reads := by
    rcases hi.phase.of_read hmanager with ⟨-, -, hnil⟩ | hreading
    · exact absurd hnil hmade
    · exact hreading
  have hread : [2] ∈ s.reads ++ [s.req.take 42] ↔ s.req.take 42 = [2] := by
    rw [List.mem_append, List.mem_singleton, or_iff_right hunread, eq_comm]
  exact {
    running := hi.running
    script := hi.script
    stream := by
      show (s.reads ++ [s.req.take 42]).flatten ++ s.req.drop 42 = _
      rw [List.flatten_append, List.flatten_singleton, List.append_assoc, List.take_append_drop]
      exact hi.stream
    pieces := by
      intro data hdata
      rcases List.mem_append.mp hdata with hold | hnew
      · exact hi.pieces data hold
      · exact List.mem_singleton.mp hnew ▸ hpiece
    made := hi.made
    last := hi.last
    read := by
      intro hmem
      have htwo := hread.mp hmem
      refine ⟨?_, ?_⟩
      · show s.req.drop 42 = []
        rw [hlone htwo]
        rfl
      · show [2] ∉ (s.reads ++ [s.req.take 42]).dropLast
        rw [List.dropLast_concat]
        exact hunread
    ended := hi.not_ended (by simp [hmanager])
    phase := by
      unfold replying
      by_cases hleft : left = []
      · rw [if_pos hleft]
        by_cases htwo : s.req.take 42 = [2]
        · rw [if_pos (hends.mpr htwo)]
          have hdisconnect : .disconnect ∈ s.made := by
            apply disconnect_made (hi.made_proper hproper)
            rw [← hi.stream, hlone htwo]
            simp
          exact .served (hi.made.mp hdisconnect) rfl hresp (hread.mpr htwo)
        · rw [if_neg (fun h => htwo (hends.mp h))]
          exact .reading hclient rfl hresp (fun h => htwo (hread.mp h))
      · rw [if_neg hleft]
        exact .answering hclient rfl hleft hresp (hends.trans hread.symm) }

/-- No read has returned anything before the client makes a call. -/
theorem Inv.no_reads (hi : Inv script s) (hmade : s.made = []) (data : List Byte) : data ∉ s.reads := by
  intro hdata
  have hstream := hi.stream
  rw [hmade, List.map_nil, List.flatten_nil, List.append_eq_nil_iff, List.flatten_eq_nil_iff] at hstream
  exact (hi.pieces data hdata).ne_nil (hstream.1 data hdata)

/-- A step of the client keeps the invariant. -/
theorem inv_client {cap : Nat} {mem : Byte} (hproper : ∀ call ∈ script, call.Proper)
    (hi : Inv script s) (h : Step cap s (.client mem) s') : Inv script s' := by
  cases h with
  | opensResp hclient hmanager =>
      obtain ⟨hopening, hresp, hmade⟩ := hi.phase.of_opening (.inl hclient)
      refine hi.moves .openReq s.manager s.resp s.notif (by simp [hclient, ClientPc.Gone]) hi.ended ?_
      refine .opening (.inr (.inl rfl)) hopening ?_ hresp hmade
      show 2 ≤ managerStage s.manager + 1
      omega
  | opensReq hclient hmanager =>
      obtain ⟨hopening, hresp, hmade⟩ := hi.phase.of_opening (.inr hclient)
      refine hi.moves .openNotif s.manager s.resp s.notif (by simp [hclient, ClientPc.Gone]) hi.ended ?_
      refine .opening (.inr (.inr (.inl rfl))) hopening ?_ hresp hmade
      show 3 ≤ managerStage s.manager + 1
      omega
  | opensNotif hclient hmanager =>
      refine hi.moves .connect s.manager s.resp s.notif (by simp [hclient, ClientPc.Gone]) hi.ended ?_
      cases hi.phase with
      | opening _ hopening _ hresp hmade =>
          refine .opening (.inr (.inr (.inr rfl))) hopening ?_ hresp hmade
          show 4 ≤ managerStage s.manager + 1
          omega
      | greeting _ hm hresp hmade => exact .greeting (.inr rfl) hm hresp hmade
      | greeted _ hm hresp hmade => exact .greeted (.inr rfl) hm hresp hmade
      | reading hc => simp [hclient] at hc
      | answering hc => simp [hclient] at hc
      | served hc => simp [hclient, ClientPc.Gone] at hc
  | connects hclient hready =>
      cases hi.phase with
      | opening _ hopening hnear hresp _ =>
          -- the manager has the response pipe open and has written nothing yet
          rw [hclient] at hnear
          have hstage : 4 ≤ managerStage s.manager + 1 := hnear
          rcases hready with hne | hgone
          · exact absurd hresp hne
          · omega
      | greeting _ hm hresp _ =>
          rw [hm] at hready
          rcases hready with hne | hgone
          · exact absurd hresp hne
          · exact absurd hgone (by simp [managerStage])
      | greeted _ hm hresp hmade =>
          have hresult : readMsg mem s.resp = 48 := by
            rw [hresp]
            rfl
          rw [if_pos hresult]
          refine hi.moves .loop s.manager (s.resp.drop 2) s.notif (by simp [hclient, ClientPc.Gone]) hi.ended ?_
          exact .reading (.inl rfl) hm (by rw [hresp]; rfl) (hi.no_reads hmade [2])
      | reading hc => simp [hclient] at hc
      | answering hc => simp [hclient] at hc
      | served hc => simp [hclient, ClientPc.Gone] at hc
  | calls hclient hcalls _ _ => exact hi.calls hproper hclient hcalls
  | callFails hclient _ hgone =>
      cases hi.phase with
      | opening hc => simp [hclient] at hc
      | greeting hc => simp [hclient] at hc
      | greeted hc => simp [hclient] at hc
      | reading _ hm =>
          rw [hm] at hgone
          exact absurd hgone (by simp [managerStage])
      | answering _ hm =>
          rw [hm] at hgone
          exact absurd hgone (by simp [managerStage])
      | served hc => simp [hclient, ClientPc.Gone] at hc
  | disconnects hclient hready =>
      cases hi.phase with
      | opening hc => simp [hclient] at hc
      | greeting hc => simp [hclient] at hc
      | greeted hc => simp [hclient] at hc
      | reading _ hm hresp =>
          rw [hm] at hready
          rcases hready with hne | hgone
          · exact absurd hresp hne
          · exact absurd hgone (by simp [managerStage])
      | answering _ hm _ hresp =>
          rw [hm] at hready
          rcases hready with hne | hgone
          · exact absurd hresp hne
          · exact absurd hgone (by simp [managerStage])
      | served _ hm hresp hreads =>
          have hresult : readMsg mem s.resp = 0 := by
            rw [hresp]
            rfl
          rw [if_pos hresult]
          refine hi.moves .closing s.manager (s.resp.drop 2) s.notif (by simp [hclient, ClientPc.Gone])
            hi.ended ?_
          exact .served (.inr (.inl rfl)) hm (by rw [hresp]; rfl) hreads
  | returns hclient =>
      obtain ⟨hm, hresp, hreads⟩ := hi.phase.of_gone (.inl hclient)
      refine hi.moves (.returned 0) s.manager s.resp s.notif (by simp [hclient, ClientPc.Gone]) hi.ended ?_
      exact .served (.inr (.inr (.inl rfl))) hm hresp hreads

/-- A step of the manager keeps the invariant. -/
theorem inv_manager {cap : Nat} {ht : HashTable} {result : Result}
    (hproper : ∀ call ∈ script, call.Proper) (hi : Inv script s)
    (h : Step cap s (.manager ht result) s') : Inv script s' := by
  cases h with
  | @managerOpensResp _ paths fd hm hclient =>
      obtain ⟨hc, hnear, hresp, hmade⟩ := hi.phase.of_manager_opening (by simp [hm, managerStage])
      rw [hm] at hnear
      refine hi.moves s.client (.openReq paths fd) s.resp s.notif Iff.rfl (hi.not_ended (by simp [hm])) ?_
      refine .opening hc ⟨Nat.le_add_left 1 _, by simp [managerStage]⟩ ?_ hresp hmade
      exact hnear.trans (by simp [managerStage])
  | @managerOpensReq _ paths respFd fd hm hclient =>
      obtain ⟨hc, hnear, hresp, hmade⟩ := hi.phase.of_manager_opening (by simp [hm, managerStage])
      rw [hm] at hnear
      refine hi.moves s.client (.openNotif paths respFd fd) s.resp s.notif Iff.rfl
        (hi.not_ended (by simp [hm])) ?_
      refine .opening hc ⟨Nat.le_add_left 1 _, by simp [managerStage]⟩ ?_ hresp hmade
      exact hnear.trans (by simp [managerStage])
  | managerOpensNotif hne hm hclient =>
      obtain ⟨hc, hnear, hresp, hmade⟩ := hi.phase.of_manager_opening (by simp [hm, managerStage])
      refine hi.moves s.client _ s.resp s.notif Iff.rfl (hi.not_ended (by simp [hm]))
        (.greeting ?_ rfl hresp hmade)
      rcases hc with hc | hc | hc | hc
      · rw [hc] at hclient
        exact absurd hclient (by simp [ClientPc.stage])
      · rw [hc] at hclient
        exact absurd hclient (by simp [ClientPc.stage])
      · exact .inl hc
      · exact .inr hc
  | @greets _ session left n hm hclient hfits =>
      obtain ⟨hc, rfl, hresp, hmade⟩ := hi.phase.of_greet hm
      have hn : n = 2 := hfits.2.2.2 (by decide)
      subst hn
      refine hi.moves s.client _ (s.resp ++ (ascii "10").take 2) s.notif Iff.rfl
        (hi.not_ended (by simp [hm])) ?_
      refine .greeted hc rfl ?_ hmade
      rw [hresp]
      rfl
  | greetFails hm hgone =>
      obtain ⟨hc | hc, -⟩ := hi.phase.of_greet hm
      · rw [hc] at hgone
        exact absurd hgone (by simp [ClientPc.stage])
      · rw [hc] at hgone
        exact absurd hgone (by simp [ClientPc.stage])
  | handles hm hreq hh => exact hi.handles hproper hm hreq rfl hh _
  | @noBucket _ session stack hm hreq hh =>
      -- a request that starts a read has its key behind it
      obtain ⟨hpiece, -⟩ := piece_of_read (hi.made_proper hproper) hi.last hi.stream hreq
      have hbucket := (handleRequest_isSome_iff session ht stack _).mpr
        (piece_decode hpiece session.request).1
      rw [hh] at hbucket
      exact absurd hbucket (by simp)
  | ends hm hreq hgone =>
      rcases hi.phase.of_read hm with ⟨hc | hc, -⟩ | ⟨hc | hc, -⟩ <;>
        (rw [hc] at hgone; exact absurd hgone (by simp [ClientPc.stage]))
  | @answers _ session left ends n hm hclient hfits =>
      obtain ⟨hc, hleft, hresp, hends⟩ := hi.phase.of_reply hm
      refine hi.moves s.client _ s.resp (s.notif ++ left.take n) Iff.rfl (hi.not_ended (by simp [hm])) ?_
      unfold replying
      by_cases hrest : left.drop n = []
      · rw [if_pos hrest]
        by_cases htwo : [2] ∈ s.reads
        · rw [if_pos (hends.mpr htwo)]
          exact .served (hi.made.mp (hi.made_of_read hproper htwo)) rfl hresp htwo
        · rw [if_neg (fun h => htwo (hends.mp h))]
          exact .reading hc rfl hresp htwo
      · rw [if_neg hrest]
        exact .answering hc rfl hrest hresp hends
  | answerFails hm hgone =>
      obtain ⟨hc | hc, -⟩ := hi.phase.of_reply hm
      · rw [hc] at hgone
        exact absurd hgone (by simp [ClientPc.stage])
      · rw [hc] at hgone
        exact absurd hgone (by simp [ClientPc.stage])

/-- What only changes the notification pipe and its reader keeps the invariant. -/
theorem Inv.notifies (hi : Inv script s) (notif : List Byte) {thread : NotifPc}
    (hended : thread = .ended → s.manager = .waiting) :
    Inv script { s with notif := notif, thread := thread } where
  running := hi.running
  script := hi.script
  stream := hi.stream
  pieces := hi.pieces
  made := hi.made
  last := hi.last
  read := hi.read
  ended := hended
  phase := by
    cases hi.phase with
    | opening hc hm hnear hresp hmade => exact .opening hc hm hnear hresp hmade
    | greeting hc hm hresp hmade => exact .greeting hc hm hresp hmade
    | greeted hc hm hresp hmade => exact .greeted hc hm hresp hmade
    | reading hc hm hresp hreads => exact .reading hc hm hresp hreads
    | answering hc hm hleft hresp hends => exact .answering hc hm hleft hresp hends
    | served hc hm hresp hreads => exact .served hc hm hresp hreads

/-- A client that is connected to a manager that is not in the session has left it. -/
theorem Phase.waiting {s : State} (h : Phase s) (hclient : s.client.Connected)
    (hgone : managerStage s.manager < 3) : s.manager = .waiting := by
  cases h with
  | opening hc => rcases hc with hc | hc | hc | hc <;> (rw [hc] at hclient; exact absurd hclient id)
  | greeting hc => rcases hc with hc | hc <;> (rw [hc] at hclient; exact absurd hclient id)
  | greeted hc => rcases hc with hc | hc <;> (rw [hc] at hclient; exact absurd hclient id)
  | reading _ hm => simp [hm, managerStage] at hgone
  | answering _ hm => simp [hm, managerStage] at hgone
  | served _ hm => exact hm

/-- A step of `thread_notif` keeps the invariant. -/
theorem inv_notif {cap : Nat} (hi : Inv script s) (h : Step cap s .clientNotif s') : Inv script s' := by
  cases h with
  | notifCalls => exact hi.notifies s.notif (by simp)
  | notifReads => exact hi.notifies _ (by simp)
  | notifEnds _ hclient hnotif hgone => exact hi.notifies s.notif (fun _ => hi.phase.waiting hclient hgone)
  | notifFails _ hclient =>
      obtain ⟨hm, hresp, hreads⟩ := hi.phase.of_gone (.inl hclient)
      refine hi.moves .exited s.manager s.resp s.notif (by simp [hclient, ClientPc.Gone]) hi.ended ?_
      exact .served (.inr (.inr (.inr rfl))) hm hresp hreads

/-- **One step.** -/
theorem inv_step {cap : Nat} (hproper : ∀ call ∈ script, call.Proper) {event : Event}
    (hi : Inv script s) (h : step cap s event = some s') : Inv script s' := by
  obtain ⟨-, hstep⟩ := step_cases h
  cases event with
  | client mem => exact inv_client hproper hi hstep
  | manager ht result => exact inv_manager hproper hi hstep
  | clientNotif => exact inv_notif hi hstep
  | notification data =>
      cases hstep with
      | notified => exact hi.notifies _ hi.ended
      | notifyFails hm hgone =>
          cases hi.phase with
          | opening _ hopening => omega
          | greeting hc =>
              rcases hc with hc | hc <;> (rw [hc] at hgone; exact absurd hgone (by simp [ClientPc.stage]))
          | greeted hc =>
              rcases hc with hc | hc <;> (rw [hc] at hgone; exact absurd hgone (by simp [ClientPc.stage]))
          | reading hc =>
              rcases hc with hc | hc <;> (rw [hc] at hgone; exact absurd hgone (by simp [ClientPc.stage]))
          | answering hc =>
              rcases hc with hc | hc <;> (rw [hc] at hgone; exact absurd hgone (by simp [ClientPc.stage]))
          | served _ hwaiting =>
              rw [hwaiting] at hm
              exact absurd hm (by simp [managerStage])

/-- **Every run.** -/
theorem inv_run {cap : Nat} (hproper : ∀ call ∈ script, call.Proper) {paths : PipePaths}
    {events : List Event} (hrun : Transition.run (step cap) events (.init script paths) = some s) :
    Inv script s :=
  Transition.run_invariant (Inv script) (fun _ _ _ => inv_step hproper) (inv_init script paths) hrun

end Steps

/-! ## What cannot happen -/

/-- **No run of a session goes wrong for either process**, whatever the order of the steps, the capacity
    of the pipes and what the other threads do to the table: the server goes on, the client is neither
    killed by a broken pipe nor refused, and every byte of every call reaches the manager once and in
    order, or is still in the request pipe. Only after its disconnect, with the manager waiting for
    another registration, may the client end with `exit(EXIT_FAILURE)` in the place of 0. -/
theorem session_safe {cap : Nat} {script : List Call} {paths : PipePaths} {events : List Event}
    {s : State} (hproper : ∀ call ∈ script, call.Proper)
    (hrun : Transition.run (step cap) events (.init script paths) = some s) :
    s.process = .running ∧ s.client ≠ .killed ∧ (∀ ret, s.client = .returned ret → ret = 0) ∧
      (s.client = .exited → .disconnect ∈ s.made ∧ s.manager = .waiting) ∧
      s.made ++ s.calls = script ∧
      s.reads.flatten ++ s.req = (s.made.map Call.message).flatten := by
  have hi := inv_run hproper hrun
  have hclient : s.client ≠ .killed ∧ ∀ ret, s.client = .returned ret → ret = 0 := by
    cases hi.phase with
    | opening hc => rcases hc with hc | hc | hc | hc <;> simp [hc]
    | greeting hc => rcases hc with hc | hc <;> simp [hc]
    | greeted hc => rcases hc with hc | hc <;> simp [hc]
    | reading hc => rcases hc with hc | hc <;> simp [hc]
    | answering hc => rcases hc with hc | hc <;> simp [hc]
    | served hc => rcases hc with hc | hc | hc | hc <;> simp [hc]
  refine ⟨hi.running, hclient.1, hclient.2, fun hexited => ?_, hi.script, hi.stream⟩
  have hgone : s.client.Gone := .inr (.inr hexited)
  exact ⟨hi.made.mpr (.inr hgone), (hi.phase.of_gone hgone).1⟩

/-- `kvs_subscribe("a")`, `kvs_disconnect()` -/
def subscribeOnce : List Call := [.subscribe (CStr.ofBuffer (ascii "a")), .disconnect]

theorem subscribeOnce_proper : ∀ call ∈ subscribeOnce, call.Proper := by
  intro call hcall
  rcases List.mem_cons.mp hcall with rfl | hcall
  · exact ⟨by decide, by decide, by decide +kernel⟩
  · obtain rfl := List.mem_singleton.mp hcall
    trivial

/-- The pipes of the client with the id 1. -/
def pipesOne : PipePaths :=
  ⟨CStr.ofBuffer (ascii "/tmp/req1"), CStr.ofBuffer (ascii "/tmp/resp1"), CStr.ofBuffer (ascii "/tmp/notif1")⟩

/-- A system call of the manager, the table being empty. -/
def onEmpty (result : Result) : Event := .manager createHashTable result

/-- The steps up to the loop of `main`. -/
def connecting : List Event :=
  [.client 0, onEmpty (.opened 3), .client 0, onEmpty (.opened 4), .client 0, onEmpty (.opened 5),
    onEmpty (.wrote 2), .client 0]

/-- The two messages are sent at once and read at one stroke. -/
def hanging : List Event :=
  connecting ++ [.clientNotif, .client 0, .client 0, onEmpty (.got [3, 97, 2] []), onEmpty (.wrote 2),
    .clientNotif, .clientNotif]

theorem session_safe_hanging :
    ∃ s, Transition.run (step 65536) hanging (.init subscribeOnce pipesOne) = some s ∧
      s.reads = [[3, 97, 2]] ∧ s.process = .running ∧ s.client ≠ .killed ∧
      (∀ ret, s.client = .returned ret → ret = 0) ∧
      (s.client = .exited → .disconnect ∈ s.made ∧ s.manager = .waiting) ∧
      s.made ++ s.calls = subscribeOnce ∧
      s.reads.flatten ++ s.req = (s.made.map Call.message).flatten := by
  have hends : (Transition.run (step 65536) hanging (.init subscribeOnce pipesOne)).any
      (fun s => decide (s.reads = [[3, 97, 2]])) = true := by decide +kernel
  obtain ⟨s, hrun, hreads⟩ := (Option.any_eq_true _ _).mp hends
  exact ⟨s, hrun, of_decide_eq_true hreads, session_safe subscribeOnce_proper hrun⟩

end Kvs.System
