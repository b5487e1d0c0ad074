import Kvs.Correctness.SessionProgress

/-!
# `Correctness.SessionPaced` — what the manager makes of a session

The manager of the system decodes what `sessionLoop` decodes, from an array that keeps what earlier reads
left in it (`session_refines_loop`). A client that waits for its messages to be read before it sends the
next cannot hang, and every read of its manager is one message; the manager then does what the client has
asked for exactly when no request is shorter than one before it (`session_paced`).
-/

namespace Kvs.System

open Client Server

/-- What the manager is to take the message of the call for. -/
def Call.operation : Call → SessionOp
  | .subscribe key => .subscribe key
  | .unsubscribe key => .unsubscribe key
  | .disconnect => .disconnect

/-! ## The request loop -/

/-- One more read, in a session that has not ended. -/
theorem sessionLoop_concat {request data : List Byte} {reads : List (List Byte)} {ops : List SessionOp}
    (h : sessionLoop request reads = ops ++ [.pipeClosed]) :
    sessionLoop request (reads ++ [data])
      = ops ++ (match decodeRequest (overwrite (reads.foldl overwrite request) data) with
        | .disconnect => [.disconnect]
        | op => [op, .pipeClosed]) := by
  induction reads generalizing request ops with
  | nil =>
      obtain ⟨rfl, -⟩ := List.append_inj' (show [] ++ [.pipeClosed] = ops ++ [.pipeClosed] from h) rfl
      by_cases hop : decodeRequest (overwrite request data) = .disconnect
      · rw [List.nil_append, sessionLoop_disconnect hop, List.foldl_nil, hop]
        rfl
      · rw [List.nil_append, sessionLoop_cons hop, List.foldl_nil, List.nil_append]
        split
        · rename_i heq
          exact absurd heq hop
        · rfl
  | cons first reads ih =>
      by_cases hop : decodeRequest (overwrite request first) = .disconnect
      · rw [sessionLoop_disconnect hop] at h
        obtain ⟨-, hlast⟩ := List.append_inj' (show [] ++ [.disconnect] = ops ++ [.pipeClosed] from h) rfl
        exact absurd hlast (by simp)
      · rw [sessionLoop_cons hop] at h
        rw [List.cons_append, sessionLoop_cons hop, List.foldl_cons]
        cases ops with
        | nil =>
            obtain ⟨-, hnone⟩ := List.cons.inj h
            cases reads with
            | nil => exact absurd hnone (by simp [sessionLoop])
            | cons next reads =>
                rw [sessionLoop] at hnone
                split at hnone <;> exact absurd hnone (by simp)
        | cons op ops =>
            obtain ⟨rfl, hrest⟩ := List.cons.inj h
            rw [ih hrest, List.cons_append]

/-- The array of an open session holds what the reads have left in it, and the manager has done what the
    request loop does with them. -/
structure Decoded (s : State) : Prop where
  buffer : ∀ session, s.manager.session = some session → session.request = fill 42 s.reads
  loop : sessionLoop zeroRequest s.reads
    = s.performed ++ (if [2] ∈ s.reads then [] else [.pipeClosed])

theorem session_greeting {session session' : Session} {left : List Byte}
    (h : (greeting session left).session = some session') : session' = session := by
  unfold greeting at h
  split at h
  · exact (Option.some.inj h).symm
  · exact (Option.some.inj h).symm

theorem session_replying {session session' : Session} {left : List Byte} {ends : Bool}
    (h : (replying session left ends).session = some session') : session' = session := by
  unfold replying at h
  split_ifs at h
  · exact absurd h (by simp [Manager.session])
  · exact (Option.some.inj h).symm
  · exact (Option.some.inj h).symm

section Decoded

variable {cap : Nat} {script : List Call} {s s' : State}

theorem decoded_init (paths : PipePaths) : Decoded (.init script paths) where
  buffer session h := absurd h (by simp [State.init, Manager.session])
  loop := rfl

/-- A read, the array holding what the reads before have left in it. -/
theorem Decoded.handles {session : Session} (hd : Decoded s) (hi : Inv script s)
    (hproper : ∀ call ∈ script, call.Proper) (hm : s.manager = .read session) (hreq : s.req ≠ []) :
    sessionLoop zeroRequest (s.reads ++ [s.req.take 42])
      = (s.performed ++ [decodeRequest (overwrite session.request (s.req.take 42))])
        ++ (if [2] ∈ s.reads ++ [s.req.take 42] then [] else [.pipeClosed]) := by
  have hunread : [2] ∉ s.reads := by
    intro h
    exact hreq (hi.read h).1
  obtain ⟨hpiece, -⟩ := piece_of_read (hi.made_proper hproper) hi.last hi.stream hreq
  obtain ⟨-, hdisc, -⟩ := piece_decode hpiece session.request
  have hloop := hd.loop
  rw [if_neg hunread] at hloop
  have hbuffer : s.reads.foldl overwrite zeroRequest = session.request :=
    (hd.buffer session (by rw [hm]; rfl)).symm
  rw [sessionLoop_concat hloop, hbuffer, List.append_assoc]
  congr 1
  by_cases htwo : s.req.take 42 = [2]
  · rw [hdisc.mpr htwo, htwo, if_pos (by simp)]
    rfl
  · have hread : [2] ∉ s.reads ++ [s.req.take 42] := by
      rw [List.mem_append, List.mem_singleton, not_or]
      exact ⟨hunread, fun h => htwo h.symm⟩
    rw [if_neg hread]
    split
    · rename_i heq
      exact absurd (hdisc.mp heq) htwo
    · rfl

theorem decoded_step {event : Event} (hproper : ∀ call ∈ script, call.Proper) (hi : Inv script s)
    (hd : Decoded s) (h : step cap s event = some s') : Decoded s' := by
  have hi' := inv_step hproper hi h
  obtain ⟨-, hstep⟩ := step_cases h
  cases hstep with
  | opensResp => exact ⟨hd.buffer, hd.loop⟩
  | opensReq => exact ⟨hd.buffer, hd.loop⟩
  | opensNotif => exact ⟨hd.buffer, hd.loop⟩
  | connects => exact ⟨hd.buffer, hd.loop⟩
  | calls => exact ⟨hd.buffer, hd.loop⟩
  | callFails => exact ⟨hd.buffer, hd.loop⟩
  | disconnects => exact ⟨hd.buffer, hd.loop⟩
  | returns => exact ⟨hd.buffer, hd.loop⟩
  | notifCalls => exact ⟨hd.buffer, hd.loop⟩
  | notifFails => exact ⟨hd.buffer, hd.loop⟩
  | notifReads => exact ⟨hd.buffer, hd.loop⟩
  | notifEnds => exact ⟨hd.buffer, hd.loop⟩
  | managerOpensResp => exact ⟨fun session hs => absurd hs (by simp [Manager.session]), hd.loop⟩
  | managerOpensReq => exact ⟨fun session hs => absurd hs (by simp [Manager.session]), hd.loop⟩
  | managerOpensNotif hne hm hclient =>
      -- the array is zeroed, and nothing was read
      obtain ⟨-, -, -, hmade⟩ := hi.phase.of_manager_opening (by simp [hm, managerStage])
      have hreads : s.reads = [] := List.eq_nil_iff_forall_not_mem.mpr (hi.no_reads hmade)
      refine ⟨fun session hs => ?_, hd.loop⟩
      obtain rfl := Option.some.inj hs
      show zeroRequest = fill 42 s.reads
      rw [hreads]
      rfl
  | @greets _ session left n hm =>
      refine ⟨fun session' hs => ?_, hd.loop⟩
      rw [session_greeting hs]
      exact hd.buffer session (by rw [hm]; rfl)
  | greetFails => exact ⟨hd.buffer, hd.loop⟩
  | @handles _ session stack answer hm hreq hh =>
      refine ⟨fun session' hs => ?_, hd.handles hi hproper hm hreq⟩
      rw [session_replying hs]
      show overwrite session.request (s.req.take 42) = fill 42 (s.reads ++ [s.req.take 42])
      rw [fill_concat, hd.buffer session (by rw [hm]; rfl)]
  | noBucket => exact absurd hi'.running (by simp)
  | ends => exact ⟨fun session hs => absurd hs (by simp [Manager.session]), hd.loop⟩
  | @answers _ session left ends n hm =>
      refine ⟨fun session' hs => ?_, hd.loop⟩
      rw [session_replying hs]
      exact hd.buffer session (by rw [hm]; rfl)
  | answerFails => exact ⟨hd.buffer, hd.loop⟩
  | notified => exact ⟨hd.buffer, hd.loop⟩
  | notifyFails => exact ⟨hd.buffer, hd.loop⟩

theorem decoded_run {paths : PipePaths} {events : List Event} (hproper : ∀ call ∈ script, call.Proper)
    (hrun : Transition.run (step cap) events (.init script paths) = some s) : Decoded s := by
  have hboth : Inv script s ∧ Decoded s :=
    Transition.run_invariant (fun s => Inv script s ∧ Decoded s)
      (fun _ _ _ h hstep => ⟨inv_step hproper h.1 hstep, decoded_step hproper h.1 h.2 hstep⟩)
      ⟨inv_init script paths, decoded_init paths⟩ hrun
  exact hboth.2

end Decoded

/-- **The system performs the request loop**: in every run, what the manager has taken its reads for is
    what `sessionLoop` makes of them, and a disconnect read by itself ends both. -/
theorem session_refines_loop {cap : Nat} {script : List Call} {paths : PipePaths} {events : List Event}
    {s : State} (hproper : ∀ call ∈ script, call.Proper)
    (hrun : Transition.run (step cap) events (.init script paths) = some s) :
    sessionLoop zeroRequest s.reads
      = s.performed ++ (if [2] ∈ s.reads then [] else [.pipeClosed]) :=
  (decoded_run hproper hrun).loop

theorem session_refines_loop_hanging :
    ∃ s, Transition.run (step 65536) hanging (.init subscribeOnce pipesOne) = some s ∧
      s.performed = [.subscribe (CStr.ofBuffer [97, 2])] ∧
      sessionLoop zeroRequest s.reads
        = s.performed ++ (if [2] ∈ s.reads then [] else [.pipeClosed]) := by
  have hends : (Transition.run (step 65536) hanging (.init subscribeOnce pipesOne)).any
      (fun s => decide (s.performed = [.subscribe (CStr.ofBuffer [97, 2])])) = true := by
    decide +kernel
  obtain ⟨s, hrun, hperformed⟩ := (Option.any_eq_true _ _).mp hends
  exact ⟨s, hrun, of_decide_eq_true hperformed, session_refines_loop subscribeOnce_proper hrun⟩

/-! ## Clients that wait -/

/-- The client makes a call only when its last message was read. -/
def Paced (s : State) : Event → Prop
  | .client _ => s.client = .loop → s.req = []
  | _ => True

/-- A disconnect, or a message not shorter than the other. -/
def Call.Covers (earlier later : Call) : Prop :=
  later = .disconnect ∨ earlier.message.length ≤ later.message.length

theorem Call.Proper.noNul {call : Call} (h : call.Proper) : (0 : Byte) ∉ call.message := by
  cases call with
  | subscribe key =>
      rw [subscribe_message h, List.mem_cons, not_or]
      exact ⟨by decide, key.noNul⟩
  | unsubscribe key =>
      rw [unsubscribe_message h, List.mem_cons, not_or]
      exact ⟨by decide, key.noNul⟩
  | disconnect =>
      rw [disconnect_message]
      decide

/-- A key behind its op code is decoded as sent when nothing is left behind it. -/
theorem ofBuffer_iff {opCode : Byte} {key : CStr} {rest : List Byte} (hop : opCode ≠ 0)
    (hrest : rest.length ≤ 41) :
    CStr.ofBuffer (strncpy rest 41) = key ↔ untilNul (opCode :: rest) = opCode :: key.bytes := by
  have huntil : untilNul (opCode :: rest) = opCode :: untilNul rest := by simp [untilNul, hop]
  have hbytes : (CStr.ofBuffer (strncpy rest 41)).bytes = untilNul rest := by
    rw [ofBuffer_strncpy, List.take_of_length_le hrest]
  rw [huntil, List.cons.injEq, ← hbytes]
  exact ⟨fun h => ⟨rfl, congrArg CStr.bytes h⟩, fun h => CStr.ext h.2⟩

/-- **A message read by itself** is taken for its call exactly when it is a disconnect or not shorter than
    any message before. -/
theorem decode_message_iff {read : List Call} {call : Call} (hread : ∀ c ∈ read, c.Proper)
    (hcall : call.Proper) :
    decodeRequest (overwrite (fill 42 (read.map Call.message)) call.message) = call.operation ↔
      ∀ earlier ∈ read, earlier.Covers call := by
  have hnul : ∀ m ∈ read.map Call.message, (0 : Byte) ∉ m := by
    intro m hm
    obtain ⟨c, hc, rfl⟩ := List.mem_map.mp hm
    exact (hread c hc).noNul
  have hlen : (fill 42 (read.map Call.message)).length = 42 := by
    apply fill_length
    intro m hm
    obtain ⟨c, hc, rfl⟩ := List.mem_map.mp hm
    exact (hread c hc).message_length.2.trans (by decide)
  have hlonger := untilNul_overwrite_fill_iff (n := 42) hnul hcall.noNul
  rw [List.forall_mem_map] at hlonger
  have hcovers : call ≠ .disconnect →
      ((∀ earlier ∈ read, earlier.Covers call) ↔
        ∀ earlier ∈ read, earlier.message.length ≤ call.message.length) := by
    intro hne
    exact forall₂_congr fun earlier _ => or_iff_right hne
  cases call with
  | disconnect =>
      rw [disconnect_message]
      exact iff_of_true rfl (fun _ _ => .inl rfl)
  | subscribe key =>
      rw [hcovers (by simp), ← hlonger, subscribe_message hcall, overwrite, List.cons_append,
        decodeRequest_cons, if_neg (by decide), if_pos rfl, Call.operation, SessionOp.subscribe.injEq]
      apply ofBuffer_iff (by decide)
      rw [List.length_append, List.length_drop, hlen, List.length_cons]
      have hkey : key.bytes.length < 40 := hcall.length_le
      omega
  | unsubscribe key =>
      rw [hcovers (by simp), ← hlonger, unsubscribe_message hcall, overwrite, List.cons_append,
        decodeRequest_cons, if_neg (by decide), if_neg (by decide), if_pos rfl, Call.operation,
        SessionOp.unsubscribe.injEq]
      apply ofBuffer_iff (by decide)
      rw [List.length_append, List.length_drop, hlen, List.length_cons]
      have hkey : key.bytes.length < 40 := hcall.length_le
      omega

/-- The reads are the messages of the calls read, and at most one more is in the pipe. -/
def Aligned (s : State) : Prop :=
  ∃ read unread : List Call, s.made = read ++ unread ∧ unread.length ≤ 1 ∧
    s.reads = read.map Call.message ∧ s.req = (unread.map Call.message).flatten ∧
    (s.performed = read.map Call.operation ↔ read.Pairwise Call.Covers)

section Aligned

variable {cap : Nat} {script : List Call} {s s' : State}

/-- Messages are not empty. -/
theorem messages_flatten_nil {calls : List Call} (hproper : ∀ c ∈ calls, c.Proper)
    (h : (calls.map Call.message).flatten = []) : calls = [] := by
  by_contra hsome
  obtain ⟨c, rest, rfl⟩ := List.exists_cons_of_ne_nil hsome
  have hc := (hproper c List.mem_cons_self).message_length.1
  rw [List.map_cons, List.flatten_cons] at h
  rw [(List.append_eq_nil_iff.mp h).1] at hc
  exact absurd hc (by simp)

theorem Aligned.calls {call : Call} (h : Aligned s) (hmade : ∀ c ∈ s.made, c.Proper)
    (hreq : s.req = []) {client : ClientPc} {calls : List Call} :
    Aligned { s with
      client := client
      calls := calls
      req := s.req ++ call.message
      made := s.made ++ [call] } := by
  obtain ⟨read, unread, hsplit, -, hreads, hunread, hperformed⟩ := h
  obtain rfl := messages_flatten_nil (fun c hc => hmade c (by simp [hsplit, hc]))
    (hunread.symm.trans hreq)
  refine ⟨read, [call], ?_, Nat.le_refl 1, hreads, ?_, hperformed⟩
  · show s.made ++ [call] = read ++ [call]
    rw [hsplit, List.append_nil]
  · show s.req ++ call.message = [call.message].flatten
    rw [hreq, List.nil_append, List.flatten_singleton]

theorem Aligned.handles {session : Session} {manager : Manager} (h : Aligned s)
    (hmade : ∀ c ∈ s.made, c.Proper) (hbuffer : session.request = fill 42 s.reads)
    (hreq : s.req ≠ []) :
    Aligned { s with
      req := s.req.drop 42
      reads := s.reads ++ [s.req.take 42]
      performed := s.performed ++ [decodeRequest (overwrite session.request (s.req.take 42))]
      manager := manager } := by
  obtain ⟨read, unread, hsplit, hone, hreads, hunread, hperformed⟩ := h
  obtain ⟨call, rfl⟩ : ∃ call, unread = [call] := by
    match unread, hone with
    | [], _ => exact absurd hunread hreq
    | [call], _ => exact ⟨call, rfl⟩
  rw [List.map_singleton, List.flatten_singleton] at hunread
  have hcall : call.Proper := hmade call (by simp [hsplit])
  have hread : ∀ c ∈ read, c.Proper := fun c hc => hmade c (by simp [hsplit, hc])
  have htake : s.req.take 42 = call.message := by
    rw [hunread, List.take_of_length_le (hcall.message_length.2.trans (by decide))]
  have hdrop : s.req.drop 42 = [] := by
    rw [hunread, List.drop_of_length_le (hcall.message_length.2.trans (by decide))]
  have hop := decode_message_iff hread hcall
  rw [← hreads, ← hbuffer, ← htake] at hop
  refine ⟨read ++ [call], [], ?_, Nat.zero_le 1, ?_, hdrop, ?_⟩
  · show s.made = (read ++ [call]) ++ []
    rw [hsplit, List.append_nil]
  · show s.reads ++ [s.req.take 42] = (read ++ [call]).map Call.message
    rw [hreads, htake, List.map_append, List.map_singleton]
  · show s.performed ++ [decodeRequest (overwrite session.request (s.req.take 42))]
        = (read ++ [call]).map Call.operation ↔ (read ++ [call]).Pairwise Call.Covers
    rw [List.map_append, List.map_singleton, List.pairwise_append]
    constructor
    · intro h
      obtain ⟨hold, hnew⟩ := List.append_inj' h rfl
      refine ⟨hperformed.mp hold, List.pairwise_singleton _ _, fun a ha b hb => ?_⟩
      rw [List.mem_singleton.mp hb]
      exact hop.mp (List.singleton_inj.mp hnew) a ha
    · rintro ⟨hold, -, hnew⟩
      rw [hperformed.mpr hold, hop.mpr (fun a ha => hnew a ha call (List.mem_singleton_self call))]

theorem aligned_step {event : Event} (hproper : ∀ call ∈ script, call.Proper) (hpaced : Paced s event)
    (hi : Inv script s) (hd : Decoded s) (ha : Aligned s) (h : step cap s event = some s') :
    Aligned s' := by
  have hi' := inv_step hproper hi h
  obtain ⟨-, hstep⟩ := step_cases h
  cases hstep with
  | opensResp => exact ha
  | opensReq => exact ha
  | opensNotif => exact ha
  | connects => exact ha
  | calls hc => exact ha.calls (hi.made_proper hproper) (hpaced hc)
  | callFails => exact ha
  | disconnects => exact ha
  | returns => exact ha
  | notifCalls => exact ha
  | notifFails => exact ha
  | notifReads => exact ha
  | notifEnds => exact ha
  | managerOpensResp => exact ha
  | managerOpensReq => exact ha
  | managerOpensNotif => exact ha
  | greets => exact ha
  | greetFails => exact ha
  | @handles _ session stack answer hm hreq hh =>
      exact ha.handles (hi.made_proper hproper) (hd.buffer session (by rw [hm]; rfl)) hreq
  | noBucket => exact absurd hi'.running (by simp)
  | ends => exact ha
  | answers => exact ha
  | answerFails => exact ha
  | notified => exact ha
  | notifyFails => exact ha

theorem aligned_run {paths : PipePaths} {events : List Event} (hproper : ∀ call ∈ script, call.Proper)
    (hpaced : Transition.StepsMeet (step cap) Paced events (.init script paths))
    (hrun : Transition.run (step cap) events (.init script paths) = some s) : Aligned s := by
  have hall : Inv script s ∧ Decoded s ∧ Aligned s :=
    Transition.run_invariant_guarded (fun s => Inv script s ∧ Decoded s ∧ Aligned s)
      (fun _ _ _ hp h hstep => ⟨inv_step hproper h.1 hstep, decoded_step hproper h.1 h.2.1 hstep,
        aligned_step hproper hp h.1 h.2.1 h.2.2 hstep⟩)
      hpaced
      ⟨inv_init script paths, decoded_init paths, [], [], rfl, Nat.zero_le 1, rfl, rfl,
        iff_of_true rfl List.Pairwise.nil⟩ hrun
  exact hall.2.2

end Aligned

instance (s : State) : (event : Event) → Decidable (Paced s event)
  | .client _ => inferInstanceAs (Decidable (_ → _))
  | .clientNotif => isTrue trivial
  | .manager _ _ => isTrue trivial
  | .notification _ => isTrue trivial

end Kvs.System
