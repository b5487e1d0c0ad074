import Kvs.Client.Api
import Kvs.Server.Session

/-!
# `Correctness.SessionDecode` — what the server makes of a client's requests

Client encoder against server decoder, over a whole session. A request is sent unpadded and unterminated
and read into a buffer that is zeroed once. Two things go wrong, each with its exact condition: a key is
decoded as sent if and only if no earlier request of the session carried a longer one
(`session_key_iff`), and, even with a buffer that is zero behind every read, the session performs what
the client asked for if and only if every read returns one whole message (`session_reads_iff`).
-/

namespace Kvs

open Client Server

/-! ## Requests -/

inductive RequestKind where
  | subscribe
  | unsubscribe
  deriving DecidableEq

/-- A call of `kvs_subscribe` or `kvs_unsubscribe` with a key of 1 to 39 bytes. -/
structure Request where
  kind : RequestKind
  key : CStr
  length_pos : 1 ≤ key.bytes.length
  length_le : key.bytes.length ≤ 39

namespace Request

def opCode (r : Request) : Byte :=
  match r.kind with
  | .subscribe => 3
  | .unsubscribe => 4

/-- What the client writes to the request pipe. -/
def message (r : Request) : List Byte :=
  match r.kind with
  | .subscribe => kvsSubscribe r.key
  | .unsubscribe => kvsUnsubscribe r.key

/-- What the server is asked to do. -/
def operation (r : Request) : SessionOp :=
  match r.kind with
  | .subscribe => .subscribe r.key
  | .unsubscribe => .unsubscribe r.key

theorem opCode_ne_zero (r : Request) : r.opCode ≠ 0 := by
  unfold opCode
  split <;> decide

theorem message_eq (r : Request) : r.message = r.opCode :: r.key.bytes := by
  have hlen : r.key.bytes.length ≤ 41 := r.length_le.trans (by decide)
  unfold message opCode
  split
  · exact sendMsg_messageToSend (by decide) hlen
  · exact sendMsg_messageToSend (by decide) hlen

theorem nul_notMem_message (r : Request) : (0 : Byte) ∉ r.message := by
  rw [message_eq, List.mem_cons, not_or]
  exact ⟨r.opCode_ne_zero.symm, r.key.noNul⟩

theorem message_length (r : Request) : r.message.length = r.key.bytes.length + 1 := by
  rw [message_eq, List.length_cons]

/-! ## One request -/

/-- Behind its op code a request is decoded as sent when the string there is its key. -/
theorem decode_eq_iff (r : Request) {rest : List Byte} (hrest : rest.length ≤ 41) :
    decodeRequest (r.opCode :: rest) = r.operation ↔ untilNul rest = r.key.bytes := by
  have hkey : (CStr.ofBuffer (strncpy rest 41)).bytes = untilNul rest := by
    rw [ofBuffer_strncpy, List.take_of_length_le hrest]
  have hext : CStr.ofBuffer (strncpy rest 41) = r.key ↔ untilNul rest = r.key.bytes := by
    rw [← hkey]
    exact ⟨fun h => congrArg CStr.bytes h, CStr.ext⟩
  unfold opCode operation decodeRequest
  cases r.kind with
  | subscribe => simpa using hext
  | unsubscribe => simpa using hext

theorem decode_ne_disconnect (r : Request) (rest : List Byte) :
    decodeRequest (r.opCode :: rest) ≠ .disconnect := by
  unfold opCode decodeRequest
  cases r.kind <;> simp

/-- Only a read that starts with the op code is decoded as the request. -/
theorem opCode_of_decode {r : Request} {b : Byte} {rest : List Byte}
    (h : decodeRequest (b :: rest) = r.operation) : b = r.opCode := by
  unfold opCode
  rw [operation, decodeRequest_cons] at h
  by_cases h2 : b = 2
  · rw [if_pos h2] at h
    cases hkind : r.kind <;> simp [hkind] at h
  · rw [if_neg h2] at h
    by_cases h3 : b = 3
    · rw [if_pos h3] at h
      cases hkind : r.kind with
      | subscribe => exact h3
      | unsubscribe => simp [hkind] at h
    · rw [if_neg h3] at h
      by_cases h4 : b = 4
      · rw [if_pos h4] at h
        cases hkind : r.kind with
        | subscribe => simp [hkind] at h
        | unsubscribe => exact h4
      · rw [if_neg h4] at h
        cases hkind : r.kind <;> simp [hkind] at h

end Request

/-! ## A buffer that keeps the bytes of earlier reads -/

/-- A read of the request pipe that the session goes on after: 1 to 42 bytes of what `kvs_subscribe` and
    `kvs_unsubscribe` wrote, so none of them NUL, that the server does not take for a disconnect. -/
structure RequestRead where
  bytes : List Byte
  length_pos : 1 ≤ bytes.length
  length_le : bytes.length ≤ 42
  noNul : (0 : Byte) ∉ bytes
  notDisconnect : bytes.headD 0 ≠ 2

theorem RequestRead.decode_ne_disconnect (q : RequestRead) (request : List Byte) :
    decodeRequest (overwrite request q.bytes) ≠ .disconnect := by
  have hhead : (overwrite request q.bytes).headD 0 = q.bytes.headD 0 := by
    cases hbytes : q.bytes with
    | nil => exact absurd q.length_pos (by simp [hbytes])
    | cons b rest => rfl
  simp only [decodeRequest, hhead, if_neg q.notDisconnect]
  split_ifs <;> simp

/-- Earlier reads leave their bytes in the buffer, and the loop goes on. -/
theorem sessionLoop_reads (earlier : List RequestRead) (history : List (List Byte))
    (reads : List (List Byte)) :
    ∃ ops : List SessionOp, ops.length = earlier.length ∧
      sessionLoop (fill 42 history) (earlier.map RequestRead.bytes ++ reads)
        = ops ++ sessionLoop (fill 42 (history ++ earlier.map RequestRead.bytes)) reads := by
  induction earlier generalizing history with
  | nil => exact ⟨[], rfl, by simp⟩
  | cons q earlier ih =>
      obtain ⟨ops, hlen, hops⟩ := ih (history ++ [q.bytes])
      refine ⟨decodeRequest (overwrite (fill 42 history) q.bytes) :: ops, by simp [hlen], ?_⟩
      rw [List.map_cons, List.cons_append, sessionLoop_cons (q.decode_ne_disconnect _), ← fill_concat,
        hops]
      simp

/-- **Keys within a session.** After any earlier reads, a request that arrives in one read is decoded as
    it was sent if and only if no earlier read returned more bytes than it has. -/
theorem session_key_iff (earlier : List RequestRead) (r : Request) :
    (sessionLoop zeroRequest (earlier.map RequestRead.bytes ++ [r.message]))[earlier.length]?
        = some r.operation ↔
      ∀ q ∈ earlier, q.bytes.length ≤ r.message.length := by
  obtain ⟨ops, hlen, hops⟩ := sessionLoop_reads earlier [] [r.message]
  have hnul : ∀ m ∈ earlier.map RequestRead.bytes, (0 : Byte) ∉ m := by
    intro m hm
    obtain ⟨q, _, rfl⟩ := List.mem_map.mp hm
    exact q.noNul
  have hbuffer : ∀ m ∈ earlier.map RequestRead.bytes, m.length ≤ 42 := by
    intro m hm
    obtain ⟨q, _, rfl⟩ := List.mem_map.mp hm
    exact q.length_le
  have hfill := fill_length hbuffer
  have hsplit : overwrite (fill 42 (earlier.map RequestRead.bytes)) r.message
      = r.opCode :: (r.key.bytes
        ++ (fill 42 (earlier.map RequestRead.bytes)).drop r.message.length) := by
    rw [overwrite, r.message_eq]
    rfl
  have htail : (r.key.bytes ++ (fill 42 (earlier.map RequestRead.bytes)).drop
      r.message.length).length ≤ 41 := by
    have := r.length_le
    rw [List.length_append, List.length_drop, hfill, r.message_length]
    omega
  have hcont : decodeRequest (overwrite (fill 42 (earlier.map RequestRead.bytes)) r.message)
      ≠ .disconnect := by
    rw [hsplit]
    exact r.decode_ne_disconnect _
  show (sessionLoop (fill 42 []) _)[earlier.length]? = _ ↔ _
  rw [hops, List.nil_append, sessionLoop_cons hcont, ← hlen, List.getElem?_append_right (Nat.le_refl _),
    Nat.sub_self, List.getElem?_cons_zero, Option.some.injEq, hsplit, r.decode_eq_iff htail]
  -- the message and its key are cut at the same NUL
  have hwhole := untilNul_overwrite_fill_iff (n := 42) hnul r.nul_notMem_message
  have hop : (0 : Byte) ∉ [r.opCode] := by simpa using r.opCode_ne_zero.symm
  have hcut : untilNul (overwrite (fill 42 (earlier.map RequestRead.bytes)) r.message) = r.message ↔
      untilNul (r.key.bytes ++ (fill 42 (earlier.map RequestRead.bytes)).drop r.message.length)
        = r.key.bytes := by
    rw [hsplit, ← List.singleton_append, untilNul_append hop, r.message_eq]
    simp
  rw [← hcut, hwhole]
  simp

/-- The call that subscribes to these bytes. -/
def Request.ofBytes (bytes : List Byte) (noNul : (0 : Byte) ∉ bytes) (hpos : 1 ≤ bytes.length)
    (hle : bytes.length ≤ 39) : Request := ⟨.subscribe, ⟨bytes, noNul⟩, hpos, hle⟩

/-- `kvs_subscribe("abc")` -/
def subscribeAbc : Request := .ofBytes [97, 98, 99] (by decide) (by decide) (by decide)

/-- `kvs_subscribe("x")` -/
def subscribeX : Request := .ofBytes [120] (by decide) (by decide) (by decide)

/-- Subscribed to after `abc`, the key `x` is decoded as `xbc`. -/
theorem session_key_stale :
    sessionLoop zeroRequest [subscribeAbc.message, subscribeX.message]
      = [.subscribe ⟨[97, 98, 99], by decide⟩, .subscribe ⟨[120, 98, 99], by decide⟩, .pipeClosed] ∧
    subscribeX.operation ≠ .subscribe ⟨[120, 98, 99], by decide⟩ := by
  decide +kernel

/-! ## Reads that cut the stream anywhere -/

/-- The request array after a read into it, the bytes behind the read taken as zero. -/
def zeroTail (data : List Byte) : List Byte := data ++ List.replicate (42 - data.length) 0

theorem overwrite_zeroTail {request data : List Byte} (hrequest : request.length = 42)
    (hdata : data.length ≤ 42) : overwrite request (zeroTail data) = zeroTail data := by
  rw [overwrite, List.drop_of_length_le, List.append_nil]
  simp only [zeroTail, List.length_append, List.length_replicate, hrequest]
  omega

theorem zeroTail_length {data : List Byte} (h : data.length ≤ 42) : (zeroTail data).length = 42 := by
  simp only [zeroTail, List.length_append, List.length_replicate]
  omega

/-- A read is decoded as a request exactly when it returned its message. -/
theorem decode_zeroTail_iff (r : Request) {data : List Byte} (hnul : (0 : Byte) ∉ data)
    (hpos : 1 ≤ data.length) (hle : data.length ≤ 42) :
    decodeRequest (zeroTail data) = r.operation ↔ data = r.message := by
  cases data with
  | nil => exact absurd hpos (by simp)
  | cons b rest =>
      have hrest : (0 : Byte) ∉ rest := fun h => hnul (List.mem_cons_of_mem b h)
      have hcut : untilNul (rest ++ List.replicate (42 - (b :: rest).length) 0) = rest := by
        rw [untilNul_append hrest, untilNul_zeros, List.append_nil]
      have hbuffer : (rest ++ List.replicate (42 - (b :: rest).length) (0 : Byte)).length ≤ 41 := by
        simp only [List.length_append, List.length_replicate, List.length_cons] at hle ⊢
        omega
      rw [zeroTail, List.cons_append, r.message_eq, List.cons.injEq]
      constructor
      · intro h
        obtain rfl := Request.opCode_of_decode h
        rw [r.decode_eq_iff hbuffer, hcut] at h
        exact ⟨rfl, h⟩
      · rintro ⟨rfl, hkey⟩
        rw [r.decode_eq_iff hbuffer, hcut]
        exact hkey

/-- Reads that together return one byte are one read. -/
theorem eq_singleton_of_flatten {chunks : List (List Byte)} {b : Byte}
    (hpos : ∀ c ∈ chunks, 1 ≤ c.length) (h : chunks.flatten = [b]) : chunks = [[b]] := by
  cases chunks with
  | nil => simp at h
  | cons c chunks =>
      have hc := hpos c List.mem_cons_self
      have hlen := congrArg List.length h
      cases chunks with
      | nil => simpa using h
      | cons d chunks =>
          have hd := hpos d (by simp)
          simp only [List.flatten_cons, List.length_append, List.length_singleton] at hlen
          omega

/-- What a client writes in a session. -/
theorem nul_notMem_stream (rs : List Request) :
    (0 : Byte) ∉ rs.flatMap Request.message ++ kvsDisconnect := by
  rw [List.mem_append, List.mem_flatMap]
  rintro (⟨r, _, hr⟩ | hdisconnect)
  · exact r.nul_notMem_message hr
  · exact absurd hdisconnect (by decide)

theorem sessionLoop_zeroTail_iff (rs : List Request) {request : List Byte}
    (hrequest : request.length = 42) (chunks : List (List Byte))
    (hlen : ∀ c ∈ chunks, 1 ≤ c.length ∧ c.length ≤ 42)
    (hstream : chunks.flatten = rs.flatMap Request.message ++ kvsDisconnect) :
    sessionLoop request (chunks.map zeroTail) = rs.map Request.operation ++ [.disconnect] ↔
      chunks = rs.map Request.message ++ [kvsDisconnect] := by
  induction rs generalizing request chunks with
  | nil =>
      -- only the disconnect is left, and one byte is one read
      have hchunks : chunks = [[2]] :=
        eq_singleton_of_flatten (fun c hc => (hlen c hc).1) hstream
      subst hchunks
      refine iff_of_true ?_ rfl
      apply sessionLoop_disconnect
      rw [overwrite_zeroTail hrequest (by decide)]
      rfl
  | cons r rs ih =>
      cases chunks with
      | nil => simp [r.message_eq] at hstream
      | cons c chunks =>
          have hc := hlen c List.mem_cons_self
          have hrest : ∀ d ∈ chunks, 1 ≤ d.length ∧ d.length ≤ 42 :=
            fun d hd => hlen d (List.mem_cons_of_mem c hd)
          -- the stream has no NUL in it, so the read has none
          have hnul : (0 : Byte) ∉ c := by
            intro hzero
            apply nul_notMem_stream (r :: rs)
            rw [← hstream]
            exact List.mem_append_left _ hzero
          have hdecode := decode_zeroTail_iff r hnul hc.1 hc.2
          have hread := overwrite_zeroTail hrequest hc.2
          simp only [List.map_cons, List.cons_append, List.cons.injEq]
          by_cases hmsg : c = r.message
          · -- the read is the message: the rest of the reads against the rest of the requests
            have hstep : sessionLoop request (zeroTail c :: chunks.map zeroTail)
                = r.operation :: sessionLoop (zeroTail c) (chunks.map zeroTail) := by
              have hop := hdecode.mpr hmsg
              rw [sessionLoop_cons, hread, hop]
              rw [hread, hop]
              cases hkind : r.kind <;> simp [Request.operation, hkind]
            have htail : chunks.flatten = rs.flatMap Request.message ++ kvsDisconnect := by
              rw [List.flatten_cons, List.flatMap_cons, hmsg, List.append_assoc] at hstream
              exact List.append_cancel_left hstream
            rw [hstep, List.cons.injEq, ih (zeroTail_length hc.2) chunks hrest htail]
            simp [hmsg]
          · -- any other read is not decoded as the request
            refine iff_of_false ?_ (fun h => hmsg h.1)
            intro hops
            apply hmsg
            rw [← hdecode]
            by_cases hdisc : decodeRequest (overwrite request (zeroTail c)) = .disconnect
            · rw [sessionLoop_disconnect hdisc, List.cons.injEq] at hops
              rw [← hread, hdisc, hops.1]
            · rw [sessionLoop_cons hdisc, List.cons.injEq, hread] at hops
              exact hops.1

/-- **Reads and messages.** However the pipe cuts the stream of a session's messages, each read seen with
    zeros behind it, the server performs the client's calls and then ends the session if and only if
    every read returned one whole message. -/
theorem session_reads_iff (rs : List Request) (chunks : List (List Byte))
    (hlen : ∀ c ∈ chunks, 1 ≤ c.length ∧ c.length ≤ 42)
    (hstream : chunks.flatten = rs.flatMap Request.message ++ kvsDisconnect) :
    sessionLoop zeroRequest (chunks.map zeroTail) = rs.map Request.operation ++ [.disconnect] ↔
      chunks = rs.map Request.message ++ [kvsDisconnect] :=
  sessionLoop_zeroTail_iff rs (by simp [zeroRequest]) chunks hlen hstream

/-- Two subscriptions, the shorter key behind the longer one, each in a read of its own, then the
    disconnect. -/
theorem session_reads_whole :
    sessionLoop zeroRequest ([[3, 97, 98, 99], [3, 120], [2]].map zeroTail)
      = [subscribeAbc, subscribeX].map Request.operation ++ [.disconnect] :=
  (session_reads_iff [subscribeAbc, subscribeX] [[3, 97, 98, 99], [3, 120], [2]] (by decide)
    (by decide +kernel)).mpr (by decide +kernel)

/-- Two subscriptions in one read are decoded as one, to the second message behind the first key. -/
theorem session_reads_coalesced :
    [[3, 97, 98, 99, 3, 120], [2]].flatten
      = [subscribeAbc, subscribeX].flatMap Request.message ++ kvsDisconnect ∧
    sessionLoop zeroRequest ([[3, 97, 98, 99, 3, 120], [2]].map zeroTail)
      = [.subscribe ⟨[97, 98, 99, 3, 120], by decide⟩, .disconnect] ∧
    [subscribeAbc, subscribeX].map Request.operation ++ [.disconnect]
      ≠ [.subscribe ⟨[97, 98, 99, 3, 120], by decide⟩, .disconnect] := by
  decide +kernel

end Kvs
