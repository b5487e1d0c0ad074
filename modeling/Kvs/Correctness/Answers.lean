import Kvs.Client.Api
import Kvs.Server.Manager
import Kvs.Server.Sequential

/-!
# `Correctness.Answers` — what the server answers and what the client makes of it

Every request of a session is answered, when it is, on the notification pipe, and the client does not
read the response pipe before it returns. So a session in which each request has its answer on the
response pipe, and the calls return what the server found, is one without requests
(`session_answered_iff`).
-/

namespace Kvs

open Client Server

/-! ## Serving a session -/

/-- A request of a session: the operation that `request` decodes to, the table it finds, and what the
    memory behind `response` holds. In between, the jobs and the other sessions go on. -/
structure ServedRequest where
  op : SessionOp
  table : HashTable
  stack : List Byte

namespace Server

/-- The rounds of the request loop, up to the one that ends it. -/
def serve (s : Session) : List ServedRequest → Option (List Handled)
  | [] => some []
  | r :: rs => do
      let handled ← handleRequest s r.table r.stack r.op
      if handled.ends then return [handled]
      else
        let rest ← serve s rs
        return handled :: rest

/-- The op code that asks for the operation. -/
def SessionOp.code : SessionOp → Byte
  | .disconnect => 2
  | .subscribe _ => 3
  | .unsubscribe _ => 4
  | .unrecognized => 0
  | .pipeClosed => 0

end Server

/-- What the call returns that sent the request, with this on the response pipe. -/
def callReturns (op : SessionOp) (responses : List Byte) : Int :=
  match op with
  | .subscribe _ => kvsSubscribeReturns responses
  | .unsubscribe _ => kvsUnsubscribeReturns responses
  | _ => 0

/-! ## The contract -/

/-- The request is answered by one message of two bytes on the response pipe, the op code first. -/
def Answered (s : Session) (r : ServedRequest) (h : Handled) : Prop :=
  ∃ result, h.sent = [(s.respFd, [r.op.code, result])]

/-- The calls tell the two outcomes of the server from each other, whatever the pipe holds. -/
def Distinguished (rs : List ServedRequest) (hs : List Handled) : Prop :=
  ∀ p ∈ rs.zip hs, ∀ q ∈ rs.zip hs, p.2.result = some 0 → q.2.result = some 1 →
    ∀ responses, callReturns p.1.op responses ≠ callReturns q.1.op responses

/-- Every request has its answer, in order, and the calls return what the server found. -/
def SessionAnswered (s : Session) (rs : List ServedRequest) : Prop :=
  ∃ hs, serve s rs = some hs ∧ List.Forall₂ (Answered s) rs hs ∧ Distinguished rs hs

/-- **The server answers on the notification pipe.** -/
theorem handleRequest_sent {s : Session} {ht : HashTable} {stack : List Byte} {op : SessionOp}
    {h : Handled} (hh : handleRequest s ht stack op = some h) : ∀ m ∈ h.sent, m.1 = s.notifFd := by
  cases op with
  | disconnect =>
      obtain rfl := Option.some.inj hh
      simp
  | subscribe key =>
      simp only [handleRequest, Option.bind_eq_bind, Option.bind_eq_some_iff] at hh
      obtain ⟨r, _, hh⟩ := hh
      obtain rfl := Option.some.inj hh
      simp
  | unsubscribe key =>
      simp only [handleRequest, Option.bind_eq_bind, Option.bind_eq_some_iff] at hh
      obtain ⟨r, _, hh⟩ := hh
      obtain rfl := Option.some.inj hh
      simp
  | unrecognized =>
      obtain rfl := Option.some.inj hh
      simp
  | pipeClosed =>
      obtain rfl := Option.some.inj hh
      simp

/-- **The calls return the same**, whatever the server found. -/
theorem callReturns_eq (op : SessionOp) (responses : List Byte) : callReturns op responses = 0 := by
  cases op <;> rfl

/-- What was served first was handled on the table it found. -/
theorem serve_cons {s : Session} {r : ServedRequest} {rs : List ServedRequest} {h : Handled}
    {hs : List Handled} (hserve : serve s (r :: rs) = some (h :: hs)) :
    handleRequest s r.table r.stack r.op = some h := by
  simp only [serve, Option.bind_eq_bind, Option.bind_eq_some_iff] at hserve
  obtain ⟨h', hh', hrest⟩ := hserve
  split at hrest
  · obtain ⟨rfl, _⟩ := List.cons.inj (Option.some.inj hrest)
    exact hh'
  · obtain ⟨rest, _, hrest⟩ := Option.bind_eq_some_iff.mp hrest
    obtain ⟨rfl, _⟩ := List.cons.inj (Option.some.inj hrest)
    exact hh'

/-- The calls tell the outcomes apart when there is nothing to tell. -/
theorem distinguished_iff (rs : List ServedRequest) (hs : List Handled) :
    Distinguished rs hs ↔ ¬ ((∃ p ∈ rs.zip hs, p.2.result = some 0) ∧
      ∃ q ∈ rs.zip hs, q.2.result = some 1) := by
  constructor
  · rintro h ⟨⟨p, hp, hp0⟩, q, hq, hq1⟩
    exact h p hp q hq hp0 hq1 [] ((callReturns_eq _ _).trans (callReturns_eq _ _).symm)
  · intro h p hp q hq hp0 hq1
    exact absurd ⟨⟨p, hp, hp0⟩, q, hq, hq1⟩ h

/-- The first request has no answer on the response pipe. -/
theorem not_answered {s : Session} {r : ServedRequest} {rs : List ServedRequest} :
    ¬ SessionAnswered s (r :: rs) := by
  rintro ⟨hs, hserve, hanswered, _⟩
  cases hanswered with
  | cons hfirst hrest =>
      obtain ⟨result, hsent⟩ := hfirst
      -- its only message went to `notif_fd`, which is another descriptor
      have hfd := handleRequest_sent (serve_cons hserve) _ (hsent ▸ List.mem_singleton_self _)
      exact s.distinct hfd

/-- **Answers.** For every session and every sequence of requests, each on the table it finds: every
    request is answered by one message of two bytes on the response pipe, in order, and the calls tell
    the outcomes apart, if and only if there is no request. -/
theorem session_answered_iff (s : Session) (rs : List ServedRequest) :
    SessionAnswered s rs ↔ rs = [] := by
  cases rs with
  | nil => exact iff_of_true ⟨[], rfl, .nil, fun p hp => absurd hp List.not_mem_nil⟩ rfl
  | cons r rs => exact iff_of_false not_answered (List.cons_ne_nil r rs)

/-- A session whose pipes are descriptors 4, 5 and 6. -/
def session456 : Session := ⟨4, 5, 6, by decide, zeroRequest, []⟩

/-- **Two subscriptions**, to a key that is there and, when it is gone, again: the server finds 0 and 1
    and says so on descriptor 6, the notification pipe, and both calls return 0. -/
theorem subscriptions_answered_elsewhere :
    ((serve session456 [⟨.subscribe keyA.str, tableWithA, []⟩,
        ⟨.subscribe keyA.str, createHashTable, []⟩]).map
      (List.map (fun h => (h.result, h.sent)))
        = some [(some 0, [(6, [3, 48])]), (some 1, [(6, [3, 49])])]) ∧
    (∀ responses, kvsSubscribeReturns responses = 0) ∧
    ¬ SessionAnswered session456 [⟨.subscribe keyA.str, tableWithA, []⟩,
      ⟨.subscribe keyA.str, createHashTable, []⟩] :=
  ⟨by decide +kernel, fun _ => rfl, not_answered⟩

end Kvs
