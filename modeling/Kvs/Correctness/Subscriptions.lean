import Kvs.Correctness.SubscriberMap
import Kvs.Correctness.Subscripts

/-!
# `Correctness.Subscriptions` — whose descriptor is in a slot

A session that ends closes `notif_fd` and leaves its number in the slots, where it means the next pipe
that gets the number. In a run in which every session that ends has unsubscribed from the keys that are
there (`EndsUnsubscribed`), the slots hold the descriptors of open sessions that have subscribed
themselves, and no new session inherits or is refused anything (`subscriptions_sound`). The invariant is
that every slot has an owner (`OwnedBy`), kept by each step of a manager and by each job that creates no
key.
-/

namespace Kvs.Server

/-! ## Sound subscriptions -/

/-- An open session with this descriptor has subscribed to the key, and not unsubscribed since. -/
def OwnedBy (managers : Fin MAX_SESSION_COUNT → Manager) (fd : Int) (key : CStr) : Prop :=
  ∃ m session, (managers m).session = some session ∧ session.notifFd = fd ∧
    session.subscribedTo key = true

/-- The descriptor is in no slot of any node. -/
def InNoSlot (ht : HashTable) (fd : Int) : Prop :=
  ∀ i, ∀ n ∈ ht.table i, ∀ j : Fin MAX_SESSION_COUNT, n.subscriberFds.get j ≠ fd

instance (ht : HashTable) (fd : Int) : Decidable (InNoSlot ht fd) :=
  inferInstanceAs (Decidable (∀ i, ∀ n ∈ ht.table i, ∀ j : Fin MAX_SESSION_COUNT,
    n.subscriberFds.get j ≠ fd))

/-- Every slot that is not free has its owner; a descriptor that can be opened is in no slot; and an open
    session that is not subscribed to a key that is there can subscribe to it. -/
structure SubscriptionsSound (s : ServerState) : Prop where
  owned : ∀ i, ∀ n ∈ s.table.table i, ∀ j : Fin MAX_SESSION_COUNT, n.subscriberFds.get j ≠ 0 →
    OwnedBy s.managers (n.subscriberFds.get j) n.key
  fresh : ∀ fd, FreeFd s fd → InNoSlot s.table fd
  accepted : ∀ m session, (s.managers m).session = some session →
    ∀ k : Key, (s.table.toMap k).isSome = true → session.subscribedTo k.str = false →
      ∃ ht, kvsSubscribe s.table k.str session.notifFd = some (ht, 0)

/-- The session that ends when the call returns this. -/
def endsSession : Manager → Result → Option Session
  | .read s, .atEnd => some s
  | .reply s left true, .wrote n => if n = left.length then some s else none
  | _, _ => none

/-- A session that ends has its descriptor in no slot: it has unsubscribed from the keys that are there. -/
def EndsUnsubscribed (s : ServerState) : ServerEvent → Prop
  | .job _ => True
  | .manager m result =>
      match endsSession (s.managers m) result with
      | some session => InNoSlot s.table session.notifFd
      | none => True

instance (s : ServerState) : (e : ServerEvent) → Decidable (EndsUnsubscribed s e)
  | .job _ => isTrue trivial
  | .manager m result =>
      match h : endsSession (s.managers m) result with
      | some session => decidable_of_iff (InNoSlot s.table session.notifFd) (by
          simp [EndsUnsubscribed, h])
      | none => isTrue (by simp [EndsUnsubscribed, h])

/-- No job creates a key. -/
def NoKeyCreated (s : ServerState) : ServerEvent → Prop
  | .job command => CreatesNoKey s.table command
  | .manager _ _ => True

instance (s : ServerState) : (e : ServerEvent) → Decidable (NoKeyCreated s e)
  | .job command => inferInstanceAs (Decidable (CreatesNoKey s.table command))
  | .manager _ _ => isTrue trivial

/-! ## The invariant -/

structure SubscriptionInv (s : ServerState) : Prop where
  table : TableInv s.table
  distinct : ∀ i, ∀ n ∈ s.table.table i, SlotsDistinct n.subscriberFds
  owned : ∀ i, ∀ n ∈ s.table.table i, ∀ j : Fin MAX_SESSION_COUNT, n.subscriberFds.get j ≠ 0 →
    OwnedBy s.managers (n.subscriberFds.get j) n.key
  opened : ∀ m, ∀ fd ∈ (s.managers m).fds, 2 < fd
  apart : ∀ m m', m ≠ m' → ∀ fd ∈ (s.managers m).fds, fd ∉ (s.managers m').fds

theorem notifFd_mem_fds {manager : Manager} {session : Session} (h : manager.session = some session) :
    session.notifFd ∈ manager.fds := by
  cases manager with
  | waiting => exact absurd h (by simp [Manager.session])
  | openResp paths => exact absurd h (by simp [Manager.session])
  | openReq paths respFd => exact absurd h (by simp [Manager.session])
  | openNotif paths respFd reqFd => exact absurd h (by simp [Manager.session])
  | greet s left =>
      obtain rfl := Option.some.inj h
      simp [Manager.fds]
  | read s =>
      obtain rfl := Option.some.inj h
      simp [Manager.fds]
  | reply s left ends =>
      obtain rfl := Option.some.inj h
      simp [Manager.fds]

/-- Two managers have no descriptor in common, so a descriptor belongs to one session. -/
theorem SubscriptionInv.owner_unique {s : ServerState} (h : SubscriptionInv s)
    {m m' : Fin MAX_SESSION_COUNT} {session session' : Session}
    (hm : (s.managers m).session = some session) (hm' : (s.managers m').session = some session')
    (hfd : session.notifFd = session'.notifFd) : m = m' ∧ session = session' := by
  have hmm : m = m' := by
    by_contra hne
    exact h.apart m m' hne _ (notifFd_mem_fds hm) (hfd ▸ notifFd_mem_fds hm')
  subst hmm
  exact ⟨rfl, Option.some.inj (hm.symm.trans hm')⟩

theorem SubscriptionInv.notifFd_ne_zero {s : ServerState} (h : SubscriptionInv s)
    {m : Fin MAX_SESSION_COUNT} {session : Session} (hm : (s.managers m).session = some session) :
    session.notifFd ≠ 0 := by
  have hopen := h.opened m _ (notifFd_mem_fds hm)
  omega

/-- A node with the key has a slot for an open session that is not in it: the descriptors in its slots
    are those of other sessions, and there are as many slots as sessions. -/
theorem SubscriptionInv.addSlot_accepts {s : ServerState} (h : SubscriptionInv s)
    {m : Fin MAX_SESSION_COUNT} {session : Session} (hm : (s.managers m).session = some session)
    {i : Fin TABLE_SIZE} {n : KeyNode} (hn : n ∈ s.table.table i)
    (hsub : session.subscribedTo n.key = false) :
    (addSlot session.notifFd n.subscriberFds).2 = 0 := by
  have hnot : ∀ j : Fin MAX_SESSION_COUNT, n.subscriberFds.get j ≠ session.notifFd := by
    intro j hj
    obtain ⟨m', session', hm', hfd, htrue⟩ :=
      h.owned i n hn j (hj ▸ h.notifFd_ne_zero hm)
    obtain ⟨_, rfl⟩ := h.owner_unique hm' hm (hfd.trans hj)
    exact absurd (htrue.symm.trans hsub) (by simp)
  rcases addSlot_cases session.notifFd n.subscriberFds with ⟨⟨j, hj⟩, _⟩ | ⟨_, j, _, hadd⟩ | ⟨_, hfull, _⟩
  · exact absurd hj (hnot j)
  · rw [hadd]
  · -- three owners besides this session
    choose owner session' howner hfd _ using fun j => h.owned i n hn j (hfull j)
    have hinj : Function.Injective owner := by
      intro j j' hjj
      have hsame := howner j
      rw [hjj, howner j'] at hsame
      apply h.distinct i n hn j j' (hfull j)
      rw [← hfd j, ← hfd j', Option.some.inj hsame]
    obtain ⟨j, hj⟩ := Finite.surjective_of_injective hinj m
    have hsession := howner j
    rw [hj, hm] at hsession
    exact absurd ((hfd j).symm.trans (congrArg Session.notifFd (Option.some.inj hsession).symm)) (hnot j)

theorem SubscriptionInv.sound {s : ServerState} (h : SubscriptionInv s) : SubscriptionsSound s where
  owned := h.owned
  fresh fd hfree i n hn j hj := by
    obtain ⟨m, session, hm, hfd, _⟩ := h.owned i n hn j (by rw [hj]; have := hfree.1; omega)
    exact hfree.2 m (hj ▸ hfd ▸ notifFd_mem_fds hm)
  accepted m session hm k hk hsub := by
    have hpresent : (searchNode k.str (s.table.table k.bucket)).isSome = true := by
      rwa [HashTable.toMap, Option.isSome_map] at hk
    obtain ⟨n, hnode⟩ := Option.isSome_iff_exists.mp hpresent
    obtain ⟨hn, hkey⟩ := searchNode_some hnode
    refine ⟨(s.table.changeAt k (addSlot session.notifFd)).1, ?_⟩
    rw [kvsSubscribe_key]
    refine congrArg some (Prod.ext rfl ?_)
    show (s.table.changeAt k (addSlot session.notifFd)).2 = 0
    rw [changeAt_ret h.table hn hkey]
    exact h.addSlot_accepts hm hn (hkey ▸ hsub)

/-! ## Steps of a manager -/

/-- A slot keeps its owner when the manager that moves keeps, or was not, its owner. -/
theorem OwnedBy.update {managers : Fin MAX_SESSION_COUNT → Manager} {fd : Int} {key : CStr}
    (h : OwnedBy managers fd key) (m : Fin MAX_SESSION_COUNT) {manager : Manager}
    (hm : ∀ session, (managers m).session = some session → session.notifFd = fd →
      session.subscribedTo key = true → ∃ session', manager.session = some session' ∧
        session'.notifFd = fd ∧ session'.subscribedTo key = true) :
    OwnedBy (Function.update managers m manager) fd key := by
  obtain ⟨m₁, session, hm₁, hfd, hsub⟩ := h
  by_cases hmm : m₁ = m
  · subst hmm
    obtain ⟨session', hsession', hfd', hsub'⟩ := hm session hm₁ hfd hsub
    exact ⟨m₁, session', by rwa [Function.update_self], hfd', hsub'⟩
  · exact ⟨m₁, session, by rwa [Function.update_of_ne hmm], hfd, hsub⟩

/-- A manager goes on, with descriptors that it had or that could be opened. -/
theorem SubscriptionInv.goesOn {s : ServerState} (h : SubscriptionInv s) {m : Fin MAX_SESSION_COUNT}
    {manager : Manager} {ht : HashTable}
    (hfds : ∀ fd ∈ manager.fds, fd ∈ (s.managers m).fds ∨ FreeFd s fd) (htable : TableInv ht)
    (hdistinct : ∀ i, ∀ n ∈ ht.table i, SlotsDistinct n.subscriberFds)
    (howned : ∀ i, ∀ n ∈ ht.table i, ∀ j : Fin MAX_SESSION_COUNT, n.subscriberFds.get j ≠ 0 →
      OwnedBy (Function.update s.managers m manager) (n.subscriberFds.get j) n.key) :
    SubscriptionInv { s with table := ht, managers := Function.update s.managers m manager } where
  table := htable
  distinct := hdistinct
  owned := howned
  opened m₁ fd hfd := by
    by_cases hm₁ : m₁ = m
    · subst hm₁
      simp only [Function.update_self] at hfd
      rcases hfds fd hfd with hold | hnew
      · exact h.opened m₁ fd hold
      · exact hnew.1
    · simp only [Function.update_of_ne hm₁] at hfd
      exact h.opened m₁ fd hfd
  apart m₁ m₂ hne fd hfd hfd' := by
    by_cases hm₁ : m₁ = m
    · subst hm₁
      simp only [Function.update_self, Function.update_of_ne hne.symm] at hfd hfd'
      rcases hfds fd hfd with hold | hnew
      · exact h.apart m₁ m₂ hne fd hold hfd'
      · exact hnew.2 m₂ hfd'
    · simp only [Function.update_of_ne hm₁] at hfd
      by_cases hm₂ : m₂ = m
      · subst hm₂
        simp only [Function.update_self] at hfd'
        rcases hfds fd hfd' with hold | hnew
        · exact h.apart m₁ m₂ hne fd hfd hold
        · exact hnew.2 m₁ hfd
      · simp only [Function.update_of_ne hm₂] at hfd'
        exact h.apart m₁ m₂ hne fd hfd hfd'

/-- A manager goes on without touching the table: its session goes on, or is in no slot. -/
theorem SubscriptionInv.sameTable {s : ServerState} (h : SubscriptionInv s)
    {m : Fin MAX_SESSION_COUNT} {manager : Manager}
    (hfds : ∀ fd ∈ manager.fds, fd ∈ (s.managers m).fds ∨ FreeFd s fd)
    (hsession : ∀ session, (s.managers m).session = some session →
      manager.session = some session ∨ InNoSlot s.table session.notifFd) :
    SubscriptionInv { s with managers := Function.update s.managers m manager } := by
  refine h.goesOn hfds h.table h.distinct ?_
  intro i n hn j hj
  refine (h.owned i n hn j hj).update m ?_
  intro session hm hfd hsub
  rcases hsession session hm with hsame | hnone
  · exact ⟨session, hsame, hfd, hsub⟩
  · exact absurd hfd.symm (hnone i n hn j)

theorem greeting_session (s : Session) (left : List Byte) : (greeting s left).session = some s := by
  unfold greeting
  split <;> rfl

theorem greeting_fds (s : Session) (left : List Byte) :
    (greeting s left).fds = [s.respFd, s.reqFd, s.notifFd] := by
  unfold greeting
  split <;> rfl

/-- The session goes on unless all of the last answer is written. -/
theorem replying_session (s : Session) {left : List Byte} {ends : Bool}
    (h : left ≠ [] ∨ ends = false) :
    (replying s left ends).session = some s ∧
      (replying s left ends).fds = [s.respFd, s.reqFd, s.notifFd] := by
  unfold replying
  by_cases hleft : left = []
  · have hends : ends = false := h.resolve_left (not_not.mpr hleft)
    simp [hleft, hends, Manager.session, Manager.fds]
  · simp [hleft, Manager.session, Manager.fds]

/-! ## Requests -/

/-- The session after a request. -/
def Session.after (s : Session) (request : List Byte) (op : SessionOp) (result : Option Int) : Session :=
  { s with request := request, handled := s.handled ++ [(op, result)] }

theorem subscribedTo_subscribe (s : Session) (request : List Byte) (key : CStr) (result : Int)
    (j : CStr) :
    (s.after request (.subscribe key) (some result)).subscribedTo j
      = if key = j ∧ result = 0 then true else s.subscribedTo j := by
  rw [Session.subscribedTo, Session.after, List.foldl_append]
  rfl

theorem subscribedTo_unsubscribe (s : Session) (request : List Byte) (key : CStr) (result : Int)
    (j : CStr) :
    (s.after request (.unsubscribe key) (some result)).subscribedTo j
      = if key = j then false else s.subscribedTo j := by
  rw [Session.subscribedTo, Session.after, List.foldl_append]
  rfl

/-- A request that leaves subscriptions as they are. -/
theorem subscribedTo_other (s : Session) (request : List Byte) {op : SessionOp}
    (hop : op = .disconnect ∨ op = .unrecognized) (j : CStr) :
    (s.after request op none).subscribedTo j = s.subscribedTo j := by
  rw [Session.subscribedTo, Session.after, List.foldl_append]
  rcases hop with rfl | rfl <;> rfl

/-- A subscription that is served is about a key, whose node it changes. -/
theorem handleRequest_subscribe {s : Session} {ht : HashTable} {stack : List Byte} {key : CStr}
    {handled : Handled} (h : handleRequest s ht stack (.subscribe key) = some handled) :
    ∃ k : Key, key = k.str ∧ handled =
      let (ht', result) := ht.changeAt k (addSlot s.notifFd)
      ⟨ht', some result, [(s.notifFd, sendMsg (3 :: resultChar result :: stack.drop 1))], false⟩ := by
  simp only [handleRequest, Option.bind_eq_bind, Option.bind_eq_some_iff] at h
  obtain ⟨r, hr, h⟩ := h
  obtain ⟨k, rfl⟩ := HasBucket.exists_key
    ((kvsSubscribe_isSome_iff ht key s.notifFd).mp (by rw [hr]; rfl))
  rw [kvsSubscribe_key] at hr
  obtain rfl := Option.some.inj hr
  exact ⟨k, rfl, (Option.some.inj h).symm⟩

theorem handleRequest_unsubscribe {s : Session} {ht : HashTable} {stack : List Byte} {key : CStr}
    {handled : Handled} (h : handleRequest s ht stack (.unsubscribe key) = some handled) :
    ∃ k : Key, key = k.str ∧ handled =
      let (ht', result) := ht.changeAt k (removeSlot s.notifFd)
      ⟨ht', some result, [(s.notifFd, sendMsg (4 :: resultChar result :: stack.drop 1))], false⟩ := by
  simp only [handleRequest, Option.bind_eq_bind, Option.bind_eq_some_iff] at h
  obtain ⟨r, hr, h⟩ := h
  obtain ⟨k, rfl⟩ := HasBucket.exists_key
    ((kvsUnsubscribe_isSome_iff ht key s.notifFd).mp (by rw [hr]; rfl))
  rw [kvsUnsubscribe_key] at hr
  obtain rfl := Option.some.inj hr
  exact ⟨k, rfl, (Option.some.inj h).symm⟩

/-- A change of slots that keeps them distinct does so in the table. -/
theorem SubscriptionInv.distinct_changeAt {s : ServerState} (h : SubscriptionInv s) (k : Key)
    {change : Slots → Slots × Int} (hchange : ∀ fds, SlotsDistinct fds → SlotsDistinct (change fds).1) :
    ∀ i, ∀ n ∈ (s.table.changeAt k change).1.table i, SlotsDistinct n.subscriberFds := by
  intro i n' hn'
  rcases mem_changeAt h.table hn' with ⟨hn, _⟩ | ⟨n, hn, _, rfl, _⟩
  · exact h.distinct i n' hn
  · exact hchange _ (h.distinct i n hn)

section Requests

variable {s : ServerState} {m : Fin MAX_SESSION_COUNT} {session : Session}

/-- The slot has been there before, under the same key, and the session is still subscribed to the key if
    the slot is its own. -/
def SlotKept (ht : HashTable) (session session' : Session) (i : Fin TABLE_SIZE) (n' : KeyNode)
    (j : Fin MAX_SESSION_COUNT) : Prop :=
  ∃ n ∈ ht.table i, n.key = n'.key ∧ n.subscriberFds.get j = n'.subscriberFds.get j ∧
    (n'.subscriberFds.get j = session.notifFd → session.subscribedTo n'.key = true →
      session'.subscribedTo n'.key = true)

/-- **A request.** The session goes on, and every slot is kept or taken by its subscription. -/
theorem SubscriptionInv.request (h : SubscriptionInv s) (hm : s.managers m = .read session)
    {ht : HashTable} {manager : Manager} {session' : Session}
    (hmanager : manager.session = some session')
    (hfds : manager.fds = [session.respFd, session.reqFd, session.notifFd])
    (hnotif : session'.notifFd = session.notifFd) (htable : TableInv ht)
    (hdistinct : ∀ i, ∀ n ∈ ht.table i, SlotsDistinct n.subscriberFds)
    (hslots : ∀ i, ∀ n' ∈ ht.table i, ∀ j, n'.subscriberFds.get j ≠ 0 →
      SlotKept s.table session session' i n' j ∨
        (n'.subscriberFds.get j = session.notifFd ∧ session'.subscribedTo n'.key = true)) :
    SubscriptionInv { s with table := ht, managers := Function.update s.managers m manager } := by
  have hold : (s.managers m).session = some session := by rw [hm]; rfl
  refine h.goesOn ?_ htable hdistinct ?_
  · intro fd hfd
    rw [hfds] at hfd
    rw [hm]
    exact Or.inl hfd
  · intro i n' hn' j hj
    rcases hslots i n' hn' j hj with ⟨n, hn, hkey, hslot, hsub⟩ | ⟨hslot, hsub⟩
    · have howned := h.owned i n hn j (hslot ▸ hj)
      rw [hkey, hslot] at howned
      refine howned.update m ?_
      intro session₁ hm₁ hfd hsub₁
      obtain rfl := Option.some.inj (hold.symm.trans hm₁)
      exact ⟨session', hmanager, hnotif.trans hfd, hsub hfd.symm hsub₁⟩
    · refine ⟨m, session', ?_, hnotif.trans hslot.symm, hsub⟩
      rwa [Function.update_self]

/-- A request that changes neither the table nor the subscriptions of its session. -/
theorem SubscriptionInv.request_sameTable (h : SubscriptionInv s) (hm : s.managers m = .read session)
    {request : List Byte} {op : SessionOp} (hop : op = .disconnect ∨ op = .unrecognized)
    {manager : Manager} (hmanager : manager.session = some (session.after request op none))
    (hfds : manager.fds = [session.respFd, session.reqFd, session.notifFd]) :
    SubscriptionInv { s with managers := Function.update s.managers m manager } :=
  h.request hm hmanager hfds rfl h.table h.distinct (fun _ n hn _ _ =>
    Or.inl ⟨n, hn, rfl, rfl, fun _ hsub => (subscribedTo_other session request hop n.key).trans hsub⟩)

/-- A subscription. -/
theorem SubscriptionInv.subscribe (h : SubscriptionInv s) (hm : s.managers m = .read session) (k : Key)
    (request : List Byte) {manager : Manager}
    (hmanager : manager.session = some (session.after request (.subscribe k.str)
      (some (s.table.changeAt k (addSlot session.notifFd)).2)))
    (hfds : manager.fds = [session.respFd, session.reqFd, session.notifFd]) :
    SubscriptionInv { s with
      table := (s.table.changeAt k (addSlot session.notifFd)).1
      managers := Function.update s.managers m manager } := by
  refine h.request hm hmanager hfds rfl (h.table.changeAt k)
    (h.distinct_changeAt k (fun _ hfds => hfds.add _)) ?_
  intro i n' hn' j hj
  rcases mem_changeAt h.table hn' with ⟨hn, hkey⟩ | ⟨n, hn, hkey, rfl, hret⟩
  · -- another key
    refine Or.inl ⟨n', hn, rfl, rfl, ?_⟩
    intro _ hsub
    rw [subscribedTo_subscribe, if_neg (fun hk => hkey hk.1.symm)]
    exact hsub
  · rcases addSlot_get session.notifFd n.subscriberFds j with hslot | ⟨hslot, hzero⟩
    · -- a slot that was taken before
      refine Or.inl ⟨n, hn, rfl, hslot.symm, ?_⟩
      intro _ hsub
      rw [subscribedTo_subscribe, hsub, ite_self]
    · -- the slot that the subscription took
      refine Or.inr ⟨hslot, ?_⟩
      rw [subscribedTo_subscribe, if_pos ⟨hkey.symm, hret.trans hzero⟩]

/-- The end of a subscription. -/
theorem SubscriptionInv.unsubscribe (h : SubscriptionInv s) (hm : s.managers m = .read session)
    (k : Key) (request : List Byte) {manager : Manager}
    (hmanager : manager.session = some (session.after request (.unsubscribe k.str)
      (some (s.table.changeAt k (removeSlot session.notifFd)).2)))
    (hfds : manager.fds = [session.respFd, session.reqFd, session.notifFd]) :
    SubscriptionInv { s with
      table := (s.table.changeAt k (removeSlot session.notifFd)).1
      managers := Function.update s.managers m manager } := by
  refine h.request hm hmanager hfds rfl (h.table.changeAt k)
    (h.distinct_changeAt k (fun _ hfds => hfds.remove _)) ?_
  intro i n' hn' j hj
  left
  rcases mem_changeAt h.table hn' with ⟨hn, hkey⟩ | ⟨n, hn, _, rfl, _⟩
  · -- another key
    refine ⟨n', hn, rfl, rfl, ?_⟩
    intro _ hsub
    rw [subscribedTo_unsubscribe, if_neg (fun hk => hkey hk.symm)]
    exact hsub
  · -- what is left belongs to other sessions
    have hzero : session.notifFd ≠ 0 := h.notifFd_ne_zero (m := m) (by rw [hm]; rfl)
    obtain ⟨hother, hslot⟩ := removeSlot_get (h.distinct i n hn) hzero j
    exact ⟨n, hn, rfl, (hslot hj).symm, fun hown _ => absurd hown hother⟩

end Requests

theorem decodeRequest_ne_pipeClosed (request : List Byte) : decodeRequest request ≠ .pipeClosed := by
  unfold decodeRequest
  simp only
  split_ifs <;> simp

/-- **A request** keeps the invariant, whatever it asks for. -/
theorem SubscriptionInv.handles {s : ServerState} (h : SubscriptionInv s) {m : Fin MAX_SESSION_COUNT}
    {session : Session} (hm : s.managers m = .read session) (request : List Byte) {op : SessionOp}
    (hop : op ≠ .pipeClosed) {stack : List Byte} {handled : Handled}
    (hh : handleRequest session s.table stack op = some handled) :
    SubscriptionInv { s with
      table := handled.table
      managers := Function.update s.managers m (replying (session.after request op handled.result)
        (handled.sent.flatMap Prod.snd) handled.ends) } := by
  cases op with
  | disconnect =>
      obtain rfl := Option.some.inj hh
      have hleft : [(session.notifFd, sendMsg (2 :: stack))].flatMap Prod.snd ≠ [] ∨ true = false :=
        Or.inl (by simp [sendMsg, untilNul])
      obtain ⟨hsession, hfds⟩ := replying_session (session.after request .disconnect none) hleft
      exact h.request_sameTable hm (Or.inl rfl) hsession hfds
  | subscribe key =>
      obtain ⟨k, rfl, rfl⟩ := handleRequest_subscribe hh
      obtain ⟨hsession, hfds⟩ :=
        replying_session (session.after request (.subscribe k.str) _) (Or.inr rfl)
      exact h.subscribe hm k request hsession hfds
  | unsubscribe key =>
      obtain ⟨k, rfl, rfl⟩ := handleRequest_unsubscribe hh
      obtain ⟨hsession, hfds⟩ :=
        replying_session (session.after request (.unsubscribe k.str) _) (Or.inr rfl)
      exact h.unsubscribe hm k request hsession hfds
  | unrecognized =>
      obtain rfl := Option.some.inj hh
      obtain ⟨hsession, hfds⟩ :=
        replying_session (session.after request .unrecognized none) (Or.inr rfl)
      exact h.request_sameTable hm (Or.inr rfl) hsession hfds
  | pipeClosed => exact absurd rfl hop

/-! ## Runs -/

/-- The descriptors after `open` are those before and the new one. -/
theorem fds_opened {s : ServerState} {fd : Int} (hfree : FreeFd s fd) {old new : List Int}
    (h : new = old ++ [fd]) : ∀ fd' ∈ new, fd' ∈ old ∨ FreeFd s fd' := by
  intro fd' hfd'
  rw [h, List.mem_append, List.mem_singleton] at hfd'
  exact hfd'.imp_right (fun heq => by rwa [heq])

theorem EndsUnsubscribed.inNoSlot {s : ServerState} {m : Fin MAX_SESSION_COUNT} {result : Result}
    {session : Session} (h : EndsUnsubscribed s (.manager m result))
    (hends : endsSession (s.managers m) result = some session) :
    InNoSlot s.table session.notifFd := by
  simpa [EndsUnsubscribed, hends] using h

/-- **A step of a manager** that ends no session with a descriptor in a slot keeps the invariant. -/
theorem SubscriptionInv.managerStep {s : ServerState} (h : SubscriptionInv s)
    {m : Fin MAX_SESSION_COUNT} {result : Result} {manager : Manager} {ht : HashTable}
    (hallowed : result.Allowed s) (hends : EndsUnsubscribed s (.manager m result))
    (hstep : ManagerStep s.table (s.managers m) result manager ht) :
    SubscriptionInv { s with table := ht, managers := Function.update s.managers m manager } := by
  generalize hm : s.managers m = before at hstep
  cases hstep with
  | takes hpaths =>
      refine h.sameTable (fun fd hfd => absurd hfd List.not_mem_nil) ?_
      intro session hsession
      rw [hm] at hsession
      exact absurd hsession (by simp [Manager.session])
  | opensResp =>
      refine h.sameTable (fds_opened hallowed (by rw [hm]; rfl)) ?_
      intro session hsession
      rw [hm] at hsession
      exact absurd hsession (by simp [Manager.session])
  | opensReq =>
      refine h.sameTable (fds_opened hallowed (by rw [hm]; rfl)) ?_
      intro session hsession
      rw [hm] at hsession
      exact absurd hsession (by simp [Manager.session])
  | opensNotif hne =>
      refine h.sameTable (fds_opened hallowed (by rw [hm, greeting_fds]; rfl))
        ?_
      intro session hsession
      rw [hm] at hsession
      exact absurd hsession (by simp [Manager.session])
  | greets hn =>
      refine h.sameTable ?_ ?_
      · intro fd hfd
        rw [greeting_fds] at hfd
        rw [hm]
        exact Or.inl hfd
      · intro session hsession
        rw [hm] at hsession
        rw [greeting_session]
        exact Or.inl hsession
  | handles hlen hh => exact h.handles hm _ (decodeRequest_ne_pipeClosed _) hh
  | ends =>
      refine h.sameTable (fun fd hfd => absurd hfd List.not_mem_nil) ?_
      intro session hsession
      rw [hm] at hsession
      obtain rfl := Option.some.inj hsession
      exact Or.inr (hends.inNoSlot (by rw [hm]; rfl))
  | @replies session₀ left ends n hn =>
      by_cases hgoes : left.drop n ≠ [] ∨ ends = false
      · obtain ⟨hsession₀, hfds⟩ := replying_session session₀ hgoes
        refine h.sameTable ?_ ?_
        · intro fd hfd
          rw [hfds] at hfd
          rw [hm]
          exact Or.inl hfd
        · intro session hsession
          rw [hm] at hsession
          rw [hsession₀]
          exact Or.inl hsession
      · -- the last byte of the answer to a disconnect
        obtain ⟨hdone, hends'⟩ := not_or.mp hgoes
        rw [not_not] at hdone
        obtain rfl : ends = true := by simpa using hends'
        have hall : n = left.length := le_antisymm hn.2 (List.drop_eq_nil_iff.mp hdone)
        have hwaiting : replying session₀ (left.drop n) true = .waiting := by simp [replying, hdone]
        rw [hwaiting]
        refine h.sameTable (fun fd hfd => absurd hfd List.not_mem_nil) ?_
        intro session hsession
        rw [hm] at hsession
        obtain rfl := Option.some.inj hsession
        exact Or.inr (hends.inNoSlot (by rw [hm]; exact if_pos hall))

theorem subscriptionInv_step (s : ServerState) (e : ServerEvent) (s' : ServerState)
    (he : EndsUnsubscribed s e ∧ NoKeyCreated s e) (h : SubscriptionInv s)
    (hs : stepServer s e = some s') : SubscriptionInv s' := by
  obtain ⟨_, hstep⟩ := stepServer_cases hs
  cases hstep with
  | job =>
      obtain ⟨hslots, htable⟩ := runJob_slotsFrom h.table he.2
      refine ⟨htable, ?_, ?_, h.opened, h.apart⟩
      · intro i n' hn'
        obtain ⟨n, hn, _, hfds⟩ := hslots i n' hn'
        exact hfds ▸ h.distinct i n hn
      · intro i n' hn' j hj
        obtain ⟨n, hn, hkey, hfds⟩ := hslots i n' hn'
        rw [← hkey]
        rw [← hfds] at hj ⊢
        exact h.owned i n hn j hj
  | goesOn hallowed hstep => exact h.managerStep hallowed he.1 hstep
  | exits _ => exact ⟨h.table, h.distinct, h.owned, h.opened, h.apart⟩
  | undefined _ => exact ⟨h.table, h.distinct, h.owned, h.opened, h.apart⟩

theorem subscriptionInv_init {ht : HashTable} (hI : TableInv ht)
    (hfree : ∀ i, ∀ n ∈ ht.table i, ∀ j : Fin MAX_SESSION_COUNT, n.subscriberFds.get j = 0) :
    SubscriptionInv (.init ht) where
  table := hI
  distinct i n hn j _ hj _ := absurd (hfree i n hn j) hj
  owned i n hn j hj := absurd (hfree i n hn j) hj
  opened _ _ hfd := absurd hfd List.not_mem_nil
  apart _ _ _ _ hfd := absurd hfd List.not_mem_nil

/-- **Subscriptions.** From a sound table whose slots are free, over any order of connects, requests,
    disconnects and jobs, with the descriptors reused as the system likes: when no job creates a key and
    every session that ends is in no slot any more, every state reached has sound subscriptions. -/
theorem subscriptions_sound {ht : HashTable} (hI : TableInv ht)
    (hfree : ∀ i, ∀ n ∈ ht.table i, ∀ j : Fin MAX_SESSION_COUNT, n.subscriberFds.get j = 0)
    {events : List ServerEvent} {s : ServerState}
    (hrun : Transition.run stepServer events (.init ht) = some s)
    (hkeys : Transition.StepsMeet stepServer NoKeyCreated events (.init ht))
    (hends : Transition.StepsMeet stepServer EndsUnsubscribed events (.init ht)) :
    SubscriptionsSound s :=
  (Transition.run_invariant_guarded SubscriptionInv subscriptionInv_step
    (Transition.stepsMeet_and hends hkeys) (subscriptionInv_init hI hfree) hrun).sound

/-! ## A client that does not unsubscribe -/

/-- A slot of the registration queue with the paths `p`, `q` and `r`. -/
def slotPqr : List Byte := overwrite (List.replicate 241 0) (ascii "1|p|q|r")

/-- A client connects, on descriptors 4, 5 and 6. -/
def connect456 (m : Fin MAX_SESSION_COUNT) : List ServerEvent :=
  [.manager m (.taken slotPqr), .manager m (.opened 4), .manager m (.opened 5), .manager m (.opened 6),
    .manager m (.wrote 2)]

/-- A request about the key `a`, and its answer. -/
def requestA (m : Fin MAX_SESSION_COUNT) (opCode : Byte) : List ServerEvent :=
  [.manager m (.got [opCode, 97] []), .manager m (.wrote 2)]

/-- The client subscribes and closes its pipe. -/
def subscribeAndLeave : List ServerEvent := connect456 0 ++ requestA 0 3 ++ [.manager 0 .atEnd]

/-- Another client gets the same descriptors and subscribes. -/
def subscribeAfter : List ServerEvent := subscribeAndLeave ++ connect456 1 ++ requestA 1 3

/-- **A stale subscription.** When the first client has left, descriptor 6 is free and in a slot of `a`;
    the second client, which gets it, is refused. -/
theorem subscription_stale :
    (∃ s, Transition.run stepServer subscribeAndLeave (.init tableWithA) = some s ∧
      s.process = .running ∧ ¬ SubscriptionsSound s) ∧
    (Transition.run stepServer subscribeAfter (.init tableWithA)).bind (fun s => (s.managers 1).session.map
      Session.handled) = some [(.subscribe keyA.str, some 1)] := by
  refine ⟨?_, by decide +kernel⟩
  have hstale : (Transition.run stepServer subscribeAndLeave (.init tableWithA)).any
      (fun s => s.process = .running ∧ FreeFd s 6 ∧ ¬ InNoSlot s.table 6) = true := by decide +kernel
  obtain ⟨s, hs, hstale⟩ := (Option.any_eq_true _ _).mp hstale
  obtain ⟨hrunning, hfree, hslot⟩ := of_decide_eq_true hstale
  exact ⟨s, hs, hrunning, fun hsound => hslot (hsound.fresh 6 hfree)⟩

/-- The client unsubscribes before it closes its pipe. -/
def unsubscribeAndLeave : List ServerEvent :=
  connect456 0 ++ requestA 0 3 ++ requestA 0 4 ++ [.manager 0 .atEnd]

theorem unsubscribeAndLeave_run :
    (Transition.run stepServer unsubscribeAndLeave (.init tableWithA)).isSome = true := by
  decide +kernel

theorem subscriptions_sound_unsubscribed :
    ∃ s, Transition.run stepServer unsubscribeAndLeave (.init tableWithA) = some s ∧
      SubscriptionsSound s :=
  ⟨_, (Option.some_get unsubscribeAndLeave_run).symm,
    subscriptions_sound tableInv_tableWithA (by decide +kernel)
      (Option.some_get unsubscribeAndLeave_run).symm (by decide +kernel) (by decide +kernel)⟩

end Kvs.Server
