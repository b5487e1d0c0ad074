import Kvs.Correctness.SubscriberSets

/-!
# `Correctness.NotifyClients` — to whom `notify_clients` sends

`notify_clients` sends a message to each slot of the key's node, the free ones included, which hold the
descriptor 0. So the descriptors it sends to are the subscribers exactly when no slot is free
(`notifyClients_iff`). The slots of a new node are whatever `malloc` returned: `write_pair` never sets
them, so a new key may refuse subscribers and have some that never subscribed (`created_key_iff`).
-/

namespace Kvs.Server

/-! ## The slots as a list -/

theorem toList_eq_ofFn {α : Type} {n : Nat} (v : Vector α n) : v.toList = List.ofFn v.get := by
  apply List.ext_getElem
  · simp
  · intro i hi hi'
    simp [Vector.get_eq_getElem]

theorem mem_toList_iff (fds : Slots) (fd : Int) :
    fd ∈ fds.toList ↔ ∃ i : Fin MAX_SESSION_COUNT, fds.get i = fd := by
  rw [toList_eq_ofFn, List.mem_ofFn]

/-- With no slot free and no descriptor twice, the slots list the members once each. -/
theorem nodup_toList {fds : Slots} (h : SlotSet.Distinct 0 fds.get)
    (hfull : ∀ i : Fin MAX_SESSION_COUNT, fds.get i ≠ 0) : fds.toList.Nodup := by
  rw [toList_eq_ofFn, List.nodup_ofFn]
  intro i j hij
  exact h i j (hfull i) hij

/-! ## A history of subscriptions -/

/-- A call of `add_subscriber` or `remove_subscriber` with a positive descriptor. -/
def TableOp.IsSubscription : TableOp → Prop
  | .write _ _ _ => False
  | .delete _ => False
  | .addSubscriber _ fd => 0 < fd
  | .removeSubscriber _ fd => 0 < fd

instance : (op : TableOp) → Decidable op.IsSubscription
  | .write _ _ _ => isFalse id
  | .delete _ => isFalse id
  | .addSubscriber _ fd => inferInstanceAs (Decidable (0 < fd))
  | .removeSubscriber _ fd => inferInstanceAs (Decidable (0 < fd))

/-- What a call does to the set of subscribers of `key`. -/
def TableOp.onSet (key : CStr) (s : Finset Int) : TableOp → Finset Int
  | .write _ _ _ => s
  | .delete _ => s
  | .addSubscriber j fd => if j = key then (SlotSet.add MAX_SESSION_COUNT fd s).getD s else s
  | .removeSubscriber j fd => if j = key then (SlotSet.remove fd s).getD s else s

/-- The descriptors subscribed to `key` after a history of calls, none being so before. -/
def subscribedAfter (key : CStr) (ops : List TableOp) : Finset Int :=
  ops.foldl (TableOp.onSet key) ∅

/-- What a call that meets the operation of its set does to the subscribers. -/
theorem subscribers_of_meets {ht ht' : HashTable} {key : CStr} {ret : Int}
    {change : Finset Int → Option (Finset Int)}
    (h : match (ht.subscribers key).bind change with
      | some s => ret = 0 ∧ ht'.subscribers key = some s ∧ SamePairs ht ht'
      | none => ret = 1 ∧ ht' = ht) :
    ht'.subscribers key = (ht.subscribers key).map (fun s => (change s).getD s) := by
  cases hs : ht.subscribers key with
  | none =>
      rw [hs] at h
      rw [h.2, hs]
      rfl
  | some s =>
      rw [hs] at h
      cases hchange : change s with
      | none =>
          simp only [Option.bind_some, hchange] at h
          rw [h.2, hs, Option.map_some, hchange]
          rfl
      | some s' =>
          simp only [Option.bind_some, hchange] at h
          rw [h.2.1, Option.map_some, hchange]
          rfl

/-- One call changes the subscribers of a key as it changes the set. -/
theorem subscribers_step {ht ht' : HashTable} (hI : SlotInv ht) {op : TableOp}
    (hop : op.IsSubscription) (hstep : op.step ht = some ht') (key : CStr) :
    SlotInv ht' ∧ ht'.subscribers key = (ht.subscribers key).map (fun s => op.onSet key s) := by
  obtain ⟨⟨ht'', ret'⟩, hexec', rfl⟩ := Option.map_eq_some_iff.mp hstep
  have hkey : HasBucket op.key := (exec_isSome_iff ht op).mp (by rw [hexec']; rfl)
  have hallowed : op.Allowed ht := by
    cases op with
    | write _ _ _ => exact absurd hop id
    | delete _ => exact absurd hop id
    | addSubscriber _ _ => exact hop
    | removeSubscriber _ _ => exact hop
  obtain ⟨ht', ret, hexec, hI', hothers, hmeets⟩ := exec_meets hI hkey hallowed
  obtain ⟨rfl, rfl⟩ := Prod.mk.inj (Option.some.inj (hexec'.symm.trans hexec))
  refine ⟨hI', ?_⟩
  by_cases hk : key = op.key
  · subst hk
    cases op with
    | write _ _ _ => exact absurd hop id
    | delete _ => exact absurd hop id
    | addSubscriber j fd =>
        simp only [TableOp.onSet, TableOp.key, if_pos]
        exact subscribers_of_meets hmeets
    | removeSubscriber j fd =>
        simp only [TableOp.onSet, TableOp.key, if_pos]
        exact subscribers_of_meets hmeets
  · have hsame : ∀ s, op.onSet key s = s := by
      intro s
      cases op with
      | write _ _ _ => rfl
      | delete _ => rfl
      | addSubscriber j fd => exact if_neg (fun hj => hk hj.symm)
      | removeSubscriber j fd => exact if_neg (fun hj => hk hj.symm)
    simp only [hsame, Option.map_id']
    exact hothers key hk

theorem subscribers_run {ht ht' : HashTable} (hI : SlotInv ht) {ops : List TableOp}
    (hops : ∀ op ∈ ops, op.IsSubscription)
    (hrun : Transition.run TableOp.step ops ht = some ht') (key : CStr) :
    SlotInv ht' ∧
      ht'.subscribers key = (ht.subscribers key).map (fun s => ops.foldl (TableOp.onSet key) s) := by
  induction ops generalizing ht with
  | nil =>
      obtain rfl := Option.some.inj hrun
      exact ⟨hI, Option.map_id'.symm⟩
  | cons op ops ih =>
      obtain ⟨hop, hrest⟩ := List.forall_mem_cons.mp hops
      obtain ⟨u, hu, hrun⟩ := Transition.run_cons_eq_some.mp hrun
      obtain ⟨hIu, hset⟩ := subscribers_step hI hop hu key
      obtain ⟨hI', hset'⟩ := ih hIu hrest hrun
      refine ⟨hI', ?_⟩
      rw [hset', hset, Option.map_map]
      rfl

/-- A key whose slots are free has no subscribers. -/
theorem subscribers_zero {ht : HashTable} {key : CStr} {s : Finset Int}
    (hzero : ∀ i, ∀ n ∈ ht.table i, ∀ j : Fin MAX_SESSION_COUNT, n.subscriberFds.get j = 0)
    (hs : ht.subscribers key = some s) : s = ∅ := by
  obtain ⟨n, hn, rfl⟩ := Option.map_eq_some_iff.mp hs
  obtain ⟨i, hmem⟩ := node_mem hn
  refine Finset.eq_empty_of_forall_notMem ?_
  intro fd hfd
  obtain ⟨hne, j, rfl⟩ := SlotSet.mem_members.mp hfd
  exact hne (hzero i n hmem j)

/-! ## The recipients -/

/-- `notify_clients` on a key that is there sends one message to each of these descriptors, to no other,
    and returns 0; on a key that is not there it sends nothing and returns 1. -/
def NotifiesExactly (ht : HashTable) (key : CStr) (fds : Finset Int) : Prop :=
  match ht.node key with
  | some _ => ∃ sent, notifyClients ht key = some (sent, 0) ∧ (sent.map Prod.fst).Nodup ∧
      ∀ fd, fd ∈ sent.map Prod.fst ↔ fd ∈ fds
  | none => notifyClients ht key = some ([], 1)

/-- The descriptors that get a message are those in the slots, the free ones too. -/
theorem notifyClients_of_node {ht : HashTable} {key : CStr} {n : KeyNode} (h : ht.node key = some n) :
    ∃ sent, notifyClients ht key = some (sent, 0) ∧ sent.map Prod.fst = n.subscriberFds.toList := by
  obtain ⟨i, hi, hn⟩ := Option.bind_eq_some_iff.mp h
  unfold notifyClients
  rw [hi]
  simp only [Option.bind_eq_bind, Option.bind_some, hn]
  refine ⟨_, rfl, ?_⟩
  rw [List.map_map]
  exact List.map_id _

theorem notifyClients_isSome_iff (ht : HashTable) (key : CStr) :
    (notifyClients ht key).isSome = true ↔ HasBucket key := by
  refine isSome_subscript_bind (fun i => ?_)
  split <;> rfl

theorem notifyClients_of_absent {ht : HashTable} {key : CStr} (hkey : HasBucket key)
    (h : ht.node key = none) : notifyClients ht key = some ([], 1) := by
  obtain ⟨k, rfl⟩ := hkey.exists_key
  rw [node_key] at h
  unfold notifyClients
  simp only [subscript_hash, Option.bind_eq_bind, Option.bind_some, h]
  rfl

/-- One node: its slots list its subscribers once each exactly when none is free. -/
theorem toList_exact_iff {fds : Slots} (h : SlotSet.Distinct 0 fds.get) :
    (fds.toList.Nodup ∧ ∀ fd, fd ∈ fds.toList ↔ fd ∈ SlotSet.members 0 fds.get) ↔
      (SlotSet.members 0 fds.get).card = MAX_SESSION_COUNT := by
  have hfull := SlotSet.forall_ne_free_iff h
  rw [Fintype.card_fin] at hfull
  rw [← hfull]
  constructor
  · rintro ⟨-, hmem⟩ i hzero
    have hfree := (hmem 0).mp ((mem_toList_iff fds 0).mpr ⟨i, hzero⟩)
    exact (SlotSet.mem_members.mp hfree).1 rfl
  · intro hall
    refine ⟨nodup_toList h hall, ?_⟩
    intro fd
    rw [mem_toList_iff, SlotSet.mem_members]
    constructor
    · rintro ⟨i, rfl⟩
      exact ⟨hall i, i, rfl⟩
    · exact And.right

/-- **The recipients of a notification.** After a history of subscriptions on a table whose slots were
    all free, `notify_clients` reaches exactly the subscribers of the key, and nobody when the key is not
    there, exactly when the key has a bucket and is not there or has as many subscribers as slots. -/
theorem notifyClients_iff {ht ht' : HashTable} (hI : TableInv ht)
    (hzero : ∀ i, ∀ n ∈ ht.table i, ∀ j : Fin MAX_SESSION_COUNT, n.subscriberFds.get j = 0)
    {ops : List TableOp} (hops : ∀ op ∈ ops, op.IsSubscription)
    (hrun : Transition.run TableOp.step ops ht = some ht') (key : CStr) :
    NotifiesExactly ht' key (subscribedAfter key ops) ↔
      HasBucket key ∧
        (ht'.node key = none ∨ (subscribedAfter key ops).card = MAX_SESSION_COUNT) := by
  obtain ⟨hI', hset⟩ := subscribers_run (.of_zero hI hzero) hops hrun key
  unfold NotifiesExactly
  cases hn : ht'.node key with
  | none =>
      show notifyClients ht' key = some ([], 1) ↔ _
      constructor
      · intro hsent
        exact ⟨(notifyClients_isSome_iff ht' key).mp (by rw [hsent]; rfl), Or.inl rfl⟩
      · rintro ⟨hkey, -⟩
        exact notifyClients_of_absent hkey hn
  | some n =>
      obtain ⟨i, hmem⟩ := node_mem hn
      have hkey : HasBucket key := by
        obtain ⟨j, hj, -⟩ := Option.bind_eq_some_iff.mp hn
        exact (subscript_hash_isSome_iff key).mp (by rw [hj]; rfl)
      -- the node holds what the history says
      have hsubs : n.subscribers = subscribedAfter key ops := by
        have hnow : ht'.subscribers key = some n.subscribers := by
          rw [HashTable.subscribers, hn]
          rfl
        obtain ⟨s, hs, hfold⟩ := Option.map_eq_some_iff.mp (hset.symm.trans hnow)
        rw [subscribers_zero hzero hs] at hfold
        exact hfold.symm
      obtain ⟨sent, hsent, hfds⟩ := notifyClients_of_node hn
      have hexact := toList_exact_iff (hI'.distinct i n hmem)
      rw [show SlotSet.members 0 n.subscriberFds.get = subscribedAfter key ops from hsubs] at hexact
      rw [← hexact, and_iff_right hkey]
      constructor
      · rintro ⟨sent', hsent', hnodup, hall⟩
        obtain ⟨rfl, -⟩ := Prod.mk.inj (Option.some.inj (hsent.symm.trans hsent'))
        rw [hfds] at hnodup hall
        exact Or.inr ⟨hnodup, hall⟩
      · rintro (habsent | ⟨hnodup, hall⟩)
        · exact absurd habsent (by simp)
        · rw [← hfds] at hnodup hall
          exact ⟨sent, hsent, hnodup, hall⟩

/-- Three subscribers to the only key, a fourth who is refused, one who leaves and is replaced. -/
def fullA : List TableOp :=
  [.addSubscriber keyA.str 5, .addSubscriber keyA.str 6, .addSubscriber keyA.str 7,
    .addSubscriber keyA.str 8, .removeSubscriber keyA.str 6, .addSubscriber keyA.str 8]

theorem fullA_run : (Transition.run TableOp.step fullA tableWithA).isSome = true := by
  decide +kernel

theorem notifyClients_fullA :
    ∃ ht, Transition.run TableOp.step fullA tableWithA = some ht ∧
      NotifiesExactly ht keyA.str (subscribedAfter keyA.str fullA) :=
  ⟨_, (Option.some_get fullA_run).symm,
    (notifyClients_iff tableInv_tableWithA (by decide +kernel) (by decide +kernel)
      (Option.some_get fullA_run).symm keyA.str).mpr ⟨by decide, Or.inr (by decide +kernel)⟩⟩

/-- **A message to a free slot.** With one subscriber, `notify_clients` sends to the descriptor 0 twice. -/
theorem notifyClients_free_slots :
    (Transition.run TableOp.step [.addSubscriber keyA.str 5] tableWithA).bind (fun ht =>
        (notifyClients ht keyA.str).map (fun r => r.1.map Prod.fst)) = some [5, 0, 0] ∧
      subscribedAfter keyA.str [.addSubscriber keyA.str 5] = {5} := by
  decide +kernel

/-! ## New keys -/

/-- `add_subscriber` accepts these descriptors one after the other. -/
def AddsAccepted (key : CStr) : List Int → HashTable → Prop
  | [], _ => True
  | fd :: fds, ht => ∃ ht', addSubscriber ht key fd = some (ht', 0) ∧ AddsAccepted key fds ht'

/-- Any first subscriber is accepted, and so are up to `MAX_SESSION_COUNT` distinct ones. -/
def AcceptsSubscribers (ht : HashTable) (key : CStr) : Prop :=
  (∀ fd, 0 < fd → ∃ ht', addSubscriber ht key fd = some (ht', 0)) ∧
    ∀ fds : List Int, fds.Nodup → (∀ fd ∈ fds, 0 < fd) → fds.length ≤ MAX_SESSION_COUNT →
      AddsAccepted key fds ht

/-- From this table on, `notify_clients` sends to descriptors only that subscribed to the key. -/
def NotifiesSubscribed (ht : HashTable) (key : CStr) : Prop :=
  ∀ ops ht' sent ret, Transition.run TableOp.step ops ht = some ht' →
    notifyClients ht' key = some (sent, ret) →
      ∀ message ∈ sent, TableOp.addSubscriber key message.1 ∈ ops

/-- The calls of `add_subscriber` on the slots of one node. -/
def SlotsAccept : List Int → Slots → Prop
  | [], _ => True
  | fd :: fds, slots => (addSlot fd slots).2 = 0 ∧ SlotsAccept fds (addSlot fd slots).1

theorem addSubscriber_accepts_iff {ht : HashTable} {k : Key} {n : KeyNode} (hn : ht.node k.str = some n)
    (fd : Int) : (∃ ht', addSubscriber ht k.str fd = some (ht', 0)) ↔ (addSlot fd n.subscriberFds).2 = 0 := by
  have hret := changeAt_ret_eq ht k (addSlot fd)
  rw [hn] at hret
  rw [addSubscriber_key]
  constructor
  · rintro ⟨ht', h⟩
    exact hret.symm.trans (congrArg Prod.snd (Option.some.inj h))
  · intro h
    exact ⟨_, congrArg some (Prod.ext rfl (hret.trans h))⟩

theorem addsAccepted_iff {ht : HashTable} {k : Key} {n : KeyNode} (hn : ht.node k.str = some n)
    (fds : List Int) : AddsAccepted k.str fds ht ↔ SlotsAccept fds n.subscriberFds := by
  induction fds generalizing ht n with
  | nil => exact Iff.rfl
  | cons fd fds ih =>
      have hself := node_changeAt_self ht k (addSlot fd)
      rw [hn] at hself
      have hret := changeAt_ret_eq ht k (addSlot fd)
      rw [hn] at hret
      unfold AddsAccepted SlotsAccept
      rw [addSubscriber_key]
      constructor
      · rintro ⟨ht', hadd, hrest⟩
        obtain ⟨rfl, hzero⟩ := Prod.mk.inj (Option.some.inj hadd)
        exact ⟨hret.symm.trans hzero, (ih hself).mp hrest⟩
      · rintro ⟨hzero, hrest⟩
        exact ⟨_, congrArg some (Prod.ext rfl (hret.trans hzero)), (ih hself).mpr hrest⟩

/-- Each descriptor accepted takes a free slot. -/
theorem slotsAccept_length_le {fds : List Int} (hfds : ∀ fd ∈ fds, fd ≠ 0) {slots : Slots}
    (h : SlotsAccept fds slots) :
    fds.length ≤ (Finset.univ.filter (fun i : Fin MAX_SESSION_COUNT => slots.get i = 0)).card := by
  induction fds generalizing slots with
  | nil => exact Nat.zero_le _
  | cons fd fds ih =>
      obtain ⟨hfd, hrest⟩ := List.forall_mem_cons.mp hfds
      obtain ⟨hzero, haccept⟩ := h
      rcases addSlot_cases fd slots with ⟨-, hadd⟩ | ⟨-, i, hi, hadd⟩ | ⟨-, -, hadd⟩
      · rw [hadd] at hzero
        exact absurd hzero (by simp)
      · have hlen := ih hrest haccept
        rw [hadd, get_setSlot_eq] at hlen
        rw [← SlotSet.card_vacant_fill hi hfd]
        exact Nat.succ_le_succ hlen
      · rw [hadd] at hzero
        exact absurd hzero (by simp)

/-- As long as there is room, descriptors that are not there are accepted. -/
theorem slotsAccept_of_room {fds : List Int} (hnodup : fds.Nodup) (hfds : ∀ fd ∈ fds, fd ≠ 0)
    {slots : Slots} (hd : SlotSet.Distinct 0 slots.get)
    (hnew : ∀ fd ∈ fds, fd ∉ SlotSet.members 0 slots.get)
    (hroom : (SlotSet.members 0 slots.get).card + fds.length ≤ MAX_SESSION_COUNT) :
    SlotsAccept fds slots := by
  induction fds generalizing slots with
  | nil => trivial
  | cons fd fds ih =>
      obtain ⟨hfd, hrest⟩ := List.forall_mem_cons.mp hfds
      obtain ⟨hthere, hnew⟩ := List.forall_mem_cons.mp hnew
      obtain ⟨hnot, hnodup⟩ := List.nodup_cons.mp hnodup
      rw [List.length_cons] at hroom
      have hadd := addSlot_add hd hfd
      rw [SlotSet.add, if_pos ⟨hthere, by omega⟩] at hadd
      refine ⟨hadd.1, ih hnodup hrest (SlotsDistinct.add hd fd) ?_ ?_⟩
      · intro fd' hfd'
        rw [hadd.2, Finset.mem_insert, not_or]
        exact ⟨ne_of_mem_of_not_mem hfd' hnot, hnew fd' hfd'⟩
      · rw [hadd.2, Finset.card_insert_of_notMem hthere]
        omega

/-- The node of a key that has just been created. -/
theorem node_created {ht ht' : HashTable} {key value : CStr} {mem : Garbage} {ret : Int}
    (hnew : ht.node key = none) (hwrite : writePair ht key value mem = some (ht', ret)) :
    ht'.node key = some ⟨key, value, mem⟩ := by
  have hkey : HasBucket key := (writePair_isSome_iff ht key value mem).mp (by rw [hwrite]; rfl)
  obtain ⟨k, rfl⟩ := hkey.exists_key
  rw [writePair_key] at hwrite
  obtain ⟨rfl, -⟩ := Prod.mk.inj (Option.some.inj hwrite)
  rw [node_key] at hnew
  rw [node_key, HashTable.set_self, writeBucket, hnew]
  simp [searchNode]

/-- Slots that are all free accept as many descriptors as there are. -/
theorem slotsAccept_of_free {mem : Slots} (hzero : ∀ i : Fin MAX_SESSION_COUNT, mem.get i = 0)
    {fds : List Int} (hnodup : fds.Nodup) (hpos : ∀ fd ∈ fds, 0 < fd)
    (hlen : fds.length ≤ MAX_SESSION_COUNT) : SlotsAccept fds mem := by
  have hempty : SlotSet.members 0 mem.get = ∅ := SlotSet.members_eq_empty hzero
  have hd : SlotSet.Distinct 0 mem.get := fun i _ hi => absurd (hzero i) hi
  refine slotsAccept_of_room hnodup (fun fd hfd => ne_of_gt (hpos fd hfd)) hd ?_ ?_
  · rw [hempty]
    exact fun fd _ => Finset.notMem_empty fd
  · rw [hempty, Finset.card_empty]
    omega

/-- Slots that accept as many as there are were all free. -/
theorem free_of_slotsAccept {mem : Slots} {fds : List Int} (hpos : ∀ fd ∈ fds, fd ≠ 0)
    (hlen : MAX_SESSION_COUNT ≤ fds.length) (h : SlotsAccept fds mem) (i : Fin MAX_SESSION_COUNT) :
    mem.get i = 0 := by
  have hvacant := hlen.trans (slotsAccept_length_le hpos h)
  have hall := Finset.eq_univ_of_card _
    (Nat.le_antisymm (Finset.card_le_univ _) (by rw [Fintype.card_fin]; exact hvacant))
  have hi := Finset.mem_univ i
  rw [← hall] at hi
  exact (Finset.mem_filter.mp hi).2

/-- **A new key.** `notify_clients` sends to descriptors that never subscribed to it, whatever memory its
    node was allocated in; and it accepts subscribers as an empty one should exactly when that memory
    holds zeros. -/
theorem created_key_iff {ht ht' : HashTable} {key value : CStr} {mem : Garbage} {ret : Int}
    (hnew : ht.node key = none) (hwrite : writePair ht key value mem = some (ht', ret)) :
    ¬ NotifiesSubscribed ht' key ∧
      (AcceptsSubscribers ht' key ↔ ∀ i : Fin MAX_SESSION_COUNT, mem.get i = 0) := by
  have hnode := node_created hnew hwrite
  have hkey : HasBucket key := (writePair_isSome_iff ht key value mem).mp (by rw [hwrite]; rfl)
  obtain ⟨k, rfl⟩ := hkey.exists_key
  refine ⟨?_, ?_, ?_⟩
  · intro hnotifies
    obtain ⟨sent, hsent, hfds⟩ := notifyClients_of_node hnode
    have hmem : mem.get 0 ∈ sent.map Prod.fst := by
      rw [hfds, mem_toList_iff]
      exact ⟨0, rfl⟩
    obtain ⟨message, hmessage, -⟩ := List.mem_map.mp hmem
    -- nobody has subscribed yet
    exact absurd (hnotifies [] ht' sent 0 rfl hsent message hmessage) List.not_mem_nil
  · rintro ⟨-, haccepts⟩ i
    have hthree := (addsAccepted_iff hnode _).mp
      (haccepts [1, 2, 3] (by decide) (by decide) (Nat.le_refl _))
    exact free_of_slotsAccept (by decide) (Nat.le_refl _) hthree i
  · intro hzero
    constructor
    · intro fd hfd
      rw [addSubscriber_accepts_iff hnode]
      exact (slotsAccept_of_free hzero (List.nodup_singleton fd) (by simpa using hfd) (by simp)).1
    · intro fds hnodup hpos hlen
      exact (addsAccepted_iff hnode fds).mpr (slotsAccept_of_free hzero hnodup hpos hlen)

theorem created_key_zero :
    ∃ ht, writePair createHashTable keyA.str keyA.str (zeroMem 0) = some (ht, 0) ∧
      ¬ NotifiesSubscribed ht keyA.str ∧ AcceptsSubscribers ht keyA.str :=
  ⟨_, writePair_key createHashTable keyA keyA.str (zeroMem 0),
    (created_key_iff rfl (writePair_key createHashTable keyA keyA.str (zeroMem 0))).1,
    (created_key_iff rfl (writePair_key createHashTable keyA keyA.str (zeroMem 0))).2.mpr
      (by decide)⟩

/-- The memory of a node that was freed while 7 was subscribed to its key. -/
def recycledMem : Garbage := setSlot (zeroMem 0) 0 7

/-- The key `a` is deleted while 7 is subscribed, and created again in the memory of its old node. -/
def recreateA : List TableOp :=
  [.addSubscriber keyA.str 7, .delete keyA.str, .write keyA.str keyA.str recycledMem]

/-- **Recycled memory.** The new key refuses its first subscriber and notifies it nevertheless. -/
theorem created_key_recycled :
    (Transition.run TableOp.step recreateA tableWithA).bind (fun ht =>
        (addSubscriber ht keyA.str 7).map Prod.snd) = some 1 ∧
      (Transition.run TableOp.step recreateA tableWithA).bind (fun ht =>
        (notifyClients ht keyA.str).map (fun r => r.1.map Prod.fst)) = some [7, 0, 0] := by
  decide +kernel

end Kvs.Server
