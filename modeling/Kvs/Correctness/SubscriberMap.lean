import Kvs.Correctness.TableMap
import Kvs.Lib.SlotSet
import Kvs.Server.Manager
import Kvs.Server.Sequential

/-!
# `Correctness.SubscriberMap` — the slots of the nodes, operation by operation

What each operation does to the subscribers of the keys: `add_subscriber` and `remove_subscriber` change
one slot of one node (`addSlot_cases`, `removeSlot_cases`, `mem_changeAt`) and no value (`toMap_changeAt`); a
job that creates no key leaves the slots of the nodes that are left as they were (`runJob_slotsFrom`).
All of them keep `TableInv`.
-/

namespace Kvs.Server

/-! ## The slots of one node -/

theorem slotOf_eq_none_iff {fds : Slots} {fd : Int} :
    slotOf fds fd = none ↔ ∀ i : Fin MAX_SESSION_COUNT, fds.get i ≠ fd := by
  simp [slotOf]

theorem slotOf_eq_some {fds : Slots} {fd : Int} {i : Fin MAX_SESSION_COUNT}
    (h : slotOf fds fd = some i) : fds.get i = fd := by
  simpa using List.find?_some h

theorem get_setSlot (fds : Slots) (i j : Fin MAX_SESSION_COUNT) (fd : Int) :
    (setSlot fds i fd).get j = if i = j then fd else fds.get j := by
  simp [setSlot, Vector.get_eq_getElem, Vector.getElem_set, Fin.ext_iff]

theorem get_setSlot_eq (fds : Slots) (i : Fin MAX_SESSION_COUNT) (fd : Int) :
    (setSlot fds i fd).get = Function.update fds.get i fd := by
  funext j
  rw [get_setSlot, Function.update_apply]
  exact if_congr eq_comm rfl rfl

/-- No descriptor is in two slots. -/
def SlotsDistinct (fds : Slots) : Prop :=
  ∀ i j : Fin MAX_SESSION_COUNT, fds.get i ≠ 0 → fds.get i = fds.get j → i = j

theorem addSlot_cases (fd : Int) (fds : Slots) :
    ((∃ i : Fin MAX_SESSION_COUNT, fds.get i = fd) ∧ addSlot fd fds = (fds, 1)) ∨
      ((∀ i : Fin MAX_SESSION_COUNT, fds.get i ≠ fd) ∧ ∃ i : Fin MAX_SESSION_COUNT, fds.get i = 0 ∧
        addSlot fd fds = (setSlot fds i fd, 0)) ∨
      ((∀ i : Fin MAX_SESSION_COUNT, fds.get i ≠ fd) ∧ (∀ i : Fin MAX_SESSION_COUNT, fds.get i ≠ 0) ∧
        addSlot fd fds = (fds, 1)) := by
  unfold addSlot
  cases hfd : slotOf fds fd with
  | some i => exact Or.inl ⟨⟨i, slotOf_eq_some hfd⟩, rfl⟩
  | none =>
      have hnew := slotOf_eq_none_iff.mp hfd
      cases hfree : slotOf fds 0 with
      | some i => exact Or.inr (Or.inl ⟨hnew, i, slotOf_eq_some hfree, rfl⟩)
      | none => exact Or.inr (Or.inr ⟨hnew, slotOf_eq_none_iff.mp hfree, rfl⟩)

theorem removeSlot_cases (fd : Int) (fds : Slots) :
    (∃ i : Fin MAX_SESSION_COUNT, fds.get i = fd ∧ removeSlot fd fds = (setSlot fds i 0, 0)) ∨
      ((∀ i : Fin MAX_SESSION_COUNT, fds.get i ≠ fd) ∧ removeSlot fd fds = (fds, 1)) := by
  unfold removeSlot
  cases hfd : slotOf fds fd with
  | some i => exact Or.inl ⟨i, slotOf_eq_some hfd, rfl⟩
  | none => exact Or.inr ⟨slotOf_eq_none_iff.mp hfd, rfl⟩

/-- What is in a slot after `add_subscriber` was there before, or is the descriptor, accepted. -/
theorem addSlot_get (fd : Int) (fds : Slots) (j : Fin MAX_SESSION_COUNT) :
    (addSlot fd fds).1.get j = fds.get j ∨ ((addSlot fd fds).1.get j = fd ∧ (addSlot fd fds).2 = 0) := by
  rcases addSlot_cases fd fds with ⟨_, h⟩ | ⟨_, i, _, h⟩ | ⟨_, _, h⟩
  · rw [h]
    exact Or.inl rfl
  · rw [h, get_setSlot]
    by_cases hij : i = j
    · rw [if_pos hij]
      exact Or.inr ⟨rfl, rfl⟩
    · rw [if_neg hij]
      exact Or.inl rfl
  · rw [h]
    exact Or.inl rfl

theorem SlotsDistinct.add {fds : Slots} (h : SlotsDistinct fds) (fd : Int) :
    SlotsDistinct (addSlot fd fds).1 := by
  rcases addSlot_cases fd fds with ⟨_, hadd⟩ | ⟨hnew, i, _, hadd⟩ | ⟨_, _, hadd⟩
  · rwa [hadd]
  · rw [hadd]
    show SlotSet.Distinct 0 (setSlot fds i fd).get
    rw [get_setSlot_eq]
    exact SlotSet.Distinct.fill h hnew i
  · rwa [hadd]

/-- After `remove_subscriber` the descriptor is in no slot, and the others are where they were. -/
theorem removeSlot_get {fds : Slots} (h : SlotsDistinct fds) {fd : Int} (hfd : fd ≠ 0)
    (j : Fin MAX_SESSION_COUNT) :
    (removeSlot fd fds).1.get j ≠ fd ∧ ((removeSlot fd fds).1.get j ≠ 0 → (removeSlot fd fds).1.get j = fds.get j) := by
  rcases removeSlot_cases fd fds with ⟨i, hi, hremove⟩ | ⟨hnone, hremove⟩
  · rw [hremove, get_setSlot]
    by_cases hij : i = j
    · rw [if_pos hij]
      exact ⟨hfd.symm, fun h0 => absurd rfl h0⟩
    · rw [if_neg hij]
      refine ⟨fun hj => hij (h i j (hi ▸ hfd) (hi.trans hj.symm)), fun _ => rfl⟩
  · rw [hremove]
    exact ⟨hnone j, fun _ => rfl⟩

theorem SlotsDistinct.remove {fds : Slots} (h : SlotsDistinct fds) (fd : Int) :
    SlotsDistinct (removeSlot fd fds).1 := by
  rcases removeSlot_cases fd fds with ⟨i, _, hremove⟩ | ⟨_, hremove⟩
  · rw [hremove]
    show SlotSet.Distinct 0 (setSlot fds i 0).get
    rw [get_setSlot_eq]
    exact SlotSet.Distinct.clear h i
  · rwa [hremove]

/-! ## One bucket -/

theorem searchNode_some {key : CStr} {bucket : List KeyNode} {n : KeyNode}
    (h : searchNode key bucket = some n) : n ∈ bucket ∧ n.key = key := by
  rw [searchNode_eq] at h
  exact Assoc.find_some h

/-- A node with its slots changed. -/
def KeyNode.withSlots (keyNode : KeyNode) (fds : Slots) : KeyNode := { keyNode with subscriberFds := fds }

/-- A node with its slots changed by `change`. -/
def KeyNode.changed (change : Slots → Slots × Int) (keyNode : KeyNode) : KeyNode :=
  keyNode.withSlots (change keyNode.subscriberFds).1

theorem KeyNode.key_changed (change : Slots → Slots × Int) (keyNode : KeyNode) :
    (keyNode.changed change).key = keyNode.key := rfl

/-- The loop of `add_subscriber` and `remove_subscriber` changes the node it finds where it stands. -/
theorem changeSlots_eq (change : Slots → Slots × Int) (key : CStr) (bucket : List KeyNode) :
    changeSlots change key bucket
      = (Assoc.overwrite KeyNode.key key (KeyNode.changed change) bucket,
          ((Assoc.find KeyNode.key key bucket).map (fun n => (change n.subscriberFds).2)).getD 1) := by
  induction bucket with
  | nil => rfl
  | cons n l ih =>
      simp only [changeSlots, Assoc.overwrite, Assoc.find, strcmp_eq_zero, ih]
      split <;> rfl

theorem map_key_changeSlots (change : Slots → Slots × Int) (key : CStr) (bucket : List KeyNode) :
    (changeSlots change key bucket).1.map KeyNode.key = bucket.map KeyNode.key := by
  rw [changeSlots_eq]
  exact Assoc.map_key_overwrite (KeyNode.key_changed change) bucket

theorem searchNode_changeSlots (change : Slots → Slots × Int) (j key : CStr) (bucket : List KeyNode) :
    (searchNode j (changeSlots change key bucket).1).map KeyNode.value
      = (searchNode j bucket).map KeyNode.value := by
  rw [changeSlots_eq, searchNode_eq, searchNode_eq]
  by_cases hj : j = key
  · rw [hj, Assoc.find_overwrite_self (KeyNode.key_changed change), Option.map_map]
    rfl
  · rw [Assoc.find_overwrite_ne hj (KeyNode.key_changed change)]

/-- With no key twice, the node with the key is changed and the others stay. -/
theorem mem_changeSlots {change : Slots → Slots × Int} {key : CStr} {bucket : List KeyNode}
    (hnd : (bucket.map KeyNode.key).Nodup) {n' : KeyNode}
    (h : n' ∈ (changeSlots change key bucket).1) :
    (n' ∈ bucket ∧ n'.key ≠ key) ∨ ∃ n ∈ bucket, n.key = key ∧
      n' = n.withSlots (change n.subscriberFds).1 ∧
      (changeSlots change key bucket).2 = (change n.subscriberFds).2 := by
  rw [changeSlots_eq] at h ⊢
  rcases Assoc.mem_overwrite_of_nodup hnd h with hold | ⟨n, hfind, rfl⟩
  · exact Or.inl hold
  · obtain ⟨hn, hkey⟩ := Assoc.find_some hfind
    refine Or.inr ⟨n, hn, hkey, rfl, ?_⟩
    rw [hfind]
    rfl

/-- The node with the key decides the result. -/
theorem changeSlots_ret {change : Slots → Slots × Int} {bucket : List KeyNode}
    (hnd : (bucket.map KeyNode.key).Nodup) {n : KeyNode} (hn : n ∈ bucket) :
    (changeSlots change n.key bucket).2 = (change n.subscriberFds).2 := by
  rw [changeSlots_eq, Assoc.find_of_mem hnd hn]
  rfl

/-! ## The table -/

/-- The slots of a key changed, as `kvs_subscribe` and `kvs_unsubscribe` do. -/
def HashTable.changeAt (ht : HashTable) (k : Key) (change : Slots → Slots × Int) : HashTable × Int :=
  (ht.set k.bucket (changeSlots change k.str (ht.table k.bucket)).1,
    (changeSlots change k.str (ht.table k.bucket)).2)

theorem addSubscriber_key (ht : HashTable) (k : Key) (fd : Int) :
    addSubscriber ht k.str fd = some (ht.changeAt k (addSlot fd)) := by
  unfold addSubscriber
  rw [subscript_hash]
  rfl

theorem removeSubscriber_key (ht : HashTable) (k : Key) (fd : Int) :
    removeSubscriber ht k.str fd = some (ht.changeAt k (removeSlot fd)) := by
  unfold removeSubscriber
  rw [subscript_hash]
  rfl

theorem kvsSubscribe_key (ht : HashTable) (k : Key) (fd : Int) :
    kvsSubscribe ht k.str fd = some (ht.changeAt k (addSlot fd)) := by
  unfold kvsSubscribe
  rw [subscript_hash]
  exact addSubscriber_key ht k fd

theorem kvsUnsubscribe_key (ht : HashTable) (k : Key) (fd : Int) :
    kvsUnsubscribe ht k.str fd = some (ht.changeAt k (removeSlot fd)) := by
  unfold kvsUnsubscribe
  rw [subscript_hash]
  exact removeSubscriber_key ht k fd

variable {change : Slots → Slots × Int}

theorem TableInv.changeAt {ht : HashTable} (hI : TableInv ht) (k : Key) :
    TableInv (ht.changeAt k change).1 := by
  have hkeys := map_key_changeSlots change k.str (ht.table k.bucket)
  refine hI.set (hkeys ▸ hI.nodup _) ?_
  intro n hn
  have hmem := List.mem_map_of_mem (f := KeyNode.key) hn
  rw [hkeys] at hmem
  obtain ⟨m, hm, hkey⟩ := List.mem_map.mp hmem
  rw [← hkey]
  exact hI.placed _ m hm

/-- Subscribing changes no value. -/
theorem toMap_changeAt (ht : HashTable) (k : Key) : (ht.changeAt k change).1.toMap = ht.toMap := by
  funext j
  rw [HashTable.toMap, HashTable.toMap, HashTable.changeAt]
  by_cases hb : j.bucket = k.bucket
  · rw [hb, HashTable.set_self, searchNode_changeSlots]
  · rw [HashTable.set_ne _ hb]

/-- Of all the nodes, the one with the key is changed. -/
theorem mem_changeAt {ht : HashTable} (hI : TableInv ht) {k : Key} {i : Fin TABLE_SIZE} {n' : KeyNode}
    (h : n' ∈ (ht.changeAt k change).1.table i) :
    (n' ∈ ht.table i ∧ n'.key ≠ k.str) ∨ ∃ n ∈ ht.table i, n.key = k.str ∧
      n' = n.withSlots (change n.subscriberFds).1 ∧ (ht.changeAt k change).2 = (change n.subscriberFds).2 := by
  by_cases hi : i = k.bucket
  · subst hi
    rw [HashTable.changeAt, HashTable.set_self] at h
    exact mem_changeSlots (hI.nodup _) h
  · rw [HashTable.changeAt, HashTable.set_ne _ hi] at h
    -- a node with the key would be in the key's own bucket
    refine Or.inl ⟨h, fun hkey => hi ?_⟩
    have hplaced := hI.placed i n' h
    rw [hkey, subscript_hash] at hplaced
    exact (Option.some.inj hplaced).symm

theorem changeAt_ret {ht : HashTable} (hI : TableInv ht) {k : Key} {i : Fin TABLE_SIZE} {n : KeyNode}
    (hn : n ∈ ht.table i) (hkey : n.key = k.str) :
    (ht.changeAt k change).2 = (change n.subscriberFds).2 := by
  have hplaced := hI.placed i n hn
  rw [hkey, subscript_hash] at hplaced
  obtain rfl := Option.some.inj hplaced
  rw [HashTable.changeAt, ← hkey]
  exact changeSlots_ret (hI.nodup _) hn

/-! ## Jobs -/

/-- The nodes are nodes of the other table, with other values perhaps. -/
def SlotsFrom (ht' ht : HashTable) : Prop :=
  ∀ i, ∀ n' ∈ ht'.table i, ∃ n ∈ ht.table i, n.key = n'.key ∧ n.subscriberFds = n'.subscriberFds

theorem SlotsFrom.refl (ht : HashTable) : SlotsFrom ht ht := fun _ n hn => ⟨n, hn, rfl, rfl⟩

theorem SlotsFrom.trans {ht₁ ht₂ ht₃ : HashTable} (h₁ : SlotsFrom ht₁ ht₂) (h₂ : SlotsFrom ht₂ ht₃) :
    SlotsFrom ht₁ ht₃ := by
  intro i n₁ hn₁
  obtain ⟨n₂, hn₂, hkey₂, hfds₂⟩ := h₁ i n₁ hn₁
  obtain ⟨n₃, hn₃, hkey₃, hfds₃⟩ := h₂ i n₂ hn₂
  exact ⟨n₃, hn₃, hkey₃.trans hkey₂, hfds₃.trans hfds₂⟩

theorem SlotsFrom.set {ht : HashTable} {j : Fin TABLE_SIZE} {bucket : List KeyNode}
    (h : ∀ n' ∈ bucket, ∃ n ∈ ht.table j, n.key = n'.key ∧ n.subscriberFds = n'.subscriberFds) :
    SlotsFrom (ht.set j bucket) ht := by
  intro i n' hn'
  by_cases hi : i = j
  · subst hi
    rw [HashTable.set_self] at hn'
    exact h n' hn'
  · rw [HashTable.set_ne _ hi] at hn'
    exact ⟨n', hn', rfl, rfl⟩

theorem write_slotsFrom {ht : HashTable} {k : Key} (hk : (ht.toMap k).isSome = true) (value : CStr)
    (mem : Garbage) : SlotsFrom (PairOp.apply (.write k value mem) ht).1 ht := by
  apply SlotsFrom.set
  intro n' hn'
  have hpresent : (searchNode k.str (ht.table k.bucket)).isSome = true := by
    rwa [HashTable.toMap, Option.isSome_map] at hk
  obtain ⟨m, hm⟩ := Option.isSome_iff_exists.mp hpresent
  have hbucket : writeBucket k.str value mem (ht.table k.bucket)
      = overwriteNode k.str value (ht.table k.bucket) := by rw [writeBucket, hm]
  rw [show (PairOp.onBucket _ _).1 = writeBucket k.str value mem (ht.table k.bucket) from rfl, hbucket,
    overwriteNode_eq] at hn'
  rcases Assoc.mem_overwrite hn' with hold | ⟨n, hn, _, rfl⟩
  · exact ⟨n', hold, rfl, rfl⟩
  · exact ⟨n, hn, rfl, rfl⟩

theorem delete_slotsFrom (ht : HashTable) (k : Key) : SlotsFrom (PairOp.apply (.delete k) ht).1 ht :=
  SlotsFrom.set (fun n' hn' => ⟨n', (deleteBucket_sublist _ _).subset hn', rfl, rfl⟩)

/-- A call keeps the invariant and does to the map what it does. -/
theorem apply_refines {ht : HashTable} (hI : TableInv ht) (op : PairOp) :
    TableInv (op.apply ht).1 ∧ (op.apply ht).1.toMap = (op.spec ht.toMap).1 := by
  obtain ⟨ht', hexec, hI', hmap⟩ := exec_refines hI op
  rw [PairOp.exec_eq] at hexec
  rw [(congrArg Prod.fst (Option.some.inj hexec) : (op.apply ht).1 = ht')]
  exact ⟨hI', hmap⟩

theorem runPairs_writes {ht : HashTable} (hI : TableInv ht) {ops : List PairOp}
    (h : ∀ op ∈ ops, ∃ k value mem, op = .write k value mem ∧ (ht.toMap k).isSome = true) :
    SlotsFrom (runPairs ops ht).1 ht ∧ TableInv (runPairs ops ht).1 := by
  induction ops generalizing ht with
  | nil => exact ⟨.refl ht, hI⟩
  | cons op ops ih =>
      obtain ⟨hop, hops⟩ := List.forall_mem_cons.mp h
      obtain ⟨k, value, mem, rfl, hk⟩ := hop
      obtain ⟨hI', hmap⟩ := apply_refines hI (.write k value mem)
      -- a key that is there stays there
      have hrest := ih hI' (fun op' hop' => by
        obtain ⟨j, v, m, heq, hj⟩ := hops op' hop'
        refine ⟨j, v, m, heq, ?_⟩
        rw [hmap]
        show (Function.update ht.toMap k (some value) j).isSome = true
        by_cases hjk : j = k
        · rw [hjk, Function.update_self]
          rfl
        · rwa [Function.update_of_ne hjk])
      exact ⟨hrest.1.trans (write_slotsFrom hk value mem), hrest.2⟩

theorem runPairs_deletes {ht : HashTable} (hI : TableInv ht) (keys : List Key) :
    SlotsFrom (runPairs (keys.map .delete) ht).1 ht ∧ TableInv (runPairs (keys.map .delete) ht).1 := by
  induction keys generalizing ht with
  | nil => exact ⟨.refl ht, hI⟩
  | cons k keys ih =>
      have hrest := ih (apply_refines hI (.delete k)).1
      exact ⟨hrest.1.trans (delete_slotsFrom ht k), hrest.2⟩

/-- The command writes to keys that are there. -/
def CreatesNoKey (ht : HashTable) : WorkerCmd → Prop
  | .cmdWrite pairs _ => ∀ p ∈ pairs, (ht.toMap p.1).isSome = true
  | .cmdRead _ => True
  | .cmdDelete _ => True
  | .cmdShow => True
  | .cmdBackup => True

instance (ht : HashTable) : (c : WorkerCmd) → Decidable (CreatesNoKey ht c)
  | .cmdWrite pairs _ => inferInstanceAs (Decidable (∀ p ∈ pairs, (ht.toMap p.1).isSome = true))
  | .cmdRead _ => isTrue trivial
  | .cmdDelete _ => isTrue trivial
  | .cmdShow => isTrue trivial
  | .cmdBackup => isTrue trivial

theorem runJob_eq (c : WorkerCmd) (ht : HashTable) : runJob c ht = (runPairs c.calls ht).1 :=
  HashTable.ext (runCode_table c ht)

/-- **A job that creates no key** keeps the slots of the nodes it leaves. -/
theorem runJob_slotsFrom {ht : HashTable} (hI : TableInv ht) {c : WorkerCmd}
    (hc : CreatesNoKey ht c) : SlotsFrom (runJob c ht) ht ∧ TableInv (runJob c ht) := by
  rw [runJob_eq]
  cases c with
  | cmdWrite pairs mem =>
      refine runPairs_writes hI (fun op hop => ?_)
      obtain ⟨i, hi, hget⟩ := List.mem_mapIdx.mp hop
      have hmem : (sortPairs pairs)[i] ∈ pairs :=
        ((sortRows_perm pairs).mem_iff).mp (List.getElem_mem hi)
      exact ⟨_, _, _, hget.symm, hc _ hmem⟩
  | cmdRead keys =>
      rw [WorkerCmd.calls, runPairs_reads]
      exact ⟨.refl ht, hI⟩
  | cmdDelete keys => exact runPairs_deletes hI (sortKeys keys)
  | cmdShow => exact ⟨.refl ht, hI⟩
  | cmdBackup => exact ⟨.refl ht, hI⟩

theorem tableInv_tableWithA : TableInv tableWithA := (apply_refines tableInv_create _).1

end Kvs.Server
