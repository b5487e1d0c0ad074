import Kvs.Correctness.SubscriberMap
import Kvs.Correctness.Subscripts
import Kvs.Lib.Transition

/-!
# `Correctness.SubscriberSets` — the subscribers of a key are a bounded set

The slots of a node hold a set of at most `MAX_SESSION_COUNT` descriptors (`Lib.SlotSet`).
`add_subscriber` and `remove_subscriber` are the operations of such a set on the node of their key and
touch nothing else; `write_pair` on a key that is there and `delete_pair` leave the sets of the keys that
stay (`exec_meets`). So it is along every run on keys that have a bucket, and only on those, since for
any other `hash` returns `-1` and the call subscripts with it (`subscriber_sets_iff`).
-/

namespace Kvs.Server

/-! ## Sets of subscribers -/

/-- The node that the search for a key finds. -/
def HashTable.node (ht : HashTable) (key : CStr) : Option KeyNode :=
  (subscript (hash key)).bind (fun i => searchNode key (ht.table i))

/-- The descriptors in the slots that are not free. -/
def KeyNode.subscribers (keyNode : KeyNode) : Finset Int :=
  SlotSet.members 0 keyNode.subscriberFds.get

/-- The subscribers of a key, or `none` when it is not there. -/
def HashTable.subscribers (ht : HashTable) (key : CStr) : Option (Finset Int) :=
  (ht.node key).map KeyNode.subscribers

/-- Keys are unique and in their bucket, and the slots of every node are 0 or pairwise distinct positive
    descriptors. -/
structure SlotInv (ht : HashTable) : Prop where
  table : TableInv ht
  nonneg : ∀ i, ∀ n ∈ ht.table i, ∀ j : Fin MAX_SESSION_COUNT, 0 ≤ n.subscriberFds.get j
  distinct : ∀ i, ∀ n ∈ ht.table i, SlotSet.Distinct 0 n.subscriberFds.get

/-- The pairs of every bucket are the same, in the same order. -/
def SamePairs (ht ht' : HashTable) : Prop :=
  ∀ i, (ht'.table i).map (fun n => (n.key, n.value)) = (ht.table i).map (fun n => (n.key, n.value))

/-- What a call should do to the table and return. -/
def TableOp.Meets (ht ht' : HashTable) (ret : Int) : TableOp → Prop
  | .write key _ _ => ht'.subscribers key = ht.subscribers key
  | .delete _ => True
  | .addSubscriber key fd =>
      match (ht.subscribers key).bind (SlotSet.add MAX_SESSION_COUNT fd) with
      | some s => ret = 0 ∧ ht'.subscribers key = some s ∧ SamePairs ht ht'
      | none => ret = 1 ∧ ht' = ht
  | .removeSubscriber key fd =>
      match (ht.subscribers key).bind (SlotSet.remove fd) with
      | some s => ret = 0 ∧ ht'.subscribers key = some s ∧ SamePairs ht ht'
      | none => ret = 1 ∧ ht' = ht

/-- Every call of the run is defined, keeps the invariant and the subscribers of the other keys, and does
    what it should. -/
def RunMeets : List TableOp → HashTable → Prop
  | [], _ => True
  | op :: ops, ht => ∃ ht' ret, op.exec ht = some (ht', ret) ∧ SlotInv ht' ∧
      (∀ key, key ≠ op.key → ht'.subscribers key = ht.subscribers key) ∧ op.Meets ht ht' ret ∧
      RunMeets ops ht'

/-- Descriptors are positive, and a write is to a key that is there. -/
def TableOp.Allowed (ht : HashTable) : TableOp → Prop
  | .write key _ _ => (ht.node key).isSome = true
  | .delete _ => True
  | .addSubscriber _ fd => 0 < fd
  | .removeSubscriber _ fd => 0 < fd

/-! ## The slots of one node -/

/-- `add_subscriber` on the slots of its node is `add` on the set. -/
theorem addSlot_add {fds : Slots} (h : SlotSet.Distinct 0 fds.get) {fd : Int} (hfd : fd ≠ 0) :
    match SlotSet.add MAX_SESSION_COUNT fd (SlotSet.members 0 fds.get) with
    | some s => (addSlot fd fds).2 = 0 ∧ SlotSet.members 0 (addSlot fd fds).1.get = s
    | none => addSlot fd fds = (fds, 1) := by
  unfold SlotSet.add
  rcases addSlot_cases fd fds with ⟨hthere, hadd⟩ | ⟨hnew, i, hi, hadd⟩ | ⟨hnew, hfull, hadd⟩
  · rw [if_neg (fun hroom => hroom.1 (SlotSet.mem_members.mpr ⟨hfd, hthere⟩))]
    exact hadd
  · have hroom := (SlotSet.exists_free_iff h).mp ⟨i, hi⟩
    rw [Fintype.card_fin] at hroom
    rw [if_pos ⟨(SlotSet.notMem_members hfd).mpr hnew, hroom⟩, hadd]
    refine ⟨rfl, ?_⟩
    rw [get_setSlot_eq, SlotSet.members_fill hi hfd]
  · have hcard := (SlotSet.forall_ne_free_iff h).mp hfull
    rw [Fintype.card_fin] at hcard
    rw [if_neg (fun hroom => Nat.lt_irrefl _ (hcard ▸ hroom.2))]
    exact hadd

/-- `remove_subscriber` on the slots of its node is `remove` on the set. -/
theorem removeSlot_remove {fds : Slots} (h : SlotSet.Distinct 0 fds.get) {fd : Int} (hfd : fd ≠ 0) :
    match SlotSet.remove fd (SlotSet.members 0 fds.get) with
    | some s => (removeSlot fd fds).2 = 0 ∧ SlotSet.members 0 (removeSlot fd fds).1.get = s
    | none => removeSlot fd fds = (fds, 1) := by
  unfold SlotSet.remove
  rcases removeSlot_cases fd fds with ⟨i, rfl, hremove⟩ | ⟨hnone, hremove⟩
  · rw [if_pos (SlotSet.mem_members.mpr ⟨hfd, i, rfl⟩), hremove]
    refine ⟨rfl, ?_⟩
    rw [get_setSlot_eq, SlotSet.members_clear h hfd]
  · rw [if_neg ((SlotSet.notMem_members hfd).mpr hnone)]
    exact hremove

/-! ## The search -/

theorem node_key (ht : HashTable) (k : Key) : ht.node k.str = searchNode k.str (ht.table k.bucket) := by
  simp [HashTable.node]

theorem subscribers_congr {ht ht' : HashTable} {key : CStr} (h : ht'.node key = ht.node key) :
    ht'.subscribers key = ht.subscribers key := congrArg (Option.map KeyNode.subscribers) h

/-- A bucket that is replaced for the sake of one key. -/
theorem node_set_ne {ht : HashTable} {k : Key} {bucket : List KeyNode} {key : CStr}
    (hsearch : searchNode key bucket = searchNode key (ht.table k.bucket)) :
    (ht.set k.bucket bucket).node key = ht.node key := by
  unfold HashTable.node
  cases subscript (hash key) with
  | none => rfl
  | some i =>
      show searchNode key ((ht.set k.bucket bucket).table i) = searchNode key (ht.table i)
      by_cases hi : i = k.bucket
      · rw [hi, HashTable.set_self, hsearch]
      · rw [HashTable.set_ne _ hi]

/-- Changing slots leaves the pairs as they are. -/
theorem changeAt_samePairs (ht : HashTable) (k : Key) (change : Slots → Slots × Int) :
    SamePairs ht (ht.changeAt k change).1 := by
  intro i
  unfold HashTable.changeAt
  by_cases hi : i = k.bucket
  · subst hi
    rw [HashTable.set_self, changeSlots_eq]
    generalize ht.table k.bucket = bucket
    induction bucket with
    | nil => rfl
    | cons n l ih =>
        rw [Assoc.overwrite]
        split
        · rfl
        · exact congrArg ((n.key, n.value) :: ·) ih
  · rw [HashTable.set_ne _ hi]

theorem node_changeAt_ne (ht : HashTable) {k : Key} {key : CStr} (h : key ≠ k.str)
    (change : Slots → Slots × Int) : (ht.changeAt k change).1.node key = ht.node key := by
  refine node_set_ne ?_
  rw [changeSlots_eq, searchNode_eq, searchNode_eq]
  exact Assoc.find_overwrite_ne h (KeyNode.key_changed change) _

theorem node_changeAt_self (ht : HashTable) (k : Key) (change : Slots → Slots × Int) :
    (ht.changeAt k change).1.node k.str
      = (ht.node k.str).map (KeyNode.changed change) := by
  rw [node_key, node_key, HashTable.changeAt, HashTable.set_self, changeSlots_eq, searchNode_eq,
    searchNode_eq]
  exact Assoc.find_overwrite_self (KeyNode.key_changed change) _

theorem changeAt_ret_eq (ht : HashTable) (k : Key) (change : Slots → Slots × Int) :
    (ht.changeAt k change).2 = ((ht.node k.str).map (fun n => (change n.subscriberFds).2)).getD 1 := by
  rw [node_key, HashTable.changeAt, changeSlots_eq, searchNode_eq]

/-- A change that leaves the slots of the node leaves the table. -/
theorem changeAt_eq_self {ht : HashTable} {k : Key} {change : Slots → Slots × Int}
    (h : ∀ n, ht.node k.str = some n → (change n.subscriberFds).1 = n.subscriberFds) :
    (ht.changeAt k change).1 = ht := by
  have hbucket : (changeSlots change k.str (ht.table k.bucket)).1 = ht.table k.bucket := by
    rw [changeSlots_eq]
    refine Assoc.overwrite_eq_self ?_
    intro n hn
    rw [KeyNode.changed, KeyNode.withSlots, h n (by rw [node_key, searchNode_eq, hn])]
  rw [HashTable.changeAt, hbucket]
  exact HashTable.ext (Function.update_eq_self _ _)

/-! ## The invariant -/

theorem node_mem {ht : HashTable} {key : CStr} {n : KeyNode} (h : ht.node key = some n) :
    ∃ i, n ∈ ht.table i := by
  obtain ⟨i, -, hsearch⟩ := Option.bind_eq_some_iff.mp h
  exact ⟨i, (searchNode_some hsearch).1⟩

/-- Slots that are all free. -/
theorem SlotInv.of_zero {ht : HashTable} (hI : TableInv ht)
    (hzero : ∀ i, ∀ n ∈ ht.table i, ∀ j : Fin MAX_SESSION_COUNT, n.subscriberFds.get j = 0) :
    SlotInv ht where
  table := hI
  nonneg i n hn j := le_of_eq (hzero i n hn j).symm
  distinct i n hn j _ hj := absurd (hzero i n hn j) hj

theorem SlotInv.of_slotsFrom {ht ht' : HashTable} (hI : SlotInv ht) (hfrom : SlotsFrom ht' ht)
    (htable : TableInv ht') : SlotInv ht' where
  table := htable
  nonneg i n hn := by
    obtain ⟨m, hm, -, hfds⟩ := hfrom i n hn
    exact hfds ▸ hI.nonneg i m hm
  distinct i n hn := by
    obtain ⟨m, hm, -, hfds⟩ := hfrom i n hn
    exact hfds ▸ hI.distinct i m hm

/-- A change of one node's slots that keeps what is required of them. -/
theorem SlotInv.changeAt {ht : HashTable} (hI : SlotInv ht) (k : Key) {change : Slots → Slots × Int}
    (hnonneg : ∀ fds : Slots, (∀ j, 0 ≤ fds.get j) → ∀ j, 0 ≤ (change fds).1.get j)
    (hdistinct : ∀ fds : Slots, SlotSet.Distinct 0 fds.get → SlotSet.Distinct 0 (change fds).1.get) :
    SlotInv (ht.changeAt k change).1 where
  table := hI.table.changeAt k
  nonneg i n' hn' := by
    rcases mem_changeAt hI.table hn' with ⟨hold, -⟩ | ⟨n, hn, -, rfl, -⟩
    · exact hI.nonneg i n' hold
    · exact hnonneg n.subscriberFds (hI.nonneg i n hn)
  distinct i n' hn' := by
    rcases mem_changeAt hI.table hn' with ⟨hold, -⟩ | ⟨n, hn, -, rfl, -⟩
    · exact hI.distinct i n' hold
    · exact hdistinct n.subscriberFds (hI.distinct i n hn)

theorem SlotInv.add {ht : HashTable} (hI : SlotInv ht) (k : Key) {fd : Int} (hfd : 0 < fd) :
    SlotInv (ht.changeAt k (addSlot fd)).1 := by
  refine hI.changeAt k ?_ ?_
  · intro fds hfds j
    rcases addSlot_get fd fds j with hold | ⟨hnew, -⟩
    · exact hold ▸ hfds j
    · rw [hnew]
      exact hfd.le
  · intro fds hfds
    exact SlotsDistinct.add hfds fd

theorem SlotInv.remove {ht : HashTable} (hI : SlotInv ht) (k : Key) (fd : Int) :
    SlotInv (ht.changeAt k (removeSlot fd)).1 := by
  refine hI.changeAt k ?_ ?_
  · intro fds hfds j
    rcases removeSlot_cases fd fds with ⟨i, -, hremove⟩ | ⟨-, hremove⟩
    · rw [hremove, get_setSlot]
      split
      · exact le_refl 0
      · exact hfds j
    · rw [hremove]
      exact hfds j
  · intro fds hfds
    exact SlotsDistinct.remove hfds fd

/-! ## One call -/

/-- A change of the slots of a key that behaves as `change'` on the set they hold. -/
theorem changeAt_meets {ht : HashTable} (hI : SlotInv ht) (k : Key) {change : Slots → Slots × Int}
    {change' : Finset Int → Option (Finset Int)}
    (hchange : ∀ fds : Slots, SlotSet.Distinct 0 fds.get →
      match change' (SlotSet.members 0 fds.get) with
      | some s => (change fds).2 = 0 ∧ SlotSet.members 0 (change fds).1.get = s
      | none => change fds = (fds, 1)) :
    match (ht.subscribers k.str).bind change' with
    | some s => (ht.changeAt k change).2 = 0 ∧ (ht.changeAt k change).1.subscribers k.str = some s ∧
        SamePairs ht (ht.changeAt k change).1
    | none => (ht.changeAt k change).2 = 1 ∧ (ht.changeAt k change).1 = ht := by
  have hret := changeAt_ret_eq ht k change
  have hself := node_changeAt_self ht k change
  unfold HashTable.subscribers
  rw [hret, hself]
  cases hn : ht.node k.str with
  | none =>
      refine ⟨rfl, changeAt_eq_self ?_⟩
      intro n hsome
      rw [hn] at hsome
      exact absurd hsome (by simp)
  | some n =>
      obtain ⟨i, hmem⟩ := node_mem hn
      have hspec := hchange n.subscriberFds (hI.distinct i n hmem)
      show match change' (SlotSet.members 0 n.subscriberFds.get) with
        | some s => (change n.subscriberFds).2 = 0 ∧
            some (SlotSet.members 0 (change n.subscriberFds).1.get) = some s ∧
            SamePairs ht (ht.changeAt k change).1
        | none => (change n.subscriberFds).2 = 1 ∧ (ht.changeAt k change).1 = ht
      cases hset : change' (SlotSet.members 0 n.subscriberFds.get) with
      | some s =>
          rw [hset] at hspec
          exact ⟨hspec.1, congrArg some hspec.2, changeAt_samePairs ht k change⟩
      | none =>
          rw [hset] at hspec
          refine ⟨congrArg Prod.snd hspec, changeAt_eq_self ?_⟩
          intro m hm
          obtain rfl := Option.some.inj (hn.symm.trans hm)
          exact congrArg Prod.fst hspec

/-- **Step lemma.** A call on a key that has a bucket is defined, keeps the invariant and the subscribers
    of the other keys, and does what it should. -/
theorem exec_meets {ht : HashTable} (hI : SlotInv ht) {op : TableOp} (hkey : HasBucket op.key)
    (hallowed : op.Allowed ht) :
    ∃ ht' ret, op.exec ht = some (ht', ret) ∧ SlotInv ht' ∧
      (∀ key, key ≠ op.key → ht'.subscribers key = ht.subscribers key) ∧ op.Meets ht ht' ret := by
  obtain ⟨k, hk⟩ := hkey.exists_key
  cases op with
  | write key value mem =>
      obtain rfl : k.str = key := hk
      have hpresent : (ht.toMap k).isSome = true := by
        rw [HashTable.toMap, Option.isSome_map, ← node_key]
        exact hallowed
      refine ⟨_, 0, writePair_key ht k value mem,
        hI.of_slotsFrom (write_slotsFrom hpresent value mem) (hI.table.write k value mem), ?_, ?_⟩
      · intro j hj
        exact subscribers_congr (node_set_ne (searchNode_writeBucket_ne hj value mem _))
      · -- the node found keeps its slots
        obtain ⟨n, hn⟩ := Option.isSome_iff_exists.mp hallowed
        show HashTable.subscribers _ _ = _
        unfold HashTable.subscribers
        rw [hn, node_key, HashTable.set_self, writeBucket]
        rw [node_key] at hn
        simp only [hn, overwriteNode_eq]
        rw [searchNode_eq, Assoc.find_overwrite_self (KeyNode.key_setValue value), ← searchNode_eq, hn]
        rfl
  | delete key =>
      obtain rfl : k.str = key := hk
      refine ⟨_, _, deletePair_key ht k,
        hI.of_slotsFrom (delete_slotsFrom ht k) (hI.table.delete k), ?_, trivial⟩
      intro j hj
      exact subscribers_congr (node_set_ne (searchNode_deleteBucket_ne hj _))
  | addSubscriber key fd =>
      obtain rfl : k.str = key := hk
      have hfd : fd ≠ 0 := ne_of_gt hallowed
      refine ⟨_, _, addSubscriber_key ht k fd, hI.add k hallowed, ?_,
        changeAt_meets hI k (fun _ hfds => addSlot_add hfds hfd)⟩
      intro j hj
      exact subscribers_congr (node_changeAt_ne ht hj (addSlot fd))
  | removeSubscriber key fd =>
      obtain rfl : k.str = key := hk
      have hfd : fd ≠ 0 := ne_of_gt hallowed
      refine ⟨_, _, removeSubscriber_key ht k fd, hI.remove k fd, ?_,
        changeAt_meets hI k (fun _ hfds => removeSlot_remove hfds hfd)⟩
      intro j hj
      exact subscribers_congr (node_changeAt_ne ht hj (removeSlot fd))

theorem exec_isSome_iff (ht : HashTable) (op : TableOp) :
    (op.exec ht).isSome = true ↔ HasBucket op.key := by
  cases op with
  | write key value mem => exact writePair_isSome_iff ht key value mem
  | delete key => exact deletePair_isSome_iff ht key
  | addSubscriber key fd => exact addSubscriber_isSome_iff ht key fd
  | removeSubscriber key fd => exact removeSubscriber_isSome_iff ht key fd

/-! ## Runs -/

/-- The tables that calls of the functions of `kvs.c` build from an empty one, in whatever order the
    threads make them. -/
def Reachable (ht : HashTable) : Prop :=
  ∃ ops, Transition.run TableOp.step ops createHashTable = some ht

/-- A call that is defined keeps the keys unique and in their buckets. -/
theorem TableInv.step {ht ht' : HashTable} (hI : TableInv ht) {op : TableOp}
    (hstep : op.step ht = some ht') : TableInv ht' := by
  obtain ⟨⟨ht'', ret⟩, hexec, rfl⟩ := Option.map_eq_some_iff.mp hstep
  have hkey : HasBucket op.key := (exec_isSome_iff ht op).mp (by rw [hexec]; rfl)
  obtain ⟨k, hk⟩ := hkey.exists_key
  cases op with
  | write key value mem =>
      obtain rfl : k.str = key := hk
      obtain ⟨rfl, -⟩ := Prod.mk.inj (Option.some.inj ((writePair_key ht k value mem).symm.trans hexec))
      exact hI.write k value mem
  | delete key =>
      obtain rfl : k.str = key := hk
      obtain ⟨rfl, -⟩ := Prod.mk.inj (Option.some.inj ((deletePair_key ht k).symm.trans hexec))
      exact hI.delete k
  | addSubscriber key fd =>
      obtain rfl : k.str = key := hk
      obtain rfl := congrArg Prod.fst (Option.some.inj ((addSubscriber_key ht k fd).symm.trans hexec))
      exact hI.changeAt k
  | removeSubscriber key fd =>
      obtain rfl : k.str = key := hk
      obtain rfl := congrArg Prod.fst
        (Option.some.inj ((removeSubscriber_key ht k fd).symm.trans hexec))
      exact hI.changeAt k

theorem Reachable.tableInv {ht : HashTable} (h : Reachable ht) : TableInv ht := by
  obtain ⟨ops, hrun⟩ := h
  exact Transition.run_invariant TableInv (fun _ _ _ hI hstep => hI.step hstep) tableInv_create hrun

/-- **The subscribers of the keys are bounded sets.** Along a run from a sound table, with positive
    descriptors and writes to keys that are there, every call keeps the table sound and does what it
    should exactly when every key of the run starts with a letter or a digit. -/
theorem subscriber_sets_iff {ht : HashTable} (hI : SlotInv ht) {ops : List TableOp}
    (hallowed : Transition.StepsMeet TableOp.step TableOp.Allowed ops ht) :
    RunMeets ops ht ↔ ∀ op ∈ ops, HasBucket op.key := by
  induction ops generalizing ht with
  | nil => simp [RunMeets]
  | cons op ops ih =>
      rw [List.forall_mem_cons]
      constructor
      · rintro ⟨ht', ret, hexec, hI', -, -, hrest⟩
        have hstep : op.step ht = some ht' := by rw [TableOp.step, hexec]; rfl
        refine ⟨(exec_isSome_iff ht op).mp (by rw [hexec]; rfl), ?_⟩
        exact (ih hI' ((Transition.stepsMeet_cons hstep).mp hallowed).2).mp hrest
      · rintro ⟨hkey, hkeys⟩
        obtain ⟨ht', ret, hexec, hI', hothers, hmeets⟩ := exec_meets hI hkey hallowed.1
        have hstep : op.step ht = some ht' := by rw [TableOp.step, hexec]; rfl
        exact ⟨ht', ret, hexec, hI', hothers, hmeets,
          (ih hI' ((Transition.stepsMeet_cons hstep).mp hallowed).2).mpr hkeys⟩

theorem slotInv_tableWithA : SlotInv tableWithA :=
  .of_zero tableInv_tableWithA (by decide +kernel)

instance (ht : HashTable) : (op : TableOp) → Decidable (op.Allowed ht)
  | .write key _ _ => inferInstanceAs (Decidable ((ht.node key).isSome = true))
  | .delete _ => isTrue trivial
  | .addSubscriber _ fd => inferInstanceAs (Decidable (0 < fd))
  | .removeSubscriber _ fd => inferInstanceAs (Decidable (0 < fd))

/-- Subscribing twice, a new value, unsubscribing, and the key deleted. -/
def opsOnA : List TableOp :=
  [.addSubscriber keyA.str 5, .addSubscriber keyA.str 5, .write keyA.str keyA.str (zeroMem 0),
    .removeSubscriber keyA.str 5, .delete keyA.str]

theorem subscriber_sets_opsOnA : RunMeets opsOnA tableWithA :=
  (subscriber_sets_iff slotInv_tableWithA (by decide +kernel)).mpr (by decide +kernel)

/-- **Outside the array.** `add_subscriber` subscripts the table with `-1`. -/
theorem subscriber_sets_underscore :
    ¬ RunMeets [.addSubscriber (CStr.ofBuffer (ascii "_")) 5] tableWithA := by
  rintro ⟨ht', ret, hexec, -⟩
  have hnone : addSubscriber tableWithA (CStr.ofBuffer (ascii "_")) 5 = none := rfl
  exact absurd (hnone.symm.trans hexec) (by simp)

end Kvs.Server
