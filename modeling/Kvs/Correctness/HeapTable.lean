import Kvs.Correctness.SubscriberMap
import Kvs.Server.HeapTable

/-!
# `Correctness.HeapTable` — the pointers of `kvs.c` never go astray, and nothing is leaked

`tableAt ht table` describes the blocks of a table: one for the array, and three for each node, its own
and its two strings. Each function of `kvs.c` has a triple on it that says the same of the pointers as
`Server.Table` and `Server.Subscribers` say of the lists (`triple_exec`). So a table that is allocated,
used by any calls and freed never touches a block that is not its own, returns what the lists return, has
no other blocks in between (`heap_run_refines`), and leaves none behind (`heap_lifetime`).
-/

namespace Kvs.Server.HeapTable

open HeapLogic
open HeapLogic.Prog (fail ofOption malloc load store free)

/-! ## The blocks of a table -/

/-- The blocks of a node at `a` whose `next` is `next`. -/
def nodeAt (a : Addr) (n : KeyNode) (next : Ptr) : Assertion Block :=
  ex fun k : Addr => ex fun v : Addr =>
    sep (pointsTo a (.keyNode ⟨some k, some v, n.subscriberFds, next⟩))
      (sep (pointsTo k (.chars n.key)) (pointsTo v (.chars n.value)))

/-- The blocks of a table at `ht`. -/
def tableAt (ht : Addr) (table : Buckets) : Assertion Block :=
  ex fun heads : Fin TABLE_SIZE → Ptr =>
    sep (pointsTo ht (.hashTable heads))
      (bigSep (List.finRange TABLE_SIZE) (fun i => chain nodeAt (table i) (heads i)))

theorem counts_nodeAt (a : Addr) (n : KeyNode) (next : Ptr) : Counts (nodeAt a n next) 3 :=
  Counts.ex fun k => Counts.ex fun v =>
    (counts_pointsTo a _).sep ((counts_pointsTo k _).sep (counts_pointsTo v _))

/-- The nodes of a table. -/
def nodeCount (table : Buckets) : Nat :=
  ((List.finRange TABLE_SIZE).map (fun i => (table i).length)).sum

theorem counts_tableAt (ht : Addr) (table : Buckets) :
    Counts (tableAt ht table) (1 + 3 * nodeCount table) := by
  refine Counts.ex fun heads => (counts_pointsTo ht _).sep ?_
  rw [nodeCount, ← List.sum_map_mul_left]
  exact Counts.bigSep (fun i => Counts.chain counts_nodeAt (table i) (heads i)) _

/-! ## The accesses -/

section Accesses

variable {a : Addr} {n : NodeBlock} {P : Assertion Block} {γ : Type} {S : γ → Assertion Block}

theorem triple_loadChars (a : Addr) (s : CStr) :
    Triple (pointsTo a (.chars s)) (loadChars (some a))
      (fun x => sep (fact (x = s)) (pointsTo a (.chars s))) := by
  refine Triple.pre (sep_emp _).symm (Triple.load (Triple.pure (fun h hP => ?_)))
  rw [sep_emp] at hP
  exact fact_sep_iff.mpr ⟨rfl, hP⟩

theorem triple_loadNode (a : Addr) (n : NodeBlock) :
    Triple (pointsTo a (.keyNode n)) (loadNode a)
      (fun x => sep (fact (x = n)) (pointsTo a (.keyNode n))) := by
  refine Triple.pre (sep_emp _).symm (Triple.load (Triple.pure (fun h hP => ?_)))
  rw [sep_emp] at hP
  exact fact_sep_iff.mpr ⟨rfl, hP⟩

theorem triple_loadTable (ht : Addr) (heads : Fin TABLE_SIZE → Ptr) :
    Triple (pointsTo ht (.hashTable heads)) (loadTable ht)
      (fun x => sep (fact (x = heads)) (pointsTo ht (.hashTable heads))) := by
  refine Triple.pre (sep_emp _).symm (Triple.load (Triple.pure (fun h hP => ?_)))
  rw [sep_emp] at hP
  exact fact_sep_iff.mpr ⟨rfl, hP⟩

theorem triple_setNode (a : Addr) (n : NodeBlock) (f : NodeBlock → NodeBlock) :
    Triple (pointsTo a (.keyNode n)) (setNode a f) (fun _ => pointsTo a (.keyNode (f n))) := by
  refine Triple.pre (sep_emp _).symm ((triple_loadNode a n).reads ?_)
  rw [sep_emp]
  exact triple_store a _ _

theorem triple_setTable (ht : Addr) (heads : Fin TABLE_SIZE → Ptr) (i : Fin TABLE_SIZE) (p : Ptr) :
    Triple (pointsTo ht (.hashTable heads)) (setTable ht i p)
      (fun _ => pointsTo ht (.hashTable (Function.update heads i p))) := by
  refine Triple.pre (sep_emp _).symm ((triple_loadTable ht heads).reads ?_)
  rw [sep_emp]
  exact triple_store ht _ _

theorem Triple.strdup {A : Allocator Block} {s : CStr} {k : Ptr → Prog Block γ}
    (h : ∀ a, Triple (sep (pointsTo a (.chars s)) P) (k (some a)) S) :
    Triple P (HeapTable.strdup A s >>= k) S :=
  Triple.malloc h

/-- A field of a node is read. -/
theorem triple_keyOf (a : Addr) (n : KeyNode) (next : Ptr) :
    Triple (nodeAt a n next) (keyOf a) (fun x => sep (fact (x = n.key)) (nodeAt a n next)) := by
  refine Triple.of_ex fun k => Triple.of_ex fun v => ?_
  refine (triple_loadNode a _).reads ?_
  refine Triple.pre (sep_left_comm _ _ _) ?_
  refine ((triple_loadChars k n.key).frame _).consequence (fun _ h => h) (fun x h hs => ?_)
  rw [sep_assoc] at hs
  obtain ⟨hx, hs⟩ := fact_sep_iff.mp hs
  rw [sep_left_comm] at hs
  exact fact_sep_iff.mpr ⟨hx, k, v, hs⟩

theorem triple_valueOf (a : Addr) (n : KeyNode) (next : Ptr) :
    Triple (nodeAt a n next) (valueOf a) (fun x => sep (fact (x = n.value)) (nodeAt a n next)) := by
  refine Triple.of_ex fun k => Triple.of_ex fun v => ?_
  refine (triple_loadNode a _).reads ?_
  refine Triple.pre (by ac_rfl) ((triple_loadChars v n.value).frame
    (sep (pointsTo a (.keyNode ⟨some k, some v, n.subscriberFds, next⟩)) (pointsTo k (.chars n.key)))
    |>.consequence (fun _ h => h) (fun x h hs => ?_))
  rw [sep_assoc] at hs
  obtain ⟨hx, hs⟩ := fact_sep_iff.mp hs
  refine fact_sep_iff.mpr ⟨hx, k, v, ?_⟩
  rwa [sep_comm, sep_assoc] at hs

theorem triple_nextOf (a : Addr) (n : KeyNode) (next : Ptr) :
    Triple (nodeAt a n next) (nextOf a) (fun x => sep (fact (x = next)) (nodeAt a n next)) := by
  refine Triple.of_ex fun k => Triple.of_ex fun v => ?_
  refine (triple_loadNode a _).reads (Triple.pure (fun h hs => ?_))
  exact fact_sep_iff.mpr ⟨rfl, k, v, hs⟩

end Accesses

/-! ## The search loop -/

section Search

variable {ρ : Type} {key : CStr} {found : Addr → Prog Block ρ} {absent : Prog Block ρ}

/-- The nodes that the loop has passed are left as they are. -/
theorem fold_node {a : Addr} {n : KeyNode} {next : Ptr} {nodes : List KeyNode} {R : Assertion Block}
    {h : Heap Block} (hs : sep (chain nodeAt nodes next) (sep (nodeAt a n next) R) h) :
    sep (chain nodeAt (n :: nodes) (some a)) R h := by
  rw [sep_left_comm, ← sep_assoc] at hs
  exact sep_mono (fun _ => chain_fold) (fun _ hR => hR) hs

/-- **A key that is there**: what is done with its node is done where the node stands. -/
theorem triple_search_found {nodes : List KeyNode} {n : KeyNode} {act : KeyNode → KeyNode} {fuel : Nat}
    {p : Ptr} {R : Assertion Block} {Q : ρ → Assertion Block}
    (hfuel : nodes.length < fuel) (hn : Assoc.find KeyNode.key key nodes = some n)
    (hfound : ∀ a next, Triple (nodeAt a n next) (found a)
      (fun r => sep (Q r) (nodeAt a (act n) next))) :
    Triple (sep (chain nodeAt nodes p) R) (searchLoop key found absent fuel p)
      (fun r => sep (Q r) (sep (chain nodeAt (Assoc.overwrite KeyNode.key key act nodes) p) R)) := by
  induction nodes generalizing fuel p R with
  | nil => exact absurd hn (by simp [Assoc.find])
  | cons m rest ih =>
      refine Triple.chain_cases (fun h _ => absurd h (by simp)) ?_
      rintro m' rest' a next hcons rfl
      obtain ⟨rfl, rfl⟩ := List.cons.inj hcons
      obtain ⟨fuel, rfl⟩ : ∃ f, fuel = f + 1 := ⟨fuel - 1, by simp at hfuel; omega⟩
      refine (triple_keyOf a m next).reads ?_
      simp only [strcmp_eq_zero]
      by_cases hm : m.key = key
      · rw [if_pos hm]
        rw [Assoc.find, if_pos hm] at hn
        obtain rfl := Option.some.inj hn
        refine ((hfound a next).frame _).consequence (fun _ h => h) (fun r h hs => ?_)
        rw [sep_assoc] at hs
        refine sep_mono (fun _ h => h) (fun h hs => ?_) hs
        rw [Assoc.overwrite, if_pos hm]
        rw [← sep_assoc] at hs
        exact sep_mono (fun _ => chain_fold) (fun _ h => h) hs
      · rw [if_neg hm]
        rw [Assoc.find, if_neg hm] at hn
        refine (triple_nextOf a m next).reads (Triple.pre (sep_left_comm _ _ _) ?_)
        refine (ih (by simp at hfuel; omega) hn).consequence (fun _ h => h) (fun r h hs => ?_)
        rw [Assoc.overwrite, if_neg hm]
        exact sep_mono (fun _ h => h) (fun _ => fold_node) hs

/-- **A key that is not there**: the loop has changed nothing when it ends. -/
theorem triple_search_absent {nodes : List KeyNode} {fuel : Nat} {p : Ptr} {R : Assertion Block}
    {Q : ρ → Assertion Block} (hfuel : nodes.length < fuel)
    (hn : Assoc.find KeyNode.key key nodes = none)
    (habsent : Triple (sep (chain nodeAt nodes p) R) absent Q) :
    Triple (sep (chain nodeAt nodes p) R) (searchLoop key found absent fuel p) Q := by
  induction nodes generalizing fuel p R with
  | nil =>
      obtain ⟨fuel, rfl⟩ : ∃ f, fuel = f + 1 := ⟨fuel - 1, by simp at hfuel; omega⟩
      cases p with
      | none => exact habsent
      | some a =>
          rintro h f n _ ⟨_, _, _, _, hfalse, _⟩
          exact hfalse.elim
  | cons m rest ih =>
      have hbody : ∀ a next, p = some a →
          Triple (sep (nodeAt a m next) (sep (chain nodeAt rest next) R))
            (searchLoop key found absent fuel p) Q := by
        rintro a next rfl
        obtain ⟨fuel, rfl⟩ : ∃ f, fuel = f + 1 := ⟨fuel - 1, by simp at hfuel; omega⟩
        rw [Assoc.find] at hn
        have hm : m.key ≠ key := fun h => by simp [h] at hn
        rw [if_neg hm] at hn
        refine (triple_keyOf a m next).reads ?_
        simp only [strcmp_eq_zero, if_neg hm]
        refine (triple_nextOf a m next).reads (Triple.pre (sep_left_comm _ _ _) ?_)
        refine ih (by simp at hfuel; omega) hn ?_
        exact habsent.consequence (fun _ => fold_node) (fun _ _ h => h)
      refine Triple.chain_cases (fun h _ => absurd h (by simp)) ?_
      rintro m' rest' a next hcons hp
      obtain ⟨rfl, rfl⟩ := List.cons.inj hcons
      exact hbody a next hp

end Search

/-! ## One bucket of the table -/

section Bucket

variable {ρ : Type} {ht : Addr} {table : Buckets} {index : Fin TABLE_SIZE}

/-- The other buckets. -/
def others (table : Buckets) (heads : Fin TABLE_SIZE → Ptr) (index : Fin TABLE_SIZE) : Assertion Block :=
  bigSep ((List.finRange TABLE_SIZE).erase index) (fun i => chain nodeAt (table i) (heads i))

/-- The array, the nodes of the bucket, and other blocks. -/
def bucketAt (ht : Addr) (heads : Fin TABLE_SIZE → Ptr) (index : Fin TABLE_SIZE) (bucket : List KeyNode)
    (p : Ptr) (R : Assertion Block) : Assertion Block :=
  sep (pointsTo ht (.hashTable (Function.update heads index p))) (sep (chain nodeAt bucket p) R)

theorem tableAt_open (ht : Addr) (table : Buckets) (index : Fin TABLE_SIZE) :
    tableAt ht table = ex fun heads =>
      bucketAt ht heads index (table index) (heads index) (others table heads index) := by
  unfold tableAt bucketAt others
  congr 1
  funext heads
  rw [bigSep_erase (List.mem_finRange index), Function.update_eq_self]

theorem tableAt_close {heads : Fin TABLE_SIZE → Ptr} {bucket : List KeyNode} {p : Ptr} {h : Heap Block}
    (hs : bucketAt ht heads index bucket p (others table heads index) h) :
    tableAt ht (Function.update table index bucket) h := by
  refine ⟨Function.update heads index p, ?_⟩
  have hbuckets := bigSep_update (List.nodup_finRange TABLE_SIZE) (List.mem_finRange index)
    (fun i => chain nodeAt (table i) (heads i))
    (fun i => chain nodeAt (Function.update table index bucket i) (Function.update heads index p i))
    (fun j hj => by simp only [Function.update_of_ne hj])
  simp only [Function.update_self] at hbuckets
  show sep _ (bigSep _ _) h
  rw [hbuckets]
  exact hs

/-- **What the functions share**: the subscript of the key, the array, and then the work on a bucket. -/
theorem triple_onBucket {key : CStr} (bucket : List KeyNode) {Q : ρ → Assertion Block}
    (body : Fin TABLE_SIZE → (Fin TABLE_SIZE → Ptr) → Prog Block ρ)
    (hindex : subscript (hash key) = some index)
    (hbody : ∀ heads R, Triple (bucketAt ht heads index (table index) (heads index) R) (body index heads)
      (fun r => sep (Q r) (ex fun p => bucketAt ht heads index bucket p R))) :
    Triple (tableAt ht table)
      (ofOption (subscript (hash key)) >>= fun index => loadTable ht >>= fun heads => body index heads)
      (fun r => sep (Q r) (tableAt ht (Function.update table index bucket))) := by
  refine Triple.ofOption hindex (Triple.pre (tableAt_open ht table index) (Triple.of_ex fun heads => ?_))
  have hread : Triple (bucketAt ht heads index (table index) (heads index) (others table heads index))
      (loadTable ht >>= fun heads => body index heads)
      (fun r => sep (Q r) (ex fun p => bucketAt ht heads index bucket p (others table heads index))) := by
    have h := hbody heads (others table heads index)
    unfold bucketAt at h ⊢
    rw [Function.update_eq_self] at h ⊢
    exact (triple_loadTable ht heads).reads h
  refine hread.consequence (fun _ h => h) (fun r h hs => ?_)
  refine sep_mono (fun _ h => h) ?_ hs
  rintro h ⟨p, hp⟩
  exact tableAt_close hp

/-- A bucket that is searched for a node, and the node changed where it stands. -/
theorem triple_search {key : CStr} {found : Addr → Prog Block ρ} {absent : Prog Block ρ} {fuel : Nat}
    {heads : Fin TABLE_SIZE → Ptr} {bucket bucket' : List KeyNode} {R : Assertion Block}
    {Q : ρ → Assertion Block} (hfuel : bucket.length < fuel)
    (hfound : ∀ n, searchNode key bucket = some n → ∃ act : KeyNode → KeyNode,
      Assoc.overwrite KeyNode.key key act bucket = bucket' ∧
        ∀ a next, Triple (nodeAt a n next) (found a) (fun r => sep (Q r) (nodeAt a (act n) next)))
    (habsent : searchNode key bucket = none →
      Triple (bucketAt ht heads index bucket (heads index) R) absent
        (fun r => sep (Q r) (ex fun p => bucketAt ht heads index bucket' p R))) :
    Triple (bucketAt ht heads index bucket (heads index) R) (searchLoop key found absent fuel (heads index))
      (fun r => sep (Q r) (ex fun p => bucketAt ht heads index bucket' p R)) := by
  rw [searchNode_eq] at hfound habsent
  unfold bucketAt at habsent ⊢
  cases hn : Assoc.find KeyNode.key key bucket with
  | some n =>
      obtain ⟨act, hact, hfound⟩ := hfound n hn
      refine Triple.pre (sep_left_comm _ _ _) ?_
      refine (triple_search_found hfuel hn hfound).consequence (fun _ h => h) (fun r h hs => ?_)
      refine sep_mono (fun _ h => h) (fun h hs => ⟨heads index, ?_⟩) hs
      rw [hact, sep_left_comm] at hs
      exact hs
  | none =>
      refine Triple.pre (sep_left_comm _ _ _) (triple_search_absent hfuel hn ?_)
      exact Triple.pre (sep_left_comm _ _ _) (habsent hn)

end Bucket

/-! ## The functions -/

section Functions

variable {A : Allocator Block} {fuel : Nat} {ht : Addr} {table : Buckets} {index : Fin TABLE_SIZE}
  {key : CStr}

theorem triple_freeNode (a : Addr) (n : KeyNode) (next : Ptr) :
    Triple (nodeAt a n next) (freeNode a) (fun _ => emp) := by
  refine Triple.of_ex fun k => Triple.of_ex fun v => ?_
  refine (triple_loadNode a _).reads (Triple.pre (sep_left_comm _ _ _) (Triple.free ?_))
  refine (triple_loadNode a _).reads (Triple.pre (sep_comm _ _) (Triple.free ?_))
  exact triple_free a _

theorem triple_overwriteValue (value : CStr) (a : Addr) (n : KeyNode) (next : Ptr) :
    Triple (nodeAt a n next) (overwriteValue A value a)
      (fun r => sep (fact (r = 0)) (nodeAt a (n.setValue value) next)) := by
  refine Triple.of_ex fun k => Triple.of_ex fun v => ?_
  refine (triple_loadNode a _).reads (Triple.pre (sep_rotate _ _ _) (Triple.free ?_))
  refine Triple.strdup fun copy => Triple.pre (sep_left_comm _ _ _) ?_
  refine (triple_setNode a _ _).seq _ fun _ => Triple.pure fun h hs => ?_
  rw [sep_comm (pointsTo copy _)] at hs
  exact fact_sep_iff.mpr ⟨rfl, k, copy, hs⟩

/-- A new node, put in front of the bucket. -/
theorem triple_pushNode (value : CStr) (mem : NodeBlock) {heads : Fin TABLE_SIZE → Ptr}
    {bucket : List KeyNode} {R : Assertion Block} :
    Triple (bucketAt ht heads index bucket (heads index) R) (pushNode A ht index key value mem)
      (fun r => sep (fact (r = 0)) (ex fun p =>
        bucketAt ht heads index (⟨key, value, mem.subscriberFds⟩ :: bucket) p R)) := by
  refine Triple.malloc fun a => Triple.strdup fun k => Triple.pre (sep_left_comm _ _ _) ?_
  refine (triple_setNode a _ _).seq _ fun _ => Triple.strdup fun v => Triple.pre (sep_left_comm _ _ _) ?_
  refine (triple_setNode a _ _).seq _ fun _ => ?_
  unfold bucketAt
  rw [Function.update_eq_self]
  have hfirst : ∀ a v k t rest : Assertion Block,
      sep a (sep v (sep k (sep t rest))) = sep t (sep a (sep v (sep k rest))) := by
    intros
    ac_rfl
  refine Triple.pre (hfirst _ _ _ _ _) ((triple_loadTable ht heads).reads ?_)
  refine Triple.pre (sep_left_comm _ _ _) ((triple_setNode a _ _).seq _ fun _ => ?_)
  refine Triple.pre (sep_left_comm _ _ _) ((triple_setTable ht heads index (some a)).seq _ fun _ => ?_)
  refine Triple.pure fun h hs => fact_sep_iff.mpr ⟨rfl, some a, ?_⟩
  refine sep_mono (fun _ h => h) (fun h hs => ?_) hs
  have hgather : ∀ a v k c r : Assertion Block,
      sep a (sep v (sep k (sep c r))) = sep (sep (sep a (sep k v)) c) r := by
    intros
    ac_rfl
  rw [hgather] at hs
  have hnode : ∀ h, sep (pointsTo a (.keyNode ⟨some k, some v, mem.subscriberFds, heads index⟩))
      (sep (pointsTo k (.chars key)) (pointsTo v (.chars value))) h →
      nodeAt a ⟨key, value, mem.subscriberFds⟩ (heads index) h := fun h hn => ⟨k, v, hn⟩
  exact sep_mono (fun _ hs => chain_fold (sep_mono hnode (fun _ h => h) hs)) (fun _ h => h) hs

theorem triple_writePair (value : CStr) (mem : NodeBlock) (hindex : subscript (hash key) = some index)
    (hfuel : (table index).length < fuel) :
    Triple (tableAt ht table) (writePair A fuel ht key value mem)
      (fun r => sep (fact (r = 0)) (tableAt ht (Function.update table index
        (writeBucket key value mem.subscriberFds (table index))))) := by
  refine triple_onBucket _ (fun index heads => searchLoop key (overwriteValue A value)
    (pushNode A ht index key value mem) fuel (heads index)) hindex (fun heads R => ?_)
  refine triple_search hfuel (fun n hn => ⟨KeyNode.setValue value, ?_, ?_⟩) (fun hn => ?_)
  · rw [writeBucket, hn]
    exact (overwriteNode_eq key value (table index)).symm
  · exact fun a next => triple_overwriteValue value a n next
  · rw [writeBucket, hn]
    exact triple_pushNode value mem

/-- What `read_pair` returns owns: the copy of the value, or nothing. -/
def copyAt (value : Option CStr) (p : Ptr) : Assertion Block :=
  match value, p with
  | some value, some a => pointsTo a (.chars value)
  | none, none => emp
  | _, _ => fun _ => False

/-- A search that leaves the bucket as it is. -/
theorem triple_look {ρ : Type} {found : Addr → Prog Block ρ} {result : ρ}
    {Q : ρ → Assertion Block} (hindex : subscript (hash key) = some index)
    (hfuel : (table index).length < fuel)
    (hfound : ∀ n, searchNode key (table index) = some n → ∀ a next,
      Triple (nodeAt a n next) (found a) (fun r => sep (Q r) (nodeAt a n next)))
    (habsent : searchNode key (table index) = none → ∀ h, emp h → Q result h) :
    Triple (tableAt ht table)
      (ofOption (subscript (hash key)) >>= fun index => loadTable ht >>= fun heads =>
        searchLoop key found (pure result) fuel (heads index))
      (fun r => sep (Q r) (tableAt ht table)) := by
  have hsame : tableAt ht table = tableAt ht (Function.update table index (table index)) := by
    rw [Function.update_eq_self]
  refine (triple_onBucket (table index) (fun index heads => searchLoop key found (pure result) fuel
    (heads index)) hindex (fun heads R => ?_)).consequence (fun _ h => h)
    (fun r h hs => (by rw [hsame]; exact hs))
  refine triple_search hfuel (fun n hn => ?_) (fun hn => Triple.pure (fun h hs => ?_))
  · exact ⟨id, Assoc.overwrite_eq_self (fun _ _ => rfl), hfound n hn⟩
  · have hempty : sep emp (ex fun p => bucketAt ht heads index (table index) p R) h := by
      rw [emp_sep]
      exact ⟨heads index, hs⟩
    exact sep_mono (habsent hn) (fun _ h => h) hempty

theorem triple_readPair (hindex : subscript (hash key) = some index)
    (hfuel : (table index).length < fuel) :
    Triple (tableAt ht table) (readPair A fuel ht key)
      (fun r => sep (copyAt ((searchNode key (table index)).map KeyNode.value) r) (tableAt ht table)) := by
  refine triple_look hindex hfuel (fun n hn a next => ?_) (fun hn h hs => ?_)
  · rw [hn]
    refine Triple.pre (sep_emp _).symm ((triple_valueOf a n next).reads ?_)
    rw [sep_emp]
    exact Triple.strdup (fun c => Triple.pure (fun h hs => hs))
  · rw [hn]
    exact hs

/-- The copy is freed once it is printed. -/
theorem triple_kvsReadOne (hindex : subscript (hash key) = some index)
    (hfuel : (table index).length < fuel) :
    Triple (tableAt ht table) (kvsReadOne A fuel ht key)
      (fun r => sep (fact (r = (searchNode key (table index)).map KeyNode.value))
        (tableAt ht table)) := by
  refine (triple_readPair hindex hfuel).bind (fun r => ?_)
  cases hvalue : (searchNode key (table index)).map KeyNode.value with
  | none =>
      cases r with
      | none =>
          refine Triple.pre (emp_sep _) (Triple.pure (fun h hs => ?_))
          exact fact_sep_iff.mpr ⟨rfl, hs⟩
      | some a =>
          rintro h f n _ ⟨_, _, _, _, hfalse, _⟩
          exact hfalse.elim
  | some value =>
      cases r with
      | none =>
          rintro h f n _ ⟨_, _, _, _, hfalse, _⟩
          exact hfalse.elim
      | some a =>
          refine (triple_loadChars a value).reads (Triple.free (Triple.pure (fun h hs => ?_)))
          exact fact_sep_iff.mpr ⟨rfl, hs⟩

theorem triple_changeNode (change : Slots → Slots × Int) (a : Addr) (n : KeyNode) (next : Ptr) :
    Triple (nodeAt a n next) (changeNode change a)
      (fun r => sep (fact (r = (change n.subscriberFds).2))
        (nodeAt a (n.withSlots (change n.subscriberFds).1) next)) := by
  refine Triple.of_ex fun k => Triple.of_ex fun v => ?_
  refine (triple_loadNode a _).reads (Triple.store (Triple.pure fun h hs => ?_))
  exact fact_sep_iff.mpr ⟨rfl, k, v, hs⟩

theorem triple_changeSubscribers (change : Slots → Slots × Int)
    (hindex : subscript (hash key) = some index) (hfuel : (table index).length < fuel) :
    Triple (tableAt ht table) (changeSubscribers change fuel ht key)
      (fun r => sep (fact (r = (changeSlots change key (table index)).2))
        (tableAt ht (Function.update table index (changeSlots change key (table index)).1))) := by
  rw [changeSlots_eq]
  refine triple_onBucket _ (fun index heads => searchLoop key (changeNode change) (pure 1) fuel
    (heads index)) hindex (fun heads R => ?_)
  refine triple_search hfuel (fun n hn => ⟨_, rfl, fun a next => ?_⟩)
    (fun hn => Triple.pure (fun h hs => ?_))
  · rw [searchNode_eq] at hn
    rw [hn]
    exact triple_changeNode change a n next
  · rw [searchNode_eq] at hn
    rw [Assoc.overwrite_eq_self (fun n hn' => absurd (hn.symm.trans hn') (by simp)), hn]
    exact fact_sep_iff.mpr ⟨rfl, heads index, hs⟩

theorem triple_notifyClients (hindex : subscript (hash key) = some index)
    (hfuel : (table index).length < fuel) :
    Triple (tableAt ht table) (notifyClients fuel ht key)
      (fun r => sep (fact (r = match searchNode key (table index) with
          | none => ([], 1)
          | some keyNode => (keyNode.subscriberFds.toList.map (fun fd =>
              (fd, sendMsg (notification key keyNode.value))), 0)))
        (tableAt ht table)) := by
  refine triple_look hindex hfuel (fun n hn a next => ?_) (fun hn h hs => ?_)
  · rw [hn]
    refine Triple.pre (sep_emp _).symm ((triple_valueOf a n next).reads ?_)
    rw [sep_emp]
    refine Triple.of_ex fun k => Triple.of_ex fun v => ?_
    refine (triple_loadNode a _).reads (Triple.pure (fun h hs => ?_))
    exact fact_sep_iff.mpr ⟨rfl, k, v, hs⟩
  · rw [hn]
    exact ⟨rfl, hs⟩

/-! ### `delete_pair` -/

/-- The block with the pointer that leads to a node: the array, or the node before it. -/
def linkAt (ht : Addr) (heads : Fin TABLE_SIZE → Ptr) (index : Fin TABLE_SIZE) (n : NodeBlock) :
    Ptr → Ptr → Assertion Block
  | none, p => pointsTo ht (.hashTable (Function.update heads index p))
  | some prevNode, p => pointsTo prevNode (.keyNode { n with next := p })

theorem deleteBucket_cons (key : CStr) (n : KeyNode) (rest : List KeyNode) :
    deleteBucket key (n :: rest) = if n.key = key then (rest, 0)
      else (n :: (deleteBucket key rest).1, (deleteBucket key rest).2) := by
  unfold deleteBucket
  simp only [searchNode, unlinkNode, strcmp_eq_zero]
  by_cases hn : n.key = key
  · simp [hn]
  · simp only [if_neg hn]
    cases searchNode key rest <;> rfl

/-- The pointer that led to the node leads past it. -/
theorem triple_unlinkFrom (heads : Fin TABLE_SIZE → Ptr) (m : NodeBlock) (prev : Ptr) (a : Addr)
    (n : KeyNode) (next : Ptr) :
    Triple (sep (nodeAt a n next) (linkAt ht heads index m prev (some a))) (unlinkFrom ht index a prev)
      (fun _ => sep (linkAt ht heads index m prev next) (nodeAt a n next)) := by
  cases prev with
  | none =>
      refine (triple_nextOf a n next).reads (Triple.pre (sep_comm _ _) ?_)
      refine ((triple_setTable ht _ index next).frame _).consequence (fun _ h => h) (fun _ h hs => ?_)
      rwa [Function.update_idem] at hs
  | some prevNode =>
      refine (triple_nextOf a n next).reads (Triple.pre (sep_comm _ _) ?_)
      exact (triple_setNode prevNode _ _).frame _

/-- **The loop of `delete_pair`**, wherever it stands in the bucket. -/
theorem triple_deleteLoop (heads : Fin TABLE_SIZE → Ptr) (m : NodeBlock) (prev : Ptr)
    {nodes : List KeyNode} {p : Ptr} {R : Assertion Block} (hfuel : nodes.length < fuel) :
    Triple (sep (chain nodeAt nodes p) (sep (linkAt ht heads index m prev p) R))
      (deleteLoop ht index key fuel p prev)
      (fun r => sep (fact (r = (deleteBucket key nodes).2)) (ex fun p' =>
        sep (linkAt ht heads index m prev p') (sep (chain nodeAt (deleteBucket key nodes).1 p') R))) := by
  induction nodes generalizing fuel m prev p R with
  | nil =>
      obtain ⟨fuel, rfl⟩ : ∃ f, fuel = f + 1 := ⟨fuel - 1, by simp at hfuel; omega⟩
      cases p with
      | none =>
          refine Triple.pure (fun h hs => fact_sep_iff.mpr ⟨rfl, none, ?_⟩)
          rwa [sep_left_comm] at hs
      | some a =>
          rintro h f n _ ⟨_, _, _, _, hfalse, _⟩
          exact hfalse.elim
  | cons n rest ih =>
      cases p with
      | none =>
          rintro h f n _ ⟨_, _, _, _, hfalse, _⟩
          exact hfalse.elim
      | some a =>
          obtain ⟨fuel, rfl⟩ : ∃ f, fuel = f + 1 := ⟨fuel - 1, by simp at hfuel; omega⟩
          refine Triple.pre (ex_sep _ _) (Triple.of_ex fun next => Triple.pre (sep_assoc _ _ _) ?_)
          refine (triple_keyOf a n next).reads ?_
          rw [deleteBucket_cons]
          simp only [strcmp_eq_zero]
          by_cases hn : n.key = key
          · simp only [if_pos hn]
            refine Triple.pre (?_ : _ = sep (sep (nodeAt a n next) (linkAt ht heads index m prev (some a)))
              (sep (chain nodeAt rest next) R)) ?_
            · ac_rfl
            refine (triple_unlinkFrom heads m prev a n next).seq _ fun _ => ?_
            rw [sep_comm (linkAt ht heads index m prev next), sep_assoc]
            refine (triple_freeNode a n next).seq _ fun _ => Triple.pure (fun h hs => ?_)
            rw [emp_sep] at hs
            exact fact_sep_iff.mpr ⟨rfl, next, hs⟩
          · simp only [if_neg hn]
            refine (triple_nextOf a n next).reads (Triple.pre (ex_sep _ _) (Triple.of_ex fun k => ?_))
            refine Triple.pre (ex_sep _ _) (Triple.of_ex fun v => ?_)
            -- now the node itself is the block that leads to the next one
            refine Triple.pre (?_ : _ = sep (chain nodeAt rest next)
              (sep (linkAt ht heads index ⟨some k, some v, n.subscriberFds, next⟩ (some a) next)
                (sep (sep (pointsTo k (.chars n.key)) (pointsTo v (.chars n.value)))
                  (sep (linkAt ht heads index m prev (some a)) R)))) ?_
            · show sep (sep _ _) _ = _
              rw [linkAt]
              ac_rfl
            refine (ih _ _ (by simp at hfuel; omega)).consequence (fun _ h => h) (fun r h hs => ?_)
            obtain ⟨hr, p', hs⟩ := fact_sep_iff.mp hs
            refine fact_sep_iff.mpr ⟨hr, some a, ?_⟩
            have hgather : ∀ l c s t r : Assertion Block,
                sep l (sep c (sep s (sep t r))) = sep t (sep (sep (sep l s) c) r) := by
              intros
              ac_rfl
            rw [hgather] at hs
            have hnode : ∀ h, sep (linkAt ht heads index ⟨some k, some v, n.subscriberFds, next⟩ (some a) p')
                (sep (pointsTo k (.chars n.key)) (pointsTo v (.chars n.value))) h → nodeAt a n p' h :=
              fun h hs => ⟨k, v, hs⟩
            exact sep_mono (fun _ h => h) (fun _ hs => sep_mono
              (fun _ hs => chain_fold (sep_mono hnode (fun _ h => h) hs)) (fun _ h => h) hs) hs

theorem triple_deletePair (hindex : subscript (hash key) = some index)
    (hfuel : (table index).length < fuel) :
    Triple (tableAt ht table) (deletePair fuel ht key)
      (fun r => sep (fact (r = (deleteBucket key (table index)).2))
        (tableAt ht (Function.update table index (deleteBucket key (table index)).1))) := by
  refine triple_onBucket _ (fun index heads => deleteLoop ht index key fuel (heads index) none) hindex
    (fun heads R => Triple.pre (sep_left_comm _ _ _) ?_)
  exact triple_deleteLoop heads ⟨none, none, Vector.replicate MAX_SESSION_COUNT 0, none⟩ none hfuel

/-! ### All buckets -/

theorem triple_freeNodes {nodes : List KeyNode} {p : Ptr} (hfuel : nodes.length < fuel) :
    Triple (chain nodeAt nodes p) (freeNodes fuel p) (fun _ => emp) := by
  induction nodes generalizing fuel p with
  | nil =>
      obtain ⟨fuel, rfl⟩ : ∃ f, fuel = f + 1 := ⟨fuel - 1, by simp at hfuel; omega⟩
      cases p with
      | none => exact Triple.pure (fun _ hs => hs)
      | some a => exact fun _ _ _ _ hfalse => hfalse.elim
  | cons n rest ih =>
      cases p with
      | none => exact fun _ _ _ _ hfalse => hfalse.elim
      | some a =>
          obtain ⟨fuel, rfl⟩ : ∃ f, fuel = f + 1 := ⟨fuel - 1, by simp at hfuel; omega⟩
          refine Triple.of_ex fun next => (triple_nextOf a n next).reads ?_
          refine (triple_freeNode a n next).seq _ fun _ => Triple.pre (emp_sep _) ?_
          exact ih (by simp at hfuel; omega)

/-- **`free_table` frees every block of the table.** -/
theorem triple_freeTable (hfuel : ∀ i, (table i).length < fuel) :
    Triple (tableAt ht table) (freeTable fuel ht) (fun _ => emp) := by
  refine Triple.of_ex fun heads => ?_
  refine (Triple.forM (I := fun rest => sep (pointsTo ht (.hashTable heads))
    (bigSep rest (fun i => chain nodeAt (table i) (heads i)))) (fun i rest => ?_) _).bind (fun _ => ?_)
  · refine (triple_loadTable ht heads).reads (Triple.pre ?_ (((triple_freeNodes (hfuel i)).frame
      (sep (pointsTo ht (.hashTable heads)) (bigSep rest (fun i => chain nodeAt (table i) (heads i)))))
      |>.consequence (fun _ h => h) (fun _ h hs => ?_)))
    · rw [bigSep_cons]
      exact sep_left_comm _ _ _
    · rwa [emp_sep] at hs
  · rw [bigSep_nil, sep_emp]
    exact triple_free ht _

theorem triple_createHashTable (mem : Fin TABLE_SIZE → Ptr) :
    Triple emp (createHashTable A mem) (fun ht => tableAt ht Server.createHashTable.table) := by
  refine Triple.malloc fun ht => Triple.pre (sep_emp _) ?_
  -- the entries that the loop has passed are `NULL`
  refine Triple.bind (Q := fun _ => ex fun heads => sep (fact (∀ i, i ∉ ([] : List (Fin TABLE_SIZE)) →
    heads i = none)) (pointsTo ht (.hashTable heads))) ?_ (fun _ => ?_)
  · refine (Triple.forM (I := fun rest => ex fun heads => sep (fact (∀ i, i ∉ rest → heads i = none))
      (pointsTo ht (.hashTable heads))) (fun i rest => Triple.of_ex fun heads => Triple.of_fact fun h => ?_)
      (List.finRange TABLE_SIZE)).consequence (fun heap hheap => ?_) (fun _ _ h => h)
    · refine (triple_setTable ht heads i none).consequence (fun _ h => h) (fun _ heap hheap => ?_)
      refine ⟨Function.update heads i none, fact_sep_iff.mpr ⟨fun j hj => ?_, hheap⟩⟩
      by_cases hji : j = i
      · rw [hji, Function.update_self]
      · rw [Function.update_of_ne hji]
        exact h j (fun hmem => (List.mem_cons.mp hmem).elim hji hj)
    · exact ⟨mem, fact_sep_iff.mpr ⟨fun i hi => absurd (List.mem_finRange i) hi, hheap⟩⟩
  · refine Triple.of_ex fun heads => Triple.of_fact fun hnull => Triple.pure (fun h hs => ⟨heads, ?_⟩)
    have hempty : ∀ l : List (Fin TABLE_SIZE),
        bigSep l (fun i => chain nodeAt (Server.createHashTable.table i) (heads i)) = emp := by
      intro l
      induction l with
      | nil => rfl
      | cons i l ih =>
          rw [bigSep_cons, ih, sep_emp, hnull i (by simp)]
          rfl
    show sep _ (bigSep _ _) h
    rw [hempty, sep_emp]
    exact hs

theorem triple_showLoop {nodes : List KeyNode} {p : Ptr} {R : Assertion Block}
    (hfuel : nodes.length < fuel) :
    Triple (sep (chain nodeAt nodes p) R) (showLoop fuel p)
      (fun r => sep (fact (r = showNodes nodes)) (sep (chain nodeAt nodes p) R)) := by
  induction nodes generalizing fuel p R with
  | nil =>
      obtain ⟨fuel, rfl⟩ : ∃ f, fuel = f + 1 := ⟨fuel - 1, by simp at hfuel; omega⟩
      cases p with
      | none => exact Triple.pure (fun _ hs => fact_sep_iff.mpr ⟨rfl, hs⟩)
      | some a =>
          rintro h f n _ ⟨_, _, _, _, hfalse, _⟩
          exact hfalse.elim
  | cons n rest ih =>
      cases p with
      | none =>
          rintro h f n _ ⟨_, _, _, _, hfalse, _⟩
          exact hfalse.elim
      | some a =>
          obtain ⟨fuel, rfl⟩ : ∃ f, fuel = f + 1 := ⟨fuel - 1, by simp at hfuel; omega⟩
          refine Triple.pre (ex_sep _ _) (Triple.of_ex fun next => Triple.pre (sep_assoc _ _ _) ?_)
          refine (triple_keyOf a n next).reads ((triple_valueOf a n next).reads ?_)
          refine (triple_nextOf a n next).reads (Triple.pre (sep_left_comm _ _ _) ?_)
          refine (ih (by simp at hfuel; omega)).bind (fun text => Triple.of_fact (fun htext => ?_))
          refine Triple.pure (fun h hs => fact_sep_iff.mpr ⟨?_, fold_node hs⟩)
          rw [htext]
          rfl

theorem triple_showBucket (hfuel : ∀ i, (table i).length < fuel) (i : Fin TABLE_SIZE) :
    Triple (tableAt ht table) (showBucket fuel ht i)
      (fun r => sep (fact (r = showNodes (table i))) (tableAt ht table)) := by
  have hsame : tableAt ht table = tableAt ht (Function.update table i (table i)) := by
    rw [Function.update_eq_self]
  refine Triple.pre (tableAt_open ht table i) (Triple.of_ex fun heads => ?_)
  unfold bucketAt
  rw [Function.update_eq_self]
  refine (triple_loadTable ht heads).reads (Triple.pre (sep_left_comm _ _ _) ?_)
  refine (triple_showLoop (hfuel i)).consequence (fun _ h => h) (fun r h hs => ?_)
  obtain ⟨hr, hs⟩ := fact_sep_iff.mp hs
  have hbucket : bucketAt ht heads i (table i) (heads i) (others table heads i) h := by
    unfold bucketAt
    rwa [Function.update_eq_self, sep_left_comm]
  rw [hsame]
  exact fact_sep_iff.mpr ⟨hr, tableAt_close hbucket⟩

theorem triple_kvsShow (hfuel : ∀ i, (table i).length < fuel) (l : List (Fin TABLE_SIZE)) :
    Triple (tableAt ht table) (kvsShow fuel ht l)
      (fun r => sep (fact (r = l.flatMap (fun i => showNodes (table i)))) (tableAt ht table)) := by
  induction l with
  | nil => exact Triple.pure (fun _ hs => fact_sep_iff.mpr ⟨rfl, hs⟩)
  | cons i rest ih =>
      refine (triple_showBucket hfuel i).bind (fun text => Triple.of_fact (fun htext => ?_))
      refine ih.bind (fun more => Triple.of_fact (fun hmore => Triple.pure (fun h hs => ?_)))
      exact fact_sep_iff.mpr ⟨by rw [htext, hmore]; rfl, hs⟩

end Functions

/-! ## Calls in a row -/

variable {A : Allocator Block} {fuel : Nat} {ht : Addr}

/-- A call that has a result found the bucket of its key. -/
theorem onTable_some {op : HeapOp} {table : HashTable} {r : HashTable × HeapOut}
    (h : op.onTable table = some r) {key : CStr} (hkey : op.key = some key) :
    ∃ index, subscript (hash key) = some index := by
  cases hindex : subscript (hash key) with
  | some index => exact ⟨index, rfl⟩
  | none =>
      cases op <;> simp only [HeapOp.key, Option.some.injEq, reduceCtorEq] at hkey <;> subst hkey <;>
        simp [HeapOp.onTable, Server.writePair, Server.readPair, Server.deletePair, Server.addSubscriber,
          Server.removeSubscriber, Server.notifyClients, hindex] at h

/-- **Each call does to the pointers what it does to the lists.** -/
theorem triple_exec (op : HeapOp) {table table' : HashTable} {out : HeapOut}
    (hop : op.onTable table = some (table', out)) (hfuel : ∀ i, (table.table i).length < fuel) :
    Triple (tableAt ht table.table) (op.exec A fuel ht)
      (fun r => sep (fact (r = out)) (tableAt ht table'.table)) := by
  cases op with
  | write key value mem =>
      obtain ⟨index, hindex⟩ := onTable_some hop rfl
      simp only [HeapOp.onTable, Server.writePair, hindex, Option.bind_eq_bind, Option.bind_some,
        Option.pure_def, Option.map_some, Option.some.injEq, Prod.mk.injEq] at hop
      obtain ⟨rfl, rfl⟩ := hop
      exact (triple_writePair value mem hindex (hfuel index)).returns
  | read key =>
      obtain ⟨index, hindex⟩ := onTable_some hop rfl
      simp only [HeapOp.onTable, Server.readPair, hindex, Option.bind_eq_bind, Option.bind_some,
        Option.pure_def, Option.map_some, Option.some.injEq, Prod.mk.injEq] at hop
      obtain ⟨rfl, rfl⟩ := hop
      exact (triple_kvsReadOne hindex (hfuel index)).returns
  | delete key =>
      obtain ⟨index, hindex⟩ := onTable_some hop rfl
      simp only [HeapOp.onTable, Server.deletePair, hindex, Option.bind_eq_bind, Option.bind_some,
        Option.pure_def, Option.map_some, Option.some.injEq, Prod.mk.injEq] at hop
      obtain ⟨rfl, rfl⟩ := hop
      exact (triple_deletePair hindex (hfuel index)).returns
  | addSubscriber key fd =>
      obtain ⟨index, hindex⟩ := onTable_some hop rfl
      simp only [HeapOp.onTable, Server.addSubscriber, hindex, Option.bind_eq_bind, Option.bind_some,
        Option.pure_def, Option.map_some, Option.some.injEq, Prod.mk.injEq] at hop
      obtain ⟨rfl, rfl⟩ := hop
      exact (triple_changeSubscribers (addSlot fd) hindex (hfuel index)).returns
  | removeSubscriber key fd =>
      obtain ⟨index, hindex⟩ := onTable_some hop rfl
      simp only [HeapOp.onTable, Server.removeSubscriber, hindex, Option.bind_eq_bind, Option.bind_some,
        Option.pure_def, Option.map_some, Option.some.injEq, Prod.mk.injEq] at hop
      obtain ⟨rfl, rfl⟩ := hop
      exact (triple_changeSubscribers (removeSlot fd) hindex (hfuel index)).returns
  | notify key =>
      obtain ⟨index, hindex⟩ := onTable_some hop rfl
      simp only [HeapOp.onTable, Server.notifyClients, hindex, Option.bind_eq_bind,
        Option.bind_some] at hop
      have hsent : Triple (tableAt ht table.table) (notifyClients fuel ht key) _ :=
        triple_notifyClients hindex (hfuel index)
      cases hn : searchNode key (table.table index) with
      | none =>
          rw [hn] at hop hsent
          obtain ⟨rfl, rfl⟩ := Prod.mk.inj (Option.some.inj hop)
          exact hsent.returns
      | some keyNode =>
          rw [hn] at hop hsent
          obtain ⟨rfl, rfl⟩ := Prod.mk.inj (Option.some.inj hop)
          exact hsent.returns
  | «show» =>
      obtain ⟨rfl, rfl⟩ := Prod.mk.inj (Option.some.inj hop)
      exact (triple_kvsShow hfuel (List.finRange TABLE_SIZE)).returns

/-- A call makes a bucket longer by one node at most. -/
theorem onTable_length {op : HeapOp} {table table' : HashTable} {out : HeapOut}
    (hop : op.onTable table = some (table', out)) (i : Fin TABLE_SIZE) :
    (table'.table i).length ≤ (table.table i).length + 1 := by
  -- what a call does to the length of the bucket of its key
  have hset : ∀ index bucket, bucket.length ≤ (table.table index).length + 1 →
      ((table.set index bucket).table i).length ≤ (table.table i).length + 1 := by
    intro index bucket hlength
    by_cases hi : i = index
    · subst hi
      rwa [HashTable.set_self]
    · rw [HashTable.set_ne _ hi]
      exact Nat.le_succ _
  have hoverwrite : ∀ key f (bucket : List KeyNode),
      (Assoc.overwrite KeyNode.key key f bucket).length = bucket.length := by
    intro key f bucket
    induction bucket with
    | nil => rfl
    | cons n rest ih =>
        rw [Assoc.overwrite]
        split_ifs
        · rfl
        · rw [List.length_cons, List.length_cons, ih]
  have hslots : ∀ change key bucket, (changeSlots change key bucket).1.length = bucket.length := by
    intro change key bucket
    rw [changeSlots_eq]
    exact hoverwrite _ _ _
  cases op with
  | write key value mem =>
      obtain ⟨index, hindex⟩ := onTable_some hop rfl
      simp only [HeapOp.onTable, Server.writePair, hindex, Option.bind_eq_bind, Option.bind_some,
        Option.pure_def, Option.map_some, Option.some.injEq, Prod.mk.injEq] at hop
      obtain ⟨rfl, _⟩ := hop
      refine hset _ _ ?_
      rw [writeBucket]
      cases searchNode key (table.table index) with
      | some n =>
          simp only [overwriteNode_eq, hoverwrite]
          exact Nat.le_succ _
      | none => exact Nat.le_refl _
  | read key =>
      obtain ⟨v, _, heq⟩ := Option.map_eq_some_iff.mp hop
      obtain ⟨rfl, _⟩ := Prod.mk.inj heq
      exact Nat.le_succ _
  | delete key =>
      obtain ⟨index, hindex⟩ := onTable_some hop rfl
      simp only [HeapOp.onTable, Server.deletePair, hindex, Option.bind_eq_bind, Option.bind_some,
        Option.pure_def, Option.map_some, Option.some.injEq, Prod.mk.injEq] at hop
      obtain ⟨rfl, _⟩ := hop
      refine hset _ _ (Nat.le_succ_of_le ?_)
      induction table.table index with
      | nil => exact Nat.le_refl _
      | cons n rest ih =>
          rw [deleteBucket_cons]
          split_ifs
          · exact Nat.le_succ _
          · exact Nat.succ_le_succ ih
  | addSubscriber key fd =>
      obtain ⟨index, hindex⟩ := onTable_some hop rfl
      simp only [HeapOp.onTable, Server.addSubscriber, hindex, Option.bind_eq_bind, Option.bind_some,
        Option.pure_def, Option.map_some, Option.some.injEq, Prod.mk.injEq] at hop
      obtain ⟨rfl, _⟩ := hop
      exact hset _ _ (Nat.le_succ_of_le (hslots _ _ _).le)
  | removeSubscriber key fd =>
      obtain ⟨index, hindex⟩ := onTable_some hop rfl
      simp only [HeapOp.onTable, Server.removeSubscriber, hindex, Option.bind_eq_bind, Option.bind_some,
        Option.pure_def, Option.map_some, Option.some.injEq, Prod.mk.injEq] at hop
      obtain ⟨rfl, _⟩ := hop
      exact hset _ _ (Nat.le_succ_of_le (hslots _ _ _).le)
  | notify key =>
      obtain ⟨v, _, heq⟩ := Option.map_eq_some_iff.mp hop
      obtain ⟨rfl, _⟩ := Prod.mk.inj heq
      exact Nat.le_succ _
  | «show» =>
      obtain ⟨rfl, _⟩ := Prod.mk.inj (Option.some.inj hop)
      exact Nat.le_succ _

theorem runTable_length {ops : List HeapOp} {table table' : HashTable} {outs : List HeapOut}
    (h : runTable ops table = some (table', outs)) (i : Fin TABLE_SIZE) :
    (table'.table i).length ≤ (table.table i).length + ops.length := by
  induction ops generalizing table outs with
  | nil =>
      obtain ⟨rfl, _⟩ := Prod.mk.inj (Option.some.inj h)
      exact Nat.le_refl _
  | cons op ops ih =>
      obtain ⟨⟨u, out⟩, hu, hrest⟩ := Option.bind_eq_some_iff.mp h
      obtain ⟨⟨u', outs'⟩, hu', heq⟩ := Option.bind_eq_some_iff.mp hrest
      obtain ⟨rfl, _⟩ := Prod.mk.inj (Option.some.inj heq)
      have hstep := onTable_length hu i
      have hrest' := ih hu'
      rw [List.length_cons]
      omega

/-- **All calls**: the loops end within `fuel` iterations. -/
theorem triple_runOps {ops : List HeapOp} {table table' : HashTable} {outs : List HeapOut}
    (hops : runTable ops table = some (table', outs))
    (hfuel : ∀ i, (table.table i).length + ops.length < fuel) :
    Triple (tableAt ht table.table) (runOps A fuel ht ops)
      (fun r => sep (fact (r = outs)) (tableAt ht table'.table)) := by
  induction ops generalizing table outs with
  | nil =>
      obtain ⟨rfl, rfl⟩ := Prod.mk.inj (Option.some.inj hops)
      exact Triple.pure (fun h hs => fact_sep_iff.mpr ⟨rfl, hs⟩)
  | cons op ops ih =>
      obtain ⟨⟨u, out⟩, hu, hrest⟩ := Option.bind_eq_some_iff.mp hops
      obtain ⟨⟨u', outs'⟩, hu', heq⟩ := Option.bind_eq_some_iff.mp hrest
      obtain ⟨rfl, rfl⟩ := Prod.mk.inj (Option.some.inj heq)
      have hnext : ∀ i, (u.table i).length + ops.length < fuel := by
        intro i
        have hstep := onTable_length hu i
        have hi := hfuel i
        rw [List.length_cons] at hi
        omega
      refine (triple_exec op hu (fun i => Nat.lt_of_le_of_lt (Nat.le_add_right _ _) (hfuel i))).bind
        (fun r => Triple.of_fact (fun hr => ?_))
      rw [hr]
      exact (ih hu' hnext).returns

theorem triple_buildTable (mem : Fin TABLE_SIZE → Ptr) {ops : List HeapOp} {table : HashTable}
    {outs : List HeapOut} (hops : runTable ops Server.createHashTable = some (table, outs))
    (hfuel : ops.length < fuel) :
    Triple emp (buildTable A fuel mem ops)
      (fun r => sep (fact (r.2 = outs)) (tableAt r.1 table.table)) := by
  have hlength : ∀ i, (Server.createHashTable.table i).length + ops.length < fuel := by
    intro i
    show 0 + ops.length < fuel
    rwa [Nat.zero_add]
  refine (triple_createHashTable mem).bind (fun ht => ?_)
  refine (triple_runOps hops hlength).bind (fun r => Triple.of_fact (fun hr => Triple.pure (fun h hs => ?_)))
  exact fact_sep_iff.mpr ⟨hr, hs⟩

/-! ## A table in the memory of the server -/

/-- **The pointers of `kvs.c` refine the lists.** Take any calls that the lists answer, on a table that
    was just allocated, in a memory with any other blocks, with any allocator: the pointers give the same
    answers, no access or `free` goes astray, the other blocks are left alone, and the table has one block
    for its array and three for each of its nodes. The array of `notify_clients` is no block: it is for
    strings of up to 39 bytes (`notification`). -/
theorem heap_run_refines (A : Allocator Block) (fuel : Nat) (mem : Fin TABLE_SIZE → Ptr)
    (ops : List HeapOp) (table : HashTable) (outs : List HeapOut)
    (hops : runTable ops Server.createHashTable = some (table, outs)) (hfuel : ops.length < fuel)
    (other : Heap Block) (n : Nat) :
    ∃ ht h n', buildTable A fuel mem ops ⟨other, n⟩ = some ((ht, outs), ⟨h ∪ other, n'⟩) ∧
      h.Disjoint other ∧ tableAt ht table.table h ∧ h.keys.card = 1 + 3 * nodeCount table.table := by
  obtain ⟨⟨ht, r⟩, h, n', hrun, hd, hs⟩ := triple_buildTable (A := A) mem hops hfuel ∅ other n
    (Finmap.disjoint_empty other) rfl
  rw [Finmap.empty_union] at hrun
  obtain ⟨hr, htable⟩ := fact_sep_iff.mp hs
  subst hr
  exact ⟨ht, h, n', hrun, hd, htable, counts_tableAt ht table.table h htable⟩

/-- An allocator that takes the first address above those in use, freed or not. -/
def topAllocator : Allocator Block where
  pick _ h := h.keys.sup id + 1
  fresh _ h hmem := by
    have hle : h.keys.sup id + 1 ≤ h.keys.sup id := Finset.le_sup (f := id) (Finmap.mem_keys.mpr hmem)
    exact absurd hle (Nat.not_succ_le_self _)

/-- A node whose memory was never used. -/
def zeroNode : NodeBlock := ⟨none, none, Vector.replicate MAX_SESSION_COUNT 0, none⟩

/-- Two keys of one bucket: both written, one of them twice, and the first of them deleted. -/
def sharedBucket : List HeapOp :=
  [.write (CStr.ofBuffer (ascii "a")) (CStr.ofBuffer (ascii "1")) zeroNode,
    .write (CStr.ofBuffer (ascii "A")) (CStr.ofBuffer (ascii "2")) zeroNode,
    .write (CStr.ofBuffer (ascii "a")) (CStr.ofBuffer (ascii "3")) zeroNode,
    .addSubscriber (CStr.ofBuffer (ascii "a")) 7, .delete (CStr.ofBuffer (ascii "A")),
    .read (CStr.ofBuffer (ascii "a")), .show]

/-- What they return. -/
def sharedBucketOuts : List HeapOut :=
  [.ret 0, .ret 0, .ret 0, .ret 0, .ret 0, .value (some (CStr.ofBuffer (ascii "3"))),
    .shown (ascii "(a, 3)\n")]

theorem sharedBucket_outs :
    ∃ table, runTable sharedBucket Server.createHashTable = some (table, sharedBucketOuts) := by
  have houts : (runTable sharedBucket Server.createHashTable).map Prod.snd = some sharedBucketOuts := by
    decide +kernel
  obtain ⟨⟨table, outs⟩, hrun, rfl⟩ := Option.map_eq_some_iff.mp houts
  exact ⟨table, hrun⟩

theorem heap_run_refines_sharedBucket :
    ∃ table ht h n', buildTable topAllocator 8 (fun _ => none) sharedBucket ⟨∅, 0⟩
        = some ((ht, sharedBucketOuts), ⟨h ∪ ∅, n'⟩) ∧
      h.Disjoint ∅ ∧ tableAt ht table h ∧ h.keys.card = 1 + 3 * nodeCount table := by
  obtain ⟨table, hrun⟩ := sharedBucket_outs
  exact ⟨table.table, heap_run_refines topAllocator 8 (fun _ => none) sharedBucket table _ hrun
    (by decide) ∅ 0⟩

/-- **Nothing is leaked**, and nothing freed twice: after `free_table` the memory has the blocks that it
    had before `create_hash_table`, whatever calls came in between. -/
theorem heap_lifetime (A : Allocator Block) (fuel : Nat) (mem : Fin TABLE_SIZE → Ptr)
    (ops : List HeapOp) (table : HashTable) (outs : List HeapOut)
    (hops : runTable ops Server.createHashTable = some (table, outs)) (hfuel : ops.length < fuel)
    (other : Heap Block) (n : Nat) :
    ∃ n', lifetime A fuel mem ops ⟨other, n⟩ = some (outs, ⟨other, n'⟩) := by
  have hlength : ∀ i, (table.table i).length < fuel := by
    intro i
    have h := runTable_length hops i
    have hempty : (Server.createHashTable.table i).length = 0 := rfl
    omega
  have hlife : Triple emp (lifetime A fuel mem ops) (fun r => sep (fact (r = outs)) emp) := by
    refine (triple_buildTable mem hops hfuel).bind (fun r => Triple.of_fact (fun hr => ?_))
    refine (triple_freeTable hlength).bind (fun _ => Triple.pure (fun h hs => ?_))
    exact fact_sep_iff.mpr ⟨hr, hs⟩
  obtain ⟨r, h, n', hrun, _, hs⟩ := hlife ∅ other n (Finmap.disjoint_empty other) rfl
  obtain ⟨rfl, rfl⟩ := fact_sep_iff.mp hs
  rw [Finmap.empty_union] at hrun
  exact ⟨n', hrun⟩

theorem heap_lifetime_sharedBucket :
    ∃ n', lifetime topAllocator 8 (fun _ => none) sharedBucket ⟨∅, 0⟩
      = some (sharedBucketOuts, ⟨∅, n'⟩) := by
  obtain ⟨table, hrun⟩ := sharedBucket_outs
  exact heap_lifetime topAllocator 8 (fun _ => none) sharedBucket table _ hrun (by decide) ∅ 0

end Kvs.Server.HeapTable
