import Kvs.Correctness.Records
import Kvs.Lib.Transition
import Kvs.Server.Lifecycle

/-!
# `Correctness.Lifecycle` — from `kvs_init` to `kvs_terminate`

`stepIdeal` is the store as its guards mean it: a table between a `kvs_init` and the next `kvs_terminate`,
and nothing outside. `kvs_terminate` frees the table but leaves `kvs_table` pointing to it, so from then
on every guard lets its function through. The code behaves as meant exactly on the sequences in which no
call follows that `kvs_terminate`, and no operation before it leaves an array of its own
(`lifecycle_iff`).
-/

namespace Kvs.Server

open Transition

/-! ## What the guards mean -/

/-- The store as meant: usable, with its contents, or not. -/
def stepIdeal : Option HashTable → KvsCall → Option (Option HashTable × Reply)
  | none, .init => some (some createHashTable, 0, [])
  | none, .terminate => some (none, 1, [])
  | none, .op _ => some (none, 1, [])
  | some ht, .init => some (some ht, 1, [])
  | some _, .terminate => some (none, 0, [])
  | some ht, .op o => (o.onTable ht).map (fun r => (some r.1, r.2))

/-- The code answers these calls as meant, from the first call of the program on, and the table that can
    be reached in the end is the one meant. -/
def LifecycleHolds (calls : List KvsCall) : Prop :=
  AnswersAlike stepStore stepIdeal (fun s t => s.deref = t) calls Store.initial none

/-- The operation stays inside of its arrays when it runs on this table: the strings it hashes have a
    bucket, and the records it formats fit. -/
def KvsOp.StaysInside (ht : HashTable) : KvsOp → Prop
  | .write pairs _ => ∀ key ∈ pairs.map Prod.fst, HasBucket key
  | .read keys => ∀ key ∈ keys, HasBucket key ∧ Sequential.ReadFits ht key
  | .delete keys => ∀ key ∈ keys, HasBucket key ∧ Sequential.DeleteFits ht keys key
  | .subscribe key _ => HasBucket key
  | .unsubscribe key _ => HasBucket key

/-- The table that the operation leaves. -/
def KvsOp.after (ht : HashTable) (o : KvsOp) : HashTable := ((o.onTable ht).map Prod.fst).getD ht

/-- No call follows a `kvs_terminate` that had something to free, and every operation stays inside of its
    arrays. The first argument is the table of the store, once it is initialised. -/
def TerminatesLast : Option HashTable → List KvsCall → Prop
  | _, [] => True
  | none, .init :: calls => TerminatesLast (some createHashTable) calls
  | none, .terminate :: calls => TerminatesLast none calls
  | none, .op _ :: calls => TerminatesLast none calls
  | some ht, .init :: calls => TerminatesLast (some ht) calls
  | some _, .terminate :: calls => calls = []
  | some ht, .op o :: calls => o.StaysInside ht ∧ TerminatesLast (some (o.after ht)) calls

/-! ## The calls -/

/-- **An operation on a table** is defined exactly when it stays inside of its arrays. -/
theorem onTable_isSome_iff (o : KvsOp) {ht : HashTable} (hI : TableInv ht) :
    (o.onTable ht).isSome ↔ o.StaysInside ht := by
  cases o with
  | write pairs mem =>
      unfold KvsOp.onTable onWorld
      rw [Option.isSome_map]
      exact Sequential.kvsWrite_isSome_iff pairs mem _
  | read keys =>
      unfold KvsOp.onTable onWorld
      rw [Option.isSome_map]
      exact Sequential.kvsReadAt_isSome_iff keys _
  | delete keys =>
      unfold KvsOp.onTable onWorld
      rw [Option.isSome_map]
      exact @Sequential.kvsDeleteAt_isSome_iff keys ⟨ht, [], []⟩ hI
  | subscribe key fd =>
      unfold KvsOp.onTable quietly
      rw [Option.isSome_map]
      exact kvsSubscribe_isSome_iff ht key fd
  | unsubscribe key fd =>
      unfold KvsOp.onTable quietly
      rw [Option.isSome_map]
      exact kvsUnsubscribe_isSome_iff ht key fd

/-! The operations keep the keys unique and in their buckets, since the functions of `kvs.c` do. -/

theorem writeLoop_tableInv {mem : Nat → Garbage} {i : Nat} {pairs : List (CStr × CStr)}
    {ht ht' : HashTable} (hI : TableInv ht) (h : Sequential.writeLoop mem i pairs ht = some ht') :
    TableInv ht' := by
  induction pairs generalizing i ht with
  | nil => exact Option.some.inj h ▸ hI
  | cons pair pairs ih =>
      obtain ⟨key, value⟩ := pair
      simp only [Sequential.writeLoop, Option.bind_eq_bind, Option.bind_eq_some_iff] at h
      obtain ⟨⟨ht₁, ret⟩, hwrite, hrest⟩ := h
      have hstep : (TableOp.write key value (mem i)).step ht = some ht₁ := by
        simp only [TableOp.step, TableOp.exec, hwrite, Option.map_some]
      exact ih (hI.step hstep) hrest

theorem deleteLoopAt_tableInv {keys : List CStr} {ht ht' : HashTable} {results : List (CStr × Int)}
    (hI : TableInv ht) (h : Sequential.deleteLoopAt keys ht = some (ht', results)) : TableInv ht' := by
  induction keys generalizing ht results with
  | nil => exact (Prod.mk.inj (Option.some.inj h)).1 ▸ hI
  | cons key keys ih =>
      simp only [Sequential.deleteLoopAt, Option.bind_eq_bind, Option.bind_eq_some_iff] at h
      obtain ⟨⟨ht₁, ret⟩, hdelete, _, _, ⟨ht₂, rest⟩, hrest, hresults⟩ := h
      obtain ⟨rfl, -⟩ := Prod.mk.inj (Option.some.inj hresults)
      have hstep : (TableOp.delete key).step ht = some ht₁ := by
        simp only [TableOp.step, TableOp.exec, hdelete, Option.map_some]
      exact ih (hI.step hstep) hrest

theorem onWorld_table {f : Sequential.World → Option Sequential.World} {ht ht' : HashTable} {r : Reply}
    (h : onWorld f ht = some (ht', r)) : ∃ w, f ⟨ht, [], []⟩ = some w ∧ w.table = ht' := by
  obtain ⟨w, hw, hr⟩ := Option.map_eq_some_iff.mp h
  exact ⟨w, hw, congrArg Prod.fst hr⟩

theorem onTable_tableInv {o : KvsOp} {ht ht' : HashTable} {r : Reply} (hI : TableInv ht)
    (h : o.onTable ht = some (ht', r)) : TableInv ht' := by
  cases o with
  | write pairs mem =>
      obtain ⟨w, hw, rfl⟩ := onWorld_table h
      simp only [Sequential.kvsWrite, Option.bind_eq_bind, Option.bind_eq_some_iff] at hw
      obtain ⟨_, _, table, htable, hw⟩ := hw
      obtain rfl := Option.some.inj hw
      exact writeLoop_tableInv hI htable
  | read keys =>
      obtain ⟨w, hw, rfl⟩ := onWorld_table h
      simp only [Sequential.kvsReadAt, Option.bind_eq_bind, Option.bind_eq_some_iff] at hw
      obtain ⟨_, _, results, _, hw⟩ := hw
      obtain rfl := Option.some.inj hw
      exact hI
  | delete keys =>
      obtain ⟨w, hw, rfl⟩ := onWorld_table h
      simp only [Sequential.kvsDeleteAt, Option.bind_eq_bind, Option.bind_eq_some_iff] at hw
      obtain ⟨_, _, ⟨table, results⟩, htable, hw⟩ := hw
      obtain rfl := Option.some.inj hw
      exact deleteLoopAt_tableInv hI htable
  | subscribe key fd =>
      obtain ⟨⟨table, ret⟩, hsub, hr⟩ := Option.map_eq_some_iff.mp h
      simp only [kvsSubscribe, Option.bind_eq_bind, Option.bind_eq_some_iff] at hsub
      obtain ⟨_, _, hadd⟩ := hsub
      have hstep : (TableOp.addSubscriber key fd).step ht = some table := by
        simp only [TableOp.step, TableOp.exec, hadd, Option.map_some]
      exact (Prod.mk.inj hr).1 ▸ hI.step hstep
  | unsubscribe key fd =>
      obtain ⟨⟨table, ret⟩, hunsub, hr⟩ := Option.map_eq_some_iff.mp h
      simp only [kvsUnsubscribe, Option.bind_eq_bind, Option.bind_eq_some_iff] at hunsub
      obtain ⟨_, _, hremove⟩ := hunsub
      have hstep : (TableOp.removeSubscriber key fd).step ht = some table := by
        simp only [TableOp.step, TableOp.exec, hremove, Option.map_some]
      exact (Prod.mk.inj hr).1 ▸ hI.step hstep

/-! ## The states of the store -/

/-- The store before the first `kvs_init`. -/
def Store.IsNull (s : Store) : Prop := s.kvsTable = none

/-- The store while `kvs_table` points to the table `ht`. -/
def Store.Holds (s : Store) (ht : HashTable) : Prop := ∃ p, s.kvsTable = some p ∧ s.tables p = some ht

/-- The store once the table was freed: `kvs_table` still points to it. -/
def Store.Dangles (s : Store) : Prop := ∃ p, s.kvsTable = some p ∧ s.tables p = none

theorem Store.IsNull.deref {s : Store} (h : s.IsNull) : s.deref = none := by
  unfold Store.deref
  rw [h]
  rfl

theorem Store.Holds.deref {s : Store} {ht : HashTable} (h : s.Holds ht) : s.deref = some ht := by
  obtain ⟨p, hp, htable⟩ := h
  unfold Store.deref
  rw [hp]
  exact htable

theorem Store.Dangles.deref {s : Store} (h : s.Dangles) : s.deref = none := by
  obtain ⟨p, hp, htable⟩ := h
  unfold Store.deref
  rw [hp]
  exact htable

/-- Before the first `kvs_init` a call only returns 1, and `kvs_init` makes an empty table. -/
theorem stepStore_null {s : Store} (h : s.IsNull) :
    (∃ s', stepStore s .init = some (s', 0, []) ∧ s'.Holds createHashTable) ∧
      stepStore s .terminate = some (s, 1, []) ∧ ∀ o, stepStore s (.op o) = some (s, 1, []) := by
  unfold Store.IsNull at h
  refine ⟨?_, ?_, ?_⟩
  · simp only [stepStore, kvsInit, h]
    exact ⟨_, rfl, s.allocated, rfl, s.setTable_tables _ _⟩
  · simp only [stepStore, kvsTerminate, h]
  · intro o
    simp only [stepStore, guarded, h]

/-- While `kvs_table` points to a table, the operations work on it, a second `kvs_init` returns 1, and
    `kvs_terminate` frees it. -/
theorem stepStore_holds {s : Store} {ht : HashTable} (h : s.Holds ht) :
    stepStore s .init = some (s, 1, []) ∧
      (∃ s', stepStore s .terminate = some (s', 0, []) ∧ s'.Dangles) ∧
      (∀ o, o.onTable ht = none → stepStore s (.op o) = none) ∧
      ∀ o ht' r, o.onTable ht = some (ht', r) →
        ∃ s', stepStore s (.op o) = some (s', r) ∧ s'.Holds ht' := by
  obtain ⟨p, hp, htable⟩ := h
  refine ⟨?_, ?_, ?_, ?_⟩
  · simp only [stepStore, kvsInit, hp]
  · simp only [stepStore, kvsTerminate, hp, htable]
    exact ⟨_, rfl, p, hp, s.setTable_tables p none⟩
  · intro o hnone
    simp only [stepStore, guarded, hp, htable, hnone]
    rfl
  · intro o ht' r hsome
    simp only [stepStore, guarded, hp, htable, hsome]
    exact ⟨_, rfl, p, hp, s.setTable_tables p _⟩

/-- **Once the table is freed** no call is answered as meant: `kvs_init` finds `kvs_table` set, and all
    others access the freed table. -/
theorem stepStore_dangles {s : Store} (h : s.Dangles) (c : KvsCall) :
    ¬ ∃ s' t' r, stepStore s c = some (s', r) ∧ stepIdeal none c = some (t', r) := by
  obtain ⟨p, hp, htable⟩ := h
  rintro ⟨s', t', r, hstep, hideal⟩
  cases c with
  | init =>
      -- 1 is returned where 0 is meant
      simp only [stepStore, kvsInit, hp, Option.some.injEq, Prod.mk.injEq] at hstep
      simp only [stepIdeal, Option.some.injEq, Prod.mk.injEq] at hideal
      have hret : (1, []) = ((0, []) : Reply) := hstep.2.trans hideal.2.symm
      exact absurd (congrArg Prod.fst hret) (by simp)
  | terminate =>
      simp only [stepStore, kvsTerminate, hp, htable] at hstep
      exact absurd hstep (by simp)
  | op o =>
      simp only [stepStore, guarded, hp, htable] at hstep
      exact absurd hstep (by simp)

/-! ## Sequences of calls -/

/-- One call that is answered as meant, and the others behind it. -/
theorem alike_cons_iff {s s' : Store} {t t' : Option HashTable} {c : KvsCall} {r : Reply}
    (hstep : stepStore s c = some (s', r)) (hideal : stepIdeal t c = some (t', r))
    (calls : List KvsCall) :
    AnswersAlike stepStore stepIdeal (fun s t => s.deref = t) (c :: calls) s t ↔
      AnswersAlike stepStore stepIdeal (fun s t => s.deref = t) calls s' t' := by
  rw [answersAlike_cons]
  constructor
  · rintro ⟨u, v, q, hu, hv, h⟩
    rw [hstep] at hu
    rw [hideal] at hv
    obtain ⟨rfl, -⟩ := Prod.mk.inj (Option.some.inj hu)
    obtain ⟨rfl, -⟩ := Prod.mk.inj (Option.some.inj hv)
    exact h
  · intro h
    exact ⟨s', t', r, hstep, hideal, h⟩

/-- Once the table is freed, only the empty sequence is answered as meant. -/
theorem alike_dangles_iff {s : Store} (h : s.Dangles) (calls : List KvsCall) :
    AnswersAlike stepStore stepIdeal (fun s t => s.deref = t) calls s none ↔ calls = [] := by
  cases calls with
  | nil =>
      rw [answersAlike_nil]
      exact iff_of_true h.deref rfl
  | cons c calls =>
      rw [answersAlike_cons]
      refine iff_of_false ?_ (by simp)
      rintro ⟨s', t', r, hstep, hideal, -⟩
      exact stepStore_dangles h c ⟨s', t', r, hstep, hideal⟩

/-- While the store is initialised. -/
theorem alike_holds_iff {s : Store} {ht : HashTable} (h : s.Holds ht) (hI : TableInv ht)
    (calls : List KvsCall) :
    AnswersAlike stepStore stepIdeal (fun s t => s.deref = t) calls s (some ht) ↔
      TerminatesLast (some ht) calls := by
  induction calls generalizing s ht with
  | nil =>
      rw [answersAlike_nil]
      exact iff_of_true h.deref trivial
  | cons c calls ih =>
      obtain ⟨hinit, ⟨s', hterm, hdangles⟩, hundef, hop⟩ := stepStore_holds h
      cases c with
      | init =>
          rw [alike_cons_iff hinit rfl]
          exact ih h hI
      | terminate =>
          rw [alike_cons_iff hterm rfl]
          exact alike_dangles_iff hdangles calls
      | op o =>
          have hinside := onTable_isSome_iff o hI
          cases hresult : o.onTable ht with
          | none =>
              -- a subscript or a store outside of an array
              rw [answersAlike_cons]
              refine iff_of_false ?_ ?_
              · rintro ⟨u, v, r, hu, -⟩
                rw [hundef o hresult] at hu
                exact absurd hu (by simp)
              · rintro ⟨hstays, -⟩
                rw [hresult] at hinside
                exact absurd (hinside.mpr hstays) (by simp)
          | some result =>
              obtain ⟨ht', r⟩ := result
              obtain ⟨s'', hs'', hholds⟩ := hop o ht' r hresult
              have hideal : stepIdeal (some ht) (.op o) = some (some ht', r) := by
                simp only [stepIdeal, hresult, Option.map_some]
              have hafter : o.after ht = ht' := by
                simp only [KvsOp.after, hresult, Option.map_some, Option.getD_some]
              rw [alike_cons_iff hs'' hideal, ih hholds (onTable_tableInv hI hresult), TerminatesLast,
                hafter]
              rw [hresult] at hinside
              exact (and_iff_right (hinside.mp rfl)).symm

/-- Before the first `kvs_init`. -/
theorem alike_null_iff {s : Store} (h : s.IsNull) (calls : List KvsCall) :
    AnswersAlike stepStore stepIdeal (fun s t => s.deref = t) calls s none ↔
      TerminatesLast none calls := by
  induction calls with
  | nil =>
      rw [answersAlike_nil]
      exact iff_of_true h.deref trivial
  | cons c calls ih =>
      obtain ⟨⟨s', hinit, hholds⟩, hterm, hop⟩ := stepStore_null h
      cases c with
      | init =>
          rw [alike_cons_iff hinit rfl]
          exact alike_holds_iff hholds tableInv_create calls
      | terminate =>
          rw [alike_cons_iff hterm rfl]
          exact ih
      | op o =>
          rw [alike_cons_iff (hop o) rfl]
          exact ih

/-- **When the guards do what they are meant to.** The calls are answered as by a store that is usable
    exactly between a `kvs_init` and the next `kvs_terminate`, with no access to a freed table, if and
    only if the first `kvs_terminate` behind a `kvs_init` is the last call, and before it the strings
    hashed start with a letter or a digit and the records formatted fit their array. -/
theorem lifecycle_iff (calls : List KvsCall) : LifecycleHolds calls ↔ TerminatesLast none calls :=
  @alike_null_iff Store.initial rfl calls

/-- **A second `kvs_init` is refused** although the store was terminated, and a second `kvs_terminate`
    frees the table again. -/
theorem init_after_terminate :
    ¬ LifecycleHolds [.init, .terminate, .init] ∧ ¬ LifecycleHolds [.init, .terminate, .terminate] ∧
      replies stepStore [.init, .terminate, .terminate] Store.initial = none := by
  have hfalse : ∀ c, ¬ LifecycleHolds [.init, .terminate, c] := by
    intro c h
    have hnull : Store.initial.IsNull := rfl
    have hlast : TerminatesLast none [.init, .terminate, c] := (alike_null_iff hnull _).mp h
    exact absurd hlast (by simp [TerminatesLast])
  refine ⟨hfalse .init, hfalse .terminate, ?_⟩
  simp [replies, stepStore, kvsInit, kvsTerminate, Store.initial, Store.setTable]

end Kvs.Server
