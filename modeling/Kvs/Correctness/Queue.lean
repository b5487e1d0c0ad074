import Kvs.Server.Register

/-!
# `Correctness.Queue` — the registration queue loses and repeats nothing

The queue of `BUFFER` with one abstract item a slot, for any number of managers and every schedule of the
host and the managers. The copies made so far are of the items stored first, in the order in which they
were stored; no slot is written over before its item has been copied, nor copied before it is filled;
and every run comes to an end, with everything copied as soon as there is a manager
(`items_copied_once`).
-/

namespace Kvs.Server

open BoundedBuffer

variable {Item : Type}

/-- A slot that holds one item: what is stored replaces what was there. -/
def storeItem (_slot : Option Item) (item : Item) : Option Item := some item

/-- `BUFFER` with an item a slot, none at the start, and the items that the host will store. -/
def itemQueue (T : Type) (items : List Item) : State MAX_SESSION_COUNT T (Option Item) Item :=
  .init (fun _ => none) items

theorem leftAt_storeItem {slots : Fin MAX_SESSION_COUNT → Option Item} {items : List Item} {j : Nat}
    (hj : j < items.length) : leftAt storeItem slots items j = some items[j] :=
  leftAt_eq (List.getElem?_eq_getElem hj)

variable {T : Type} [Fintype T] [DecidableEq T]

omit [DecidableEq T] in
/-- The copies are of the items stored, in their order. -/
theorem taken_eq_deposited {items : List Item} {s : State MAX_SESSION_COUNT T (Option Item) Item}
    (h : RingInv storeItem (fun _ => none) items s) :
    s.taken.map Prod.snd = (s.deposited.take s.taken.length).map some := by
  have hi := h.items
  apply List.ext_getElem
  · simp only [List.length_map, List.length_take]
    omega
  · intro j hj _
    rw [List.length_map] at hj
    have hj' : j < s.deposited.length := by omega
    simp only [List.getElem_map, List.getElem_take]
    rw [h.taken j hj, leftAt_storeItem hj']

/-- **One copy of every item, in order.** In every state that any schedule reaches, the `j`-th copy made
    by any manager is of the `j`-th item stored. When the host is about to store, the items that its slot
    held have been copied; when a manager is about to copy, its slot holds the first item not copied yet.
    Every schedule stops, and when it does the items have all been stored and copied, if there is a
    manager. -/
theorem items_copied_once (items : List Item) {sched : List (Thread T)}
    {s : State MAX_SESSION_COUNT T (Option Item) Item}
    (hrun : run storeItem sched (itemQueue T items) = some s) :
    (s.taken.map Prod.snd = (s.deposited.take s.taken.length).map some ∧
      s.taken.length ≤ s.deposited.length ∧ s.deposited <+: items) ∧
    (s.producer = .deposit → ∀ k < s.deposited.length,
      slotOf MAX_SESSION_COUNT k = s.writeIndex → k < s.taken.length) ∧
    (∀ t, s.consumers t = .copy → ∃ item, s.deposited[s.taken.length]? = some item ∧
      s.slots s.readIndex = some item) ∧
    sched.length ≤ 10 * items.length + 1 ∧
    (Blocked storeItem s → Nonempty T →
      s.deposited = items ∧ s.taken.map Prod.snd = items.map some) := by
  have h : RingInv storeItem (fun _ => none) items s := ringInv_run hrun
  have hcopies := taken_eq_deposited h
  refine ⟨⟨hcopies, ?_, ?_⟩, ?_, ?_, ?_, ?_⟩
  · have hi := h.items
    omega
  · exact ⟨s.pending, h.stream⟩
  · intro hpc k hk hslot
    exact h.copied_of_deposit hpc hk hslot
  · intro t hpc
    obtain ⟨hlt, hslot⟩ := h.filled_of_copy hpc
    exact ⟨s.deposited[s.taken.length], List.getElem?_eq_getElem hlt,
      hslot.trans (leftAt_storeItem hlt)⟩
  · have hwork := work_run hrun
    have hstart : work (itemQueue T items) = 10 * items.length + 1 := by
      simp [work, itemQueue, State.init, ProducerPc.work, ConsumerPc.work]
    omega
  · intro hblocked hmanager
    obtain ⟨hall, hlength⟩ := h.done_of_blocked hblocked
    refine ⟨hall, ?_⟩
    rw [hcopies, hall, hlength, List.take_length]

/-- The host stores two items and reserves a third slot; the second manager claims its item while the
    first is copying. -/
def twoManagers : List (Thread Bool) :=
  List.replicate 9 .producer ++ [.consumer false, .consumer false, .consumer true] ++
    List.replicate 4 (.consumer false) ++ List.replicate 5 (.consumer true)

/-- Both managers copy, each its own item. -/
theorem items_copied_once_twoManagers :
    ∃ s, run storeItem twoManagers (itemQueue Bool [7, 8]) = some s ∧
      s.taken = [(false, some 7), (true, some 8)] ∧
      (s.taken.map Prod.snd = (s.deposited.take s.taken.length).map some ∧
        s.taken.length ≤ s.deposited.length ∧ s.deposited <+: [7, 8]) ∧
      (s.producer = .deposit → ∀ k < s.deposited.length,
        slotOf MAX_SESSION_COUNT k = s.writeIndex → k < s.taken.length) ∧
      (∀ t, s.consumers t = .copy → ∃ item, s.deposited[s.taken.length]? = some item ∧
        s.slots s.readIndex = some item) ∧
      twoManagers.length ≤ 10 * [7, 8].length + 1 ∧
      (Blocked storeItem s → Nonempty Bool →
        s.deposited = [7, 8] ∧ s.taken.map Prod.snd = [7, 8].map some) := by
  have hends : (run storeItem twoManagers (itemQueue Bool [7, 8])).any
      (fun s => decide (s.taken = [(false, some 7), (true, some 8)])) = true := by
    decide +kernel
  obtain ⟨s, hrun, htaken⟩ := (Option.any_eq_true _ _).mp hends
  exact ⟨s, hrun, of_decide_eq_true htaken, items_copied_once [7, 8] hrun⟩

end Kvs.Server
