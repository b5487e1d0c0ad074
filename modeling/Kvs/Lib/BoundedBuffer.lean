import Kvs.Lib.Mutex
import Mathlib

/-!
# `Lib.BoundedBuffer` — a ring of slots between one producer and many consumers

The textbook queue: two counting semaphores, a mutex for the consumers, and a ring of slots. Every line
of the two loops is a step of its own, so the producer writes a slot while any number of consumers stand
anywhere in theirs. A deposit need not replace what the slot held: `write` says what it makes of it.

`RingInv` ties the semaphores, both indices and the program counters to the number of deposits and of
copies. From it, whatever the schedule, the consumers copy the deposits in order, each slot as the
deposit left it (`taken_eq`).
-/

namespace BoundedBuffer

/-- Where the producer stands in its loop. -/
inductive ProducerPc where
  | waitSpace
  | deposit
  | advance
  | postItem
  deriving DecidableEq, Repr

/-- Where a consumer stands in its loop. -/
inductive ConsumerPc where
  | waitItem
  | lock
  | copy
  | advance
  | unlock
  | postSpace
  deriving DecidableEq, Repr

/-- The ring with both indices, the mutex and both semaphores, the threads, what is still to be
    deposited, and the history: what has been deposited, and which consumer copied what. -/
structure State (n : Nat) (T σ δ : Type*) where
  slots : Fin n → σ
  writeIndex : Fin n
  readIndex : Fin n
  mutex : Option T
  space : Nat
  items : Nat
  producer : ProducerPc
  consumers : T → ConsumerPc
  pending : List δ
  deposited : List δ
  taken : List (T × σ)

/-- The threads that are scheduled. -/
inductive Thread (T : Type*) where
  | producer
  | consumer (t : T)
  deriving DecidableEq, Repr

variable {n : Nat} [NeZero n] {T σ δ : Type*}

namespace State

/-- Empty slots, all of them free, and every thread at the start of its loop. -/
def init (slots : Fin n → σ) (pending : List δ) : State n T σ δ where
  slots := slots
  writeIndex := 0
  readIndex := 0
  mutex := none
  space := n
  items := 0
  producer := .waitSpace
  consumers := fun _ => .waitItem
  pending := pending
  deposited := []
  taken := []

/-- The state with consumer `t` moved. -/
def move [DecidableEq T] (s : State n T σ δ) (t : T) (pc : ConsumerPc) : State n T σ δ :=
  { s with consumers := Function.update s.consumers t pc }

end State

/-- The next line of the producer's loop; `none` when it waits. -/
def stepProducer (write : σ → δ → σ) (s : State n T σ δ) : Option (State n T σ δ) :=
  match s.producer with
  | .waitSpace =>
      if 0 < s.space then some { s with space := s.space - 1, producer := .deposit } else none
  | .deposit =>
      match s.pending with
      | [] => none
      | d :: ds =>
          some { s with
            slots := Function.update s.slots s.writeIndex (write (s.slots s.writeIndex) d)
            pending := ds
            deposited := s.deposited ++ [d]
            producer := .advance }
  | .advance => some { s with writeIndex := s.writeIndex + 1, producer := .postItem }
  | .postItem => some { s with items := s.items + 1, producer := .waitSpace }

section Semantics

variable [DecidableEq T]

/-- The next line of the loop of consumer `t`; `none` when it waits. -/
def stepConsumer (t : T) (s : State n T σ δ) : Option (State n T σ δ) :=
  match s.consumers t with
  | .waitItem =>
      if 0 < s.items then some { s.move t .lock with items := s.items - 1 } else none
  | .lock => if s.mutex = none then some { s.move t .copy with mutex := some t } else none
  | .copy => some { s.move t .advance with taken := s.taken ++ [(t, s.slots s.readIndex)] }
  | .advance => some { s.move t .unlock with readIndex := s.readIndex + 1 }
  | .unlock => some { s.move t .postSpace with mutex := none }
  | .postSpace => some { s.move t .waitItem with space := s.space + 1 }

/-- One step of the thread that is scheduled. -/
def step (write : σ → δ → σ) (s : State n T σ δ) : Thread T → Option (State n T σ δ)
  | .producer => stepProducer write s
  | .consumer t => stepConsumer t s

/-- The run of a schedule: the threads step in the order given. -/
def run (write : σ → δ → σ) : List (Thread T) → State n T σ δ → Option (State n T σ δ)
  | [], s => some s
  | t :: ts, s => (step write s t).bind (run write ts)

/-- What one step can do, one rule for each line of the two loops. -/
inductive Step (write : σ → δ → σ) (s : State n T σ δ) : State n T σ δ → Prop where
  | reserve (hpc : s.producer = .waitSpace) (hspace : 0 < s.space) :
      Step write s { s with space := s.space - 1, producer := .deposit }
  | deposit {d : δ} {ds : List δ} (hpc : s.producer = .deposit) (hpending : s.pending = d :: ds) :
      Step write s { s with
        slots := Function.update s.slots s.writeIndex (write (s.slots s.writeIndex) d)
        pending := ds
        deposited := s.deposited ++ [d]
        producer := .advance }
  | advanceWrite (hpc : s.producer = .advance) :
      Step write s { s with writeIndex := s.writeIndex + 1, producer := .postItem }
  | announce (hpc : s.producer = .postItem) :
      Step write s { s with items := s.items + 1, producer := .waitSpace }
  | claim {t : T} (hpc : s.consumers t = .waitItem) (hitems : 0 < s.items) :
      Step write s { s.move t .lock with items := s.items - 1 }
  | lock {t : T} (hpc : s.consumers t = .lock) (hfree : s.mutex = none) :
      Step write s { s.move t .copy with mutex := some t }
  | copy {t : T} (hpc : s.consumers t = .copy) :
      Step write s { s.move t .advance with taken := s.taken ++ [(t, s.slots s.readIndex)] }
  | advanceRead {t : T} (hpc : s.consumers t = .advance) :
      Step write s { s.move t .unlock with readIndex := s.readIndex + 1 }
  | unlock {t : T} (hpc : s.consumers t = .unlock) :
      Step write s { s.move t .postSpace with mutex := none }
  | free {t : T} (hpc : s.consumers t = .postSpace) :
      Step write s { s.move t .waitItem with space := s.space + 1 }

/-- **Inversion.** A step of the executable semantics is one of the ten rules. -/
theorem step_inv {write : σ → δ → σ} {s s' : State n T σ δ} {t : Thread T}
    (h : step write s t = some s') : Step write s s' := by
  cases t with
  | producer =>
      simp only [step, stepProducer] at h
      split at h
      · rename_i hpc
        split at h
        · rename_i hspace
          exact Option.some.inj h ▸ Step.reserve hpc hspace
        · exact absurd h (by simp)
      · rename_i hpc
        split at h
        · exact absurd h (by simp)
        · rename_i d ds hpending
          exact Option.some.inj h ▸ Step.deposit hpc hpending
      · rename_i hpc
        exact Option.some.inj h ▸ Step.advanceWrite hpc
      · rename_i hpc
        exact Option.some.inj h ▸ Step.announce hpc
  | consumer t =>
      simp only [step, stepConsumer] at h
      split at h
      · rename_i hpc
        split at h
        · rename_i hitems
          exact Option.some.inj h ▸ Step.claim hpc hitems
        · exact absurd h (by simp)
      · rename_i hpc
        split at h
        · rename_i hfree
          exact Option.some.inj h ▸ Step.lock hpc hfree
        · exact absurd h (by simp)
      · rename_i hpc
        exact Option.some.inj h ▸ Step.copy hpc
      · rename_i hpc
        exact Option.some.inj h ▸ Step.advanceRead hpc
      · rename_i hpc
        exact Option.some.inj h ▸ Step.unlock hpc
      · rename_i hpc
        exact Option.some.inj h ▸ Step.free hpc

/-- **Invariants of runs.** What holds at the start and is kept by every step holds after every run. -/
theorem run_invariant {write : σ → δ → σ} (Inv : State n T σ δ → Prop)
    (hstep : ∀ s s', Inv s → Step write s s' → Inv s') {ts : List (Thread T)} {s s' : State n T σ δ}
    (hs : Inv s) (h : run write ts s = some s') : Inv s' := by
  induction ts generalizing s with
  | nil => exact Option.some.inj h ▸ hs
  | cons t ts ih =>
      obtain ⟨u, hu, hrest⟩ := Option.bind_eq_some_iff.mp h
      exact ih (hstep s u hs (step_inv hu)) hrest

end Semantics

/-! ## The deposits of a slot -/

/-- The slot of the `j`-th deposit. -/
def slotOf (n : Nat) [NeZero n] (j : Nat) : Fin n := ⟨j % n, Nat.mod_lt j (NeZero.pos n)⟩

/-- The deposits that went into slot `i`. -/
def onSlot (n : Nat) [NeZero n] (ds : List δ) (i : Fin n) : List δ :=
  (ds.zipIdx.filter (fun p => slotOf n p.2 = i)).map Prod.fst

theorem onSlot_concat_self (ds : List δ) (d : δ) :
    onSlot n (ds ++ [d]) (slotOf n ds.length) = onSlot n ds (slotOf n ds.length) ++ [d] := by
  simp [onSlot, List.zipIdx_append, List.filter_append]

theorem onSlot_concat_ne {ds : List δ} {i : Fin n} (h : slotOf n ds.length ≠ i) (d : δ) :
    onSlot n (ds ++ [d]) i = onSlot n ds i := by
  simp [onSlot, List.zipIdx_append, List.filter_append, h]

theorem mem_onSlot_iff {ds : List δ} {i : Fin n} {d : δ} :
    d ∈ onSlot n ds i ↔ ∃ k, slotOf n k = i ∧ ds[k]? = some d := by
  simp [onSlot, List.mem_zipIdx_iff_getElem?, and_comm]

/-- No other position of a round of the ring is in the slot of `j`. -/
theorem slotOf_ne {j k : Nat} (hjk : j < k) (hk : k < j + n) : slotOf n k ≠ slotOf n j := by
  intro h
  have hmod : k % n = j % n := congrArg Fin.val h
  have hdvd : n ∣ k - j := (Nat.modEq_iff_dvd' (le_of_lt hjk)).mp hmod.symm
  exact absurd (Nat.le_of_dvd (by omega) hdvd) (by omega)

/-- Before the ring comes round again, the last deposit in the slot of `j` is the `j`-th. -/
theorem onSlot_take {ds : List δ} {j : Nat} (h : ds.length ≤ j + n) :
    onSlot n ds (slotOf n j) = onSlot n (ds.take (j + 1)) (slotOf n j) := by
  induction ds using List.reverseRecOn with
  | nil => rfl
  | append_singleton ds d ih =>
      rw [List.length_append, List.length_singleton] at h
      by_cases hj : ds.length ≤ j
      · rw [List.take_of_length_le (by simpa using hj)]
      · have hlt : j < ds.length := Nat.lt_of_not_le hj
        rw [onSlot_concat_ne (slotOf_ne hlt (by omega)), ih (by omega),
          List.take_append_of_le_length (by omega)]

/-- What the `j`-th deposit leaves in its slot. -/
def leftAt (write : σ → δ → σ) (slots : Fin n → σ) (ds : List δ) (j : Nat) : σ :=
  (onSlot n (ds.take (j + 1)) (slotOf n j)).foldl write (slots (slotOf n j))

/-- The `j`-th deposit is written over those before it in its slot. -/
theorem leftAt_eq {write : σ → δ → σ} {slots : Fin n → σ} {ds : List δ} {j : Nat} {d : δ}
    (hd : ds[j]? = some d) :
    leftAt write slots ds j
      = write ((onSlot n (ds.take j) (slotOf n j)).foldl write (slots (slotOf n j))) d := by
  obtain ⟨hj, rfl⟩ := List.getElem?_eq_some_iff.mp hd
  have hlen : (ds.take j).length = j := List.length_take_of_le (le_of_lt hj)
  have hconcat := onSlot_concat_self (n := n) (ds.take j) ds[j]
  rw [hlen] at hconcat
  rw [leftAt, List.take_succ_eq_append_getElem hj, hconcat, List.foldl_concat]

/-! ## The invariant -/

/-- The slot the producer has taken from the free ones and not filled. -/
def ProducerPc.reserved : ProducerPc → Nat
  | .deposit => 1
  | _ => 0

/-- The item the producer has deposited and not announced. -/
def ProducerPc.announcing : ProducerPc → Nat
  | .advance => 1
  | .postItem => 1
  | _ => 0

/-- By how much the write index is behind the deposits. -/
def ProducerPc.behind : ProducerPc → Nat
  | .advance => 1
  | _ => 0

/-- The item a consumer has claimed and not copied. -/
def ConsumerPc.claiming : ConsumerPc → Nat
  | .lock => 1
  | .copy => 1
  | _ => 0

/-- The slot a consumer has copied and not given back. -/
def ConsumerPc.freeing : ConsumerPc → Nat
  | .advance => 1
  | .unlock => 1
  | .postSpace => 1
  | _ => 0

/-- By how much the read index is behind the copies of a consumer. -/
def ConsumerPc.behind : ConsumerPc → Nat
  | .advance => 1
  | _ => 0

/-- Whether a consumer is between the two calls on the mutex. -/
def ConsumerPc.inside : ConsumerPc → Bool
  | .copy => true
  | .advance => true
  | .unlock => true
  | _ => false

section Invariant

variable [Fintype T] {write : σ → δ → σ} {slots₀ : Fin n → σ} {reads : List δ} {s : State n T σ δ}

/-- What holds of the ring in every reachable state. -/
structure RingInv (write : σ → δ → σ) (slots₀ : Fin n → σ) (reads : List δ) (s : State n T σ δ) :
    Prop where
  mutex : ∀ t, s.mutex = some t ↔ (s.consumers t).inside = true
  space : s.space + s.producer.reserved + ∑ t, (s.consumers t).freeing + s.deposited.length
    = n + s.taken.length
  items : s.items + s.producer.announcing + ∑ t, (s.consumers t).claiming + s.taken.length
    = s.deposited.length
  writeIndex : (s.writeIndex.val + s.producer.behind) % n = s.deposited.length % n
  readIndex : (s.readIndex.val + ∑ t, (s.consumers t).behind) % n = s.taken.length % n
  stream : s.deposited ++ s.pending = reads
  slots : ∀ i, s.slots i = (onSlot n s.deposited i).foldl write (slots₀ i)
  taken : ∀ j, ∀ h : j < s.taken.length, s.taken[j].2 = leftAt write slots₀ s.deposited j

theorem ringInv_init (write : σ → δ → σ) (slots₀ : Fin n → σ) (reads : List δ) :
    RingInv write slots₀ reads (State.init slots₀ reads : State n T σ δ) where
  mutex t := by simp [State.init, ConsumerPc.inside]
  space := by simp [State.init, ProducerPc.reserved, ConsumerPc.freeing]
  items := by simp [State.init, ProducerPc.announcing, ConsumerPc.claiming]
  writeIndex := by simp [State.init, ProducerPc.behind]
  readIndex := by simp [State.init, ConsumerPc.behind]
  stream := rfl
  slots i := rfl
  taken j h := absurd h (by simp [State.init])

namespace RingInv

theorem exclusive (h : RingInv write slots₀ reads s) :
    Mutex.Exclusive ConsumerPc.inside s.consumers s.mutex :=
  fun t => (h.mutex t).symm

theorem reserve (h : RingInv write slots₀ reads s) (hpc : s.producer = .waitSpace)
    (hspace : 0 < s.space) :
    RingInv write slots₀ reads { s with space := s.space - 1, producer := .deposit } := by
  have hs := h.space
  have hi := h.items
  have hw := h.writeIndex
  simp only [hpc, ProducerPc.reserved, ProducerPc.announcing, ProducerPc.behind] at hs hi hw
  refine { h with space := ?_, items := ?_, writeIndex := ?_ }
  · simp only [ProducerPc.reserved]
    omega
  · simp only [ProducerPc.announcing]
    omega
  · simpa only [ProducerPc.behind] using hw

theorem writeIndex_eq (h : RingInv write slots₀ reads s) (hpc : s.producer = .deposit) :
    s.writeIndex = slotOf n s.deposited.length := by
  have hw := h.writeIndex
  simp only [hpc, ProducerPc.behind, Nat.add_zero, Nat.mod_eq_of_lt s.writeIndex.isLt] at hw
  exact Fin.ext hw

theorem deposit (h : RingInv write slots₀ reads s) {d : δ} {ds : List δ} (hpc : s.producer = .deposit)
    (hpending : s.pending = d :: ds) :
    RingInv write slots₀ reads { s with
      slots := Function.update s.slots s.writeIndex (write (s.slots s.writeIndex) d)
      pending := ds
      deposited := s.deposited ++ [d]
      producer := .advance } := by
  have hs := h.space
  have hi := h.items
  have hindex := h.writeIndex_eq hpc
  simp only [hpc, ProducerPc.reserved, ProducerPc.announcing] at hs hi
  refine { h with space := ?_, items := ?_, writeIndex := ?_, stream := ?_, slots := ?_, taken := ?_ }
  · simp only [ProducerPc.reserved, List.length_append, List.length_singleton]
    omega
  · simp only [ProducerPc.announcing, List.length_append, List.length_singleton]
    omega
  · simp [ProducerPc.behind, hindex, slotOf]
  · simp [← h.stream, hpending]
  · -- only the slot at the write index changes
    intro i
    by_cases hslot : i = s.writeIndex
    · subst hslot
      simp only [Function.update_self, h.slots]
      rw [hindex, onSlot_concat_self, List.foldl_concat]
    · simp only [Function.update_of_ne hslot, h.slots]
      rw [onSlot_concat_ne (fun heq => hslot (by rw [hindex, heq]))]
  · -- what has been copied came before this deposit
    intro j hj
    have htaken := h.taken j hj
    have hj' : j + 1 ≤ s.deposited.length := by
      simp only at hj
      omega
    rw [leftAt] at htaken ⊢
    rw [List.take_append_of_le_length hj']
    exact htaken

theorem advanceWrite (h : RingInv write slots₀ reads s) (hpc : s.producer = .advance) :
    RingInv write slots₀ reads { s with writeIndex := s.writeIndex + 1, producer := .postItem } := by
  have hs := h.space
  have hi := h.items
  have hw := h.writeIndex
  simp only [hpc, ProducerPc.reserved, ProducerPc.announcing, ProducerPc.behind] at hs hi hw
  refine { h with space := ?_, items := ?_, writeIndex := ?_ }
  · simp only [ProducerPc.reserved]
    omega
  · simp only [ProducerPc.announcing]
    omega
  · simpa [ProducerPc.behind, Fin.val_add] using hw

theorem announce (h : RingInv write slots₀ reads s) (hpc : s.producer = .postItem) :
    RingInv write slots₀ reads { s with items := s.items + 1, producer := .waitSpace } := by
  have hs := h.space
  have hi := h.items
  have hw := h.writeIndex
  simp only [hpc, ProducerPc.reserved, ProducerPc.announcing, ProducerPc.behind] at hs hi hw
  refine { h with space := ?_, items := ?_, writeIndex := ?_ }
  · simp only [ProducerPc.reserved]
    omega
  · simp only [ProducerPc.announcing]
    omega
  · simpa only [ProducerPc.behind] using hw

/-- A consumer about to copy is the only one inside, and the read index is up to date. -/
theorem readIndex_eq (h : RingInv write slots₀ reads s) {t : T} (hpc : s.consumers t = .copy) :
    s.readIndex = slotOf n s.taken.length := by
  have hnone : ∑ u, (s.consumers u).behind = 0 := by
    apply Finset.sum_eq_zero
    intro u _
    cases hu : s.consumers u with
    | advance =>
        obtain rfl := h.exclusive.alone (t := t) (u := u) (by rw [hpc]; rfl) (by rw [hu]; rfl)
        exact absurd (hpc.symm.trans hu) (by simp)
    | waitItem => rfl
    | lock => rfl
    | copy => rfl
    | unlock => rfl
    | postSpace => rfl
  have hr := h.readIndex
  rw [hnone, Nat.add_zero, Nat.mod_eq_of_lt s.readIndex.isLt] at hr
  exact Fin.ext hr

/-- What a producer about to deposit writes over has been copied. -/
theorem copied_of_deposit (h : RingInv write slots₀ reads s) (hpc : s.producer = .deposit) {k : Nat}
    (hk : k < s.deposited.length) (hslot : slotOf n k = s.writeIndex) : k < s.taken.length := by
  have hs := h.space
  simp only [hpc, ProducerPc.reserved] at hs
  by_contra hnot
  -- fewer than `n` deposits are waiting, so the write index has not come round to them
  apply slotOf_ne (n := n) hk (by omega)
  rw [hslot, h.writeIndex_eq hpc]

/-- A consumer about to copy finds the deposit it is to copy in its slot. -/
theorem filled_of_copy (h : RingInv write slots₀ reads s) {t : T} (hpc : s.consumers t = .copy) :
    s.taken.length < s.deposited.length ∧
      s.slots s.readIndex = leftAt write slots₀ s.deposited s.taken.length := by
  have hs := h.space
  have hi := h.items
  have hmine : 1 ≤ ∑ u, (s.consumers u).claiming := by
    have hle := Finset.single_le_sum (f := fun u => (s.consumers u).claiming)
      (fun u _ => Nat.zero_le _) (Finset.mem_univ t)
    simpa only [hpc, ConsumerPc.claiming] using hle
  refine ⟨by omega, ?_⟩
  rw [h.slots, h.readIndex_eq hpc, leftAt, onSlot_take (by omega)]

end RingInv

/-! ### The steps of a consumer -/

variable [DecidableEq T]

/-- The sum of a weight over the consumers after one of them has moved. -/
theorem sum_move {α : Type*} (w : α → Nat) (f : T → α) (t : T) (pc : α) :
    ∑ u, w (Function.update f t pc u) + w (f t) = ∑ u, w (f u) + w pc := by
  have hafter := Finset.add_sum_erase Finset.univ (fun u => w (Function.update f t pc u))
    (Finset.mem_univ t)
  have hbefore := Finset.add_sum_erase Finset.univ (fun u => w (f u)) (Finset.mem_univ t)
  have hrest : ∑ u ∈ Finset.univ.erase t, w (Function.update f t pc u)
      = ∑ u ∈ Finset.univ.erase t, w (f u) := by
    apply Finset.sum_congr rfl
    intro u hu
    rw [Function.update_of_ne (Finset.ne_of_mem_erase hu)]
  simp only [Function.update_self] at hafter
  omega

/-- The weights of a consumer at each line of its loop. -/
theorem weights :
    (ConsumerPc.waitItem.claiming = 0 ∧ ConsumerPc.lock.claiming = 1 ∧ ConsumerPc.copy.claiming = 1 ∧
      ConsumerPc.advance.claiming = 0 ∧ ConsumerPc.unlock.claiming = 0 ∧
      ConsumerPc.postSpace.claiming = 0) ∧
    (ConsumerPc.waitItem.freeing = 0 ∧ ConsumerPc.lock.freeing = 0 ∧ ConsumerPc.copy.freeing = 0 ∧
      ConsumerPc.advance.freeing = 1 ∧ ConsumerPc.unlock.freeing = 1 ∧
      ConsumerPc.postSpace.freeing = 1) ∧
    (ConsumerPc.waitItem.behind = 0 ∧ ConsumerPc.lock.behind = 0 ∧ ConsumerPc.copy.behind = 0 ∧
      ConsumerPc.advance.behind = 1 ∧ ConsumerPc.unlock.behind = 0 ∧
      ConsumerPc.postSpace.behind = 0) := by
  decide

/-- What the move of a consumer makes of the three sums. -/
theorem sums_move {f : T → ConsumerPc} {t : T} {pc : ConsumerPc} (hpc : f t = pc) (pc' : ConsumerPc) :
    ∑ u, (Function.update f t pc' u).claiming + pc.claiming = ∑ u, (f u).claiming + pc'.claiming ∧
    ∑ u, (Function.update f t pc' u).freeing + pc.freeing = ∑ u, (f u).freeing + pc'.freeing ∧
    ∑ u, (Function.update f t pc' u).behind + pc.behind = ∑ u, (f u).behind + pc'.behind := by
  subst hpc
  exact ⟨sum_move _ f t pc', sum_move _ f t pc', sum_move _ f t pc'⟩

namespace RingInv

/-- A move that keeps a consumer inside or outside the mutex. -/
theorem mutex_move (h : RingInv write slots₀ reads s) {t : T} {pc : ConsumerPc}
    (hpc : pc.inside = (s.consumers t).inside) (u : T) :
    s.mutex = some u ↔ (Function.update s.consumers t pc u).inside = true :=
  (h.exclusive.move hpc u).symm

/-- A consumer moves on at the semaphores or the mutex: what it takes from the counts it holds then, and
    the indices and the slots stay. -/
theorem move (h : RingInv write slots₀ reads s) {t : T} {pc : ConsumerPc} (hpc : s.consumers t = pc)
    (pc' : ConsumerPc) {space items : Nat} {mutex : Option T}
    (hmutex : ∀ u, mutex = some u ↔ (Function.update s.consumers t pc' u).inside = true)
    (hspace : space + pc'.freeing = s.space + pc.freeing)
    (hitems : items + pc'.claiming = s.items + pc.claiming) (hbehind : pc'.behind = pc.behind) :
    RingInv write slots₀ reads
      { s.move t pc' with space := space, items := items, mutex := mutex } := by
  have hs := h.space
  have hi := h.items
  obtain ⟨hsumClaiming, hsumFreeing, hsumBehind⟩ := sums_move hpc pc'
  refine { h with mutex := hmutex, space := ?_, items := ?_, readIndex := ?_ }
  · simp only [State.move]
    omega
  · simp only [State.move]
    omega
  · have hsame : ∑ u, (Function.update s.consumers t pc' u).behind = ∑ u, (s.consumers u).behind := by
      omega
    simp only [State.move]
    rw [hsame]
    exact h.readIndex

theorem claim (h : RingInv write slots₀ reads s) {t : T} (hpc : s.consumers t = .waitItem)
    (hitems : 0 < s.items) :
    RingInv write slots₀ reads { s.move t .lock with items := s.items - 1 } := by
  have hcount : s.items - 1 + ConsumerPc.lock.claiming = s.items + ConsumerPc.waitItem.claiming :=
    Nat.sub_add_cancel hitems
  exact h.move hpc .lock (h.mutex_move (by rw [hpc]; rfl)) rfl hcount rfl

theorem lock (h : RingInv write slots₀ reads s) {t : T} (hpc : s.consumers t = .lock)
    (hfree : s.mutex = none) :
    RingInv write slots₀ reads { s.move t .copy with mutex := some t } := by
  refine h.move hpc .copy ?_ rfl rfl rfl
  intro u
  exact (h.exclusive.lock hfree t rfl u).symm

theorem copy (h : RingInv write slots₀ reads s) {t : T} (hpc : s.consumers t = .copy) :
    RingInv write slots₀ reads
      { s.move t .advance with taken := s.taken ++ [(t, s.slots s.readIndex)] } := by
  have hs := h.space
  have hi := h.items
  have hr := h.readIndex
  obtain ⟨hclaiming, hfreeing, hbehind⟩ := sums_move hpc .advance
  simp only [weights, Nat.add_zero] at hclaiming hfreeing hbehind
  refine { h with
    mutex := h.mutex_move (by rw [hpc]; rfl)
    space := ?_, items := ?_, readIndex := ?_, taken := ?_ }
  · simp only [State.move, List.length_append, List.length_singleton]
    omega
  · simp only [State.move, List.length_append, List.length_singleton]
    omega
  · simp only [State.move, List.length_append, List.length_singleton]
    rw [hbehind, ← Nat.add_assoc, Nat.add_mod, hr, ← Nat.add_mod]
  · intro j hj
    by_cases hold : j < s.taken.length
    · simp only [List.getElem_append_left hold]
      exact h.taken j hold
    · -- the slot copied now: at most `n` deposits are waiting, so none has come round to it
      have hlast : j = s.taken.length := by
        simp only [List.length_append, List.length_singleton] at hj
        omega
      subst hlast
      simp only [State.move, List.getElem_concat_length, h.slots, leftAt]
      rw [h.readIndex_eq hpc, onSlot_take (by omega)]

theorem advanceRead (h : RingInv write slots₀ reads s) {t : T} (hpc : s.consumers t = .advance) :
    RingInv write slots₀ reads { s.move t .unlock with readIndex := s.readIndex + 1 } := by
  have hs := h.space
  have hi := h.items
  have hr := h.readIndex
  obtain ⟨hclaiming, hfreeing, hbehind⟩ := sums_move hpc .unlock
  simp only [weights, Nat.add_zero] at hclaiming hfreeing hbehind
  refine { h with mutex := h.mutex_move (by rw [hpc]; rfl), space := ?_, items := ?_, readIndex := ?_ }
  · simp only [State.move]
    omega
  · simp only [State.move]
    omega
  · simp only [State.move]
    rw [← hr, ← hbehind, Fin.val_add]
    simp [Nat.add_assoc, Nat.add_comm 1]

theorem unlock (h : RingInv write slots₀ reads s) {t : T} (hpc : s.consumers t = .unlock) :
    RingInv write slots₀ reads { s.move t .postSpace with mutex := none } := by
  refine h.move hpc .postSpace ?_ rfl rfl rfl
  intro u
  exact (h.exclusive.unlock (by rw [hpc]; rfl) rfl u).symm

theorem free (h : RingInv write slots₀ reads s) {t : T} (hpc : s.consumers t = .postSpace) :
    RingInv write slots₀ reads { s.move t .waitItem with space := s.space + 1 } := by
  exact h.move hpc .waitItem (h.mutex_move (by rw [hpc]; rfl)) rfl rfl rfl

end RingInv

/-- **Step.** Every step of every thread keeps the invariant. -/
theorem ringInv_step {s' : State n T σ δ} (h : RingInv write slots₀ reads s)
    (hstep : Step write s s') : RingInv write slots₀ reads s' := by
  cases hstep with
  | reserve hpc hspace => exact h.reserve hpc hspace
  | deposit hpc hpending => exact h.deposit hpc hpending
  | advanceWrite hpc => exact h.advanceWrite hpc
  | announce hpc => exact h.announce hpc
  | claim hpc hitems => exact h.claim hpc hitems
  | lock hpc hfree => exact h.lock hpc hfree
  | copy hpc => exact h.copy hpc
  | advanceRead hpc => exact h.advanceRead hpc
  | unlock hpc => exact h.unlock hpc
  | free hpc => exact h.free hpc

/-- **Run.** The invariant holds after every schedule. -/
theorem ringInv_run {sched : List (Thread T)}
    (hrun : run write sched (State.init slots₀ reads) = some s) : RingInv write slots₀ reads s :=
  run_invariant (RingInv write slots₀ reads) (fun _ _ => ringInv_step) (ringInv_init write slots₀ reads)
    hrun

omit [DecidableEq T] in
theorem RingInv.taken_length_le (h : RingInv write slots₀ reads s) : s.taken.length ≤ reads.length := by
  have hi := h.items
  have hlen := congrArg List.length h.stream
  rw [List.length_append] at hlen
  omega

omit [DecidableEq T] in
/-- The copy made `j`-th is of what the `j`-th deposit left. -/
theorem RingInv.taken_eq (h : RingInv write slots₀ reads s) {j : Nat} (hj : j < s.taken.length) :
    s.taken[j].2 = leftAt write slots₀ reads j := by
  have hi := h.items
  rw [h.taken j hj, ← h.stream, leftAt, leftAt, List.take_append_of_le_length (by omega)]

/-- **Copies.** Whatever the schedule, they are of what the deposits left, in order. -/
theorem taken_eq {sched : List (Thread T)}
    (hrun : run write sched (State.init slots₀ reads) = some s) {j : Nat} (hj : j < s.taken.length) :
    s.taken[j].2 = leftAt write slots₀ reads j :=
  (ringInv_run hrun).taken_eq hj

/-! ## Runs to the end -/

/-- The steps the producer has before its next wait, and those it lets a consumer make. -/
def ProducerPc.work : ProducerPc → Nat
  | .waitSpace => 1
  | .deposit => 0
  | .advance => 9
  | .postItem => 8

/-- The steps a consumer has before its next wait. -/
def ConsumerPc.work : ConsumerPc → Nat
  | .waitItem => 0
  | .lock => 5
  | .copy => 4
  | .advance => 3
  | .unlock => 2
  | .postSpace => 1

/-- How many steps are left: ten for each deposit to come, four of the producer and six of the consumer
    that copies it. -/
def work (s : State n T σ δ) : Nat :=
  10 * s.pending.length + s.producer.work + 6 * s.items + ∑ t, (s.consumers t).work

omit [NeZero n] in
theorem work_move (s : State n T σ δ) {t : T} {pc : ConsumerPc} (hpc : s.consumers t = pc)
    (pc' : ConsumerPc) :
    ∑ u, ((s.move t pc').consumers u).work + pc.work = ∑ u, (s.consumers u).work + pc'.work := by
  subst hpc
  exact sum_move ConsumerPc.work s.consumers t pc'

/-- Every step is one step less. -/
theorem work_step {s' : State n T σ δ} (hstep : Step write s s') : work s' + 1 = work s := by
  cases hstep with
  | reserve hpc hspace =>
      simp only [work, hpc, ProducerPc.work]
      omega
  | deposit hpc hpending =>
      simp only [work, hpc, hpending, ProducerPc.work, List.length_cons]
      omega
  | advanceWrite hpc =>
      simp only [work, hpc, ProducerPc.work]
      omega
  | announce hpc =>
      simp only [work, hpc, ProducerPc.work]
      omega
  | claim hpc hitems =>
      have hsum := work_move s hpc .lock
      simp only [work, State.move, ConsumerPc.work] at hsum ⊢
      omega
  | lock hpc hfree =>
      have hsum := work_move s hpc .copy
      simp only [work, State.move, ConsumerPc.work] at hsum ⊢
      omega
  | copy hpc =>
      have hsum := work_move s hpc .advance
      simp only [work, State.move, ConsumerPc.work] at hsum ⊢
      omega
  | advanceRead hpc =>
      have hsum := work_move s hpc .unlock
      simp only [work, State.move, ConsumerPc.work] at hsum ⊢
      omega
  | unlock hpc =>
      have hsum := work_move s hpc .postSpace
      simp only [work, State.move, ConsumerPc.work] at hsum ⊢
      omega
  | free hpc =>
      have hsum := work_move s hpc .waitItem
      simp only [work, State.move, ConsumerPc.work] at hsum ⊢
      omega

/-- **Every run comes to an end.** A run takes exactly the steps its end has less than its start. -/
theorem work_run {sched : List (Thread T)} {s' : State n T σ δ} (hrun : run write sched s = some s') :
    work s' + sched.length = work s := by
  induction sched generalizing s with
  | nil =>
      obtain rfl := Option.some.inj hrun
      rfl
  | cons t sched ih =>
      obtain ⟨u, hu, hrest⟩ := Option.bind_eq_some_iff.mp hrun
      have htail := ih hrest
      have hhead := work_step (step_inv hu)
      rw [List.length_cons]
      omega

/-- No thread can take a step. -/
def Blocked (write : σ → δ → σ) (s : State n T σ δ) : Prop := ∀ t, step write s t = none

/-- Blocked consumers wait for an item, and there is none: whoever holds the mutex could go on. -/
theorem RingInv.waiting_of_blocked (h : RingInv write slots₀ reads s) (hblocked : Blocked write s)
    (t : T) : s.consumers t = .waitItem ∧ s.items = 0 := by
  have hstep : ∀ u, stepConsumer u s = none := fun u => hblocked (.consumer u)
  cases hpc : s.consumers t with
  | waitItem =>
      have ht := hstep t
      simp only [stepConsumer, hpc] at ht
      refine ⟨rfl, ?_⟩
      by_contra hitems
      rw [if_pos (Nat.pos_of_ne_zero hitems)] at ht
      exact absurd ht (by simp)
  | lock =>
      have ht := hstep t
      simp only [stepConsumer, hpc] at ht
      cases hmutex : s.mutex with
      | none => exact absurd ht (by simp [hmutex])
      | some u =>
          have hu := hstep u
          have hinside := (h.mutex u).mp hmutex
          cases hpcu : s.consumers u with
          | waitItem => exact absurd hinside (by simp [hpcu, ConsumerPc.inside])
          | lock => exact absurd hinside (by simp [hpcu, ConsumerPc.inside])
          | postSpace => exact absurd hinside (by simp [hpcu, ConsumerPc.inside])
          | copy => exact absurd hu (by simp [stepConsumer, hpcu])
          | advance => exact absurd hu (by simp [stepConsumer, hpcu])
          | unlock => exact absurd hu (by simp [stepConsumer, hpcu])
  | copy => exact absurd (hstep t) (by simp [stepConsumer, hpc])
  | advance => exact absurd (hstep t) (by simp [stepConsumer, hpc])
  | unlock => exact absurd (hstep t) (by simp [stepConsumer, hpc])
  | postSpace => exact absurd (hstep t) (by simp [stepConsumer, hpc])

/-- **Nothing is left behind.** When no thread can take a step and there is a consumer, everything has
    been deposited and copied. -/
theorem RingInv.done_of_blocked (h : RingInv write slots₀ reads s) (hblocked : Blocked write s)
    [Nonempty T] : s.deposited = reads ∧ s.taken.length = reads.length := by
  have hwait : ∀ t, s.consumers t = .waitItem := fun t => (h.waiting_of_blocked hblocked t).1
  have hitems : s.items = 0 := (h.waiting_of_blocked hblocked (Classical.arbitrary T)).2
  have hs := h.space
  have hi := h.items
  simp only [hwait, hitems, ConsumerPc.freeing, ConsumerPc.claiming, Finset.sum_const_zero] at hs hi
  have hn := NeZero.pos n
  have hproducer : stepProducer write s = none := hblocked .producer
  cases hpc : s.producer with
  | waitSpace =>
      -- all deposits are copied, so all slots are free
      simp only [hpc, ProducerPc.reserved, ProducerPc.announcing] at hs hi
      have hspace : 0 < s.space := by omega
      exact absurd hproducer (by simp [stepProducer, hpc, hspace])
  | deposit =>
      simp only [hpc, ProducerPc.announcing] at hi
      have hpending : s.pending = [] := by
        cases hp : s.pending with
        | nil => rfl
        | cons d ds => exact absurd hproducer (by simp [stepProducer, hpc, hp])
      have hstream := h.stream
      rw [hpending, List.append_nil] at hstream
      exact ⟨hstream, by rw [← hstream]; omega⟩
  | advance => exact absurd hproducer (by simp [stepProducer, hpc])
  | postItem => exact absurd hproducer (by simp [stepProducer, hpc])

end Invariant

end BoundedBuffer
