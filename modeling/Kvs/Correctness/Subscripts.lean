import Kvs.Server.Sequential

/-!
# `Correctness.Subscripts` — which strings stay inside the arrays

`hash` gives `-1` for a string that does not start with a letter or a digit, and none of its callers
looks. A job file runs without a subscript outside `hashed`, `rwlock_array` and `ht->table` if and only
if every string in its accepted commands starts with a letter or a digit, and so does a subscription or
its end (`subscripts_in_range_iff`). On such strings the sequential run is that of the code the worker
threads run (`processCommand_worker`).
-/

namespace Kvs.Server

/-! ## One string -/

/-- The string starts with a letter or a digit, so that `hash` has a bucket for it. -/
def HasBucket (key : CStr) : Prop := isAlnum (key.bytes.headD 0) = true

instance (key : CStr) : Decidable (HasBucket key) := inferInstanceAs (Decidable (_ = true))

theorem HasBucket.exists_key {key : CStr} (h : HasBucket key) : ∃ k : Key, k.str = key :=
  ⟨⟨key, h⟩, rfl⟩

/-- The strings of keys have one. -/
theorem hasBucket_keys (keys : List Key) : ∀ key ∈ keys.map Key.str, HasBucket key := by
  intro key hkey
  obtain ⟨k, _, rfl⟩ := List.mem_map.mp hkey
  exact k.initial

/-- An operation that subscripts first and cannot fail after that. -/
theorem isSome_subscript_bind {α : Type} {key : CStr} {f : Fin TABLE_SIZE → Option α}
    (hf : ∀ i, (f i).isSome = true) : ((subscript (hash key)).bind f).isSome = true ↔ HasBucket key := by
  rw [HasBucket, ← subscript_hash_isSome_iff]
  cases subscript (hash key) with
  | none => simp
  | some i => simp [hf i]

theorem writePair_isSome_iff (ht : HashTable) (key value : CStr) (mem : Garbage) :
    (writePair ht key value mem).isSome = true ↔ HasBucket key :=
  isSome_subscript_bind (fun _ => rfl)

theorem readPair_isSome_iff (ht : HashTable) (key : CStr) :
    (readPair ht key).isSome = true ↔ HasBucket key :=
  isSome_subscript_bind (fun _ => rfl)

theorem deletePair_isSome_iff (ht : HashTable) (key : CStr) :
    (deletePair ht key).isSome = true ↔ HasBucket key :=
  isSome_subscript_bind (fun _ => rfl)

theorem addSubscriber_isSome_iff (ht : HashTable) (key : CStr) (fd : Int) :
    (addSubscriber ht key fd).isSome = true ↔ HasBucket key :=
  isSome_subscript_bind (fun _ => rfl)

theorem removeSubscriber_isSome_iff (ht : HashTable) (key : CStr) (fd : Int) :
    (removeSubscriber ht key fd).isSome = true ↔ HasBucket key :=
  isSome_subscript_bind (fun _ => rfl)

/-- In a sequence of two, the second may use that the first has succeeded. -/
theorem isSome_bind_iff {α β : Type} {x : Option α} {f : α → Option β} {P Q : Prop}
    (hx : x.isSome = true ↔ P) (hf : ∀ a, x = some a → ((f a).isSome = true ↔ Q)) :
    (x.bind f).isSome = true ↔ P ∧ Q := by
  rw [← hx]
  cases hxa : x with
  | none => simp
  | some a => simp [hf a hxa]

theorem kvsSubscribe_isSome_iff (ht : HashTable) (key : CStr) (fd : Int) :
    (kvsSubscribe ht key fd).isSome = true ↔ HasBucket key := by
  refine (isSome_bind_iff (subscript_hash_isSome_iff key)
    (fun _ _ => addSubscriber_isSome_iff ht key fd)).trans ?_
  exact and_self_iff

theorem kvsUnsubscribe_isSome_iff (ht : HashTable) (key : CStr) (fd : Int) :
    (kvsUnsubscribe ht key fd).isSome = true ↔ HasBucket key := by
  refine (isSome_bind_iff (subscript_hash_isSome_iff key)
    (fun _ _ => removeSubscriber_isSome_iff ht key fd)).trans ?_
  exact and_self_iff

/-! ## The commands of a job -/

namespace Sequential

theorem markLoop_isSome_iff (hashed : Hashed) (keys : List CStr) :
    (markLoop hashed keys).isSome = true ↔ ∀ key ∈ keys, HasBucket key := by
  induction keys generalizing hashed with
  | nil => simp [markLoop]
  | cons key keys ih =>
      rw [List.forall_mem_cons]
      exact isSome_bind_iff (subscript_hash_isSome_iff key) (fun i _ => ih _)

theorem writeLoop_isSome_iff (mem : Nat → Garbage) (i : Nat) (pairs : List (CStr × CStr))
    (ht : HashTable) :
    (writeLoop mem i pairs ht).isSome = true ↔ ∀ key ∈ pairs.map Prod.fst, HasBucket key := by
  induction pairs generalizing i ht with
  | nil => simp [writeLoop]
  | cons pair pairs ih =>
      rw [List.map_cons, List.forall_mem_cons]
      exact isSome_bind_iff (writePair_isSome_iff ht pair.1 pair.2 (mem i)) (fun r _ => ih _ r.1)

theorem readLoop_isSome_iff (ht : HashTable) (keys : List CStr) :
    (readLoop ht keys).isSome = true ↔ ∀ key ∈ keys, HasBucket key := by
  induction keys with
  | nil => simp [readLoop]
  | cons key keys ih =>
      rw [List.forall_mem_cons]
      refine isSome_bind_iff (readPair_isSome_iff ht key) (fun value _ => ?_)
      refine (isSome_bind_iff (Q := True) ih (fun results _ => ?_)).trans (and_iff_left trivial)
      exact iff_of_true rfl trivial

theorem deleteLoop_isSome_iff (keys : List CStr) (ht : HashTable) :
    (deleteLoop keys ht).isSome = true ↔ ∀ key ∈ keys, HasBucket key := by
  induction keys generalizing ht with
  | nil => simp [deleteLoop]
  | cons key keys ih =>
      rw [List.forall_mem_cons]
      refine isSome_bind_iff (deletePair_isSome_iff ht key) (fun r _ => ?_)
      refine (isSome_bind_iff (Q := True) (ih r.1) (fun results _ => ?_)).trans (and_iff_left trivial)
      exact iff_of_true rfl trivial

/-- A command that marks its strings, works on the same strings and cannot fail after that. -/
theorem isSome_marked {α : Type} {keys : List CStr} {x : Option α} {f : α → World}
    (hx : x.isSome = true ↔ ∀ key ∈ keys, HasBucket key) :
    ((markLoop (fun _ => false) keys).bind (fun _ => x.bind (fun a => some (f a)))).isSome = true ↔
      ∀ key ∈ keys, HasBucket key := by
  refine (isSome_bind_iff (markLoop_isSome_iff _ keys) (fun _ _ => ?_)).trans (and_self_iff)
  refine (isSome_bind_iff (Q := True) hx (fun _ _ => ?_)).trans (and_iff_left trivial)
  exact iff_of_true rfl trivial

theorem kvsWrite_isSome_iff (pairs : List (CStr × CStr)) (mem : Nat → Garbage) (w : World) :
    (kvsWrite pairs mem w).isSome = true ↔ ∀ key ∈ pairs.map Prod.fst, HasBucket key :=
  isSome_marked (writeLoop_isSome_iff mem 0 pairs w.table)

theorem kvsRead_isSome_iff (keys : List CStr) (w : World) :
    (kvsRead keys w).isSome = true ↔ ∀ key ∈ keys, HasBucket key :=
  isSome_marked (readLoop_isSome_iff w.table keys)

theorem kvsDelete_isSome_iff (keys : List CStr) (w : World) :
    (kvsDelete keys w).isSome = true ↔ ∀ key ∈ keys, HasBucket key :=
  isSome_marked (deleteLoop_isSome_iff keys w.table)

/-- Sorting a command's strings does not change what they are. -/
theorem mem_sorted_iff (keys : List CStr) (key : CStr) :
    key ∈ (sortRows strcmp (keys.map (fun k => (k, ())))).map Prod.fst ↔ key ∈ keys :=
  (sortRows_keys_perm keys).mem_iff

/-- **Command.** It stays inside the arrays exactly when all its strings have a bucket. -/
theorem processCommand_isSome_iff (mem : Nat → Garbage) (command : JobCmd) (w : World) :
    (processCommand mem command w).isSome = true ↔ ∀ key ∈ command.keys, HasBucket key := by
  cases command with
  | write pairs =>
      rw [processCommand, kvsWrite_isSome_iff, JobCmd.keys]
      have h : (sortRows strcmp pairs).Perm pairs := sortRows_perm pairs
      exact forall_congr' (fun key => imp_congr_left (h.map Prod.fst).mem_iff)
  | read keys =>
      rw [processCommand, kvsRead_isSome_iff, JobCmd.keys]
      exact forall_congr' (fun key => imp_congr_left (mem_sorted_iff keys key))
  | delete keys =>
      rw [processCommand, kvsDelete_isSome_iff, JobCmd.keys]
      exact forall_congr' (fun key => imp_congr_left (mem_sorted_iff keys key))
  | showAll => simp [processCommand, JobCmd.keys]
  | wait delay => simp [processCommand, JobCmd.keys]
  | backup => simp [processCommand, JobCmd.keys]
  | help => simp [processCommand, JobCmd.keys]
  | empty => simp [processCommand, JobCmd.keys]
  | invalid => simp [processCommand, JobCmd.keys]

/-- **Job.** The commands in a row stay inside the arrays exactly when each does. -/
theorem processCommands_isSome_iff (mem : Nat → Nat → Garbage) (commands : List JobCmd) (w : World) :
    (processCommands mem commands w).isSome = true ↔
      ∀ command ∈ commands, ∀ key ∈ command.keys, HasBucket key := by
  induction commands generalizing mem w with
  | nil => simp [processCommands]
  | cons command commands ih =>
      rw [List.forall_mem_cons]
      exact isSome_bind_iff (processCommand_isSome_iff (mem 0) command w) (fun w' _ => ih _ w')

/-- **Subscripts.** For every job file, whatever its bytes, and every string that a client subscribes to
    or unsubscribes from: the arrays are subscripted inside their bounds throughout if and only if every
    string of the commands that the parser accepts, and the client's string, start with a letter or a
    digit. -/
theorem subscripts_in_range_iff (stack : Nat → List Byte) (mem : Nat → Nat → Garbage) (file : Stream)
    (w : World) (key : CStr) (fd : Int) :
    ((processJobFile stack mem file w).isSome = true ↔
      ∀ command ∈ (jobLoop stack file).1, ∀ key ∈ command.keys, HasBucket key) ∧
    ((kvsSubscribe w.table key fd).isSome = true ↔ HasBucket key) ∧
    ((kvsUnsubscribe w.table key fd).isSome = true ↔ HasBucket key) :=
  ⟨processCommands_isSome_iff mem _ w, kvsSubscribe_isSome_iff w.table key fd,
    kvsUnsubscribe_isSome_iff w.table key fd⟩

/-- The job `READ [_]`. -/
def underscoreJob : Stream := ascii "READ [_]\n"

/-- **Outside the arrays.** The parser accepts the key `_`, and `hash` gives `-1` for it; a client can
    subscribe to the empty string. -/
theorem subscript_negative :
    processJobFile (fun _ => []) (fun _ _ => Vector.replicate MAX_SESSION_COUNT 0) underscoreJob
        ⟨createHashTable, [], []⟩ = none ∧
      (jobLoop (fun _ => []) underscoreJob).1 = [.read [⟨ascii "_", by decide⟩]] ∧
      hash ⟨ascii "_", by decide⟩ = -1 ∧
      kvsSubscribe createHashTable ⟨[], by decide⟩ 5 = none := by
  have hround : jobRound [] underscoreJob = some (.read [⟨ascii "_", by decide⟩], []) := by
    decide +kernel
  have hloop : (jobLoop (fun _ => []) underscoreJob).1 = [.read [⟨ascii "_", by decide⟩]] := by
    -- the rounds of `jobLoop` are unfolded one by one: it recurses on the length of the file
    rw [jobLoop]
    split
    · rename_i h
      rw [hround] at h
      exact absurd h (by simp)
    · rename_i command s h
      rw [hround] at h
      obtain ⟨rfl, rfl⟩ := Prod.mk.inj (Option.some.inj h)
      rw [jobLoop]
      rfl
  refine ⟨?_, hloop, by decide, ?_⟩
  · rw [processJobFile, hloop]
    rfl
  · rfl

end Sequential

end Kvs.Server
