import Kvs.Client.Api
import Kvs.Correctness.StartUp

/-!
# `Correctness.Registration` — the paths a session is opened on

Client message against the manager's scan, through the registration queue, for any number of managers
and every schedule of the host and the managers. A registration is read over what its slot held, and is
scanned as it was sent if and only if no earlier registration of the slot is longer
(`registration_paths_iff`). Even with slots that are zero behind every read, each client has had its
session, once, when nothing can happen any more, if and only if the host has come to no semaphore before
`main` has initialised it and every read returned the message of one client alone, and a readable one
(`sessions_iff`).
-/

namespace Kvs

open Client Server BoundedBuffer

/-- The message `kvs_connect` sends for these paths. -/
def connectMessage (p : PipePaths) : List Byte := kvsConnect p.req p.resp p.notif

theorem connectText_eq (p : PipePaths) :
    connectText p.req p.resp p.notif = scanHead p p.notif.bytes := by
  simp [connectText, scanHead, ascii]

theorem connectText_length (p : PipePaths) :
    (connectText p.req p.resp p.notif).length
      = p.req.bytes.length + p.resp.bytes.length + p.notif.bytes.length + 4 := by
  rw [connectText_eq, scanHead]
  simp only [List.length_cons, List.length_append]
  omega

/-! ## Registrations with proper paths -/

/-- A path that is not empty and has neither a bar nor white space in it. -/
def IsPath (path : CStr) : Prop := path.bytes ≠ [] ∧ ∀ b ∈ path.bytes, b ≠ BAR ∧ isSpace b = false

instance (path : CStr) : Decidable (IsPath path) := inferInstanceAs (Decidable (_ ∧ _))

/-- Three proper paths whose message is not cut. -/
structure Registration where
  paths : PipePaths
  req : IsPath paths.req
  resp : IsPath paths.resp
  notif : IsPath paths.notif
  fits : (connectText paths.req paths.resp paths.notif).length ≤ 79

theorem IsPath.bar_notMem {path : CStr} (h : IsPath path) : BAR ∉ path.bytes :=
  fun hbar => (h.2 BAR hbar).1 rfl

namespace Registration

def message (r : Registration) : List Byte := connectMessage r.paths

theorem message_eq (r : Registration) :
    r.message = connectText r.paths.req r.paths.resp r.paths.notif := by
  rw [message, connectMessage, kvsConnect_eq, List.take_of_length_le r.fits]

theorem nul_notMem_message (r : Registration) : (0 : Byte) ∉ r.message := by
  rw [message_eq]
  exact nul_notMem_connectText _ _ _

theorem message_length_le (r : Registration) : r.message.length ≤ 79 := by
  rw [message_eq]
  exact r.fits

theorem isSpace_message (r : Registration) {b : Byte} (hb : b ∈ r.message) : isSpace b = false := by
  rw [message_eq, connectText_eq, scanHead] at hb
  simp only [List.mem_cons, List.mem_append] at hb
  rcases hb with rfl | rfl | hb | rfl | hb | rfl | hb
  · decide
  · decide
  · exact (r.req.2 b hb).2
  · decide
  · exact (r.resp.2 b hb).2
  · decide
  · exact (r.notif.2 b hb).2

/-- Read over a slot without white space, a registration is scanned as sent exactly when the text of the
    slot ends where it does. -/
theorem sessionPaths_overwrite_iff (r : Registration) {slot : List Byte} (hslot : slot.length = SLOT_SIZE)
    (hspace : ∀ b ∈ slot, b = 0 ∨ isSpace b = false) :
    sessionPaths (overwrite slot r.message) = some r.paths ↔
      untilNul (overwrite slot r.message) = r.message := by
  have hfits := r.fits
  rw [connectText_length] at hfits
  have hsize : (overwrite slot r.message).length = SLOT_SIZE := by
    rw [overwrite_length (hslot ▸ r.message_length_le.trans (by decide)), hslot]
  by_cases hnul : (0 : Byte) ∈ overwrite slot r.message
  case neg =>
    -- the text of such a slot is longer than any message
    rw [sessionPaths_noNul hsize hnul, untilNul_of_noNul hnul]
    refine iff_of_false (by simp) (fun hsame => ?_)
    have hshort := r.message_length_le
    rw [← hsame, hsize] at hshort
    exact absurd hshort (by decide)
  -- what is left of the slot in front of its first NUL runs on from the notification path
  have htext : untilNul (overwrite slot r.message)
      = r.message ++ untilNul (slot.drop r.message.length) := by
    rw [overwrite, untilNul_append r.nul_notMem_message]
  have hhead : (CStr.ofBuffer (overwrite slot r.message)).bytes
      = scanHead r.paths (r.paths.notif.bytes ++ untilNul (slot.drop r.message.length)) := by
    show untilNul (overwrite slot r.message) = _
    rw [htext]
    simp [r.message_eq, connectText_eq, scanHead]
  have hword : ∀ b ∈ r.paths.notif.bytes ++ untilNul (slot.drop r.message.length),
      isSpace b = false := by
    intro b hb
    rcases List.mem_append.mp hb with hb | hb
    · exact (r.notif.2 b hb).2
    · have hmem : b ∈ slot.drop r.message.length := (List.takeWhile_sublist _).subset hb
      rcases hspace b (List.mem_of_mem_drop hmem) with rfl | h
      · exact absurd hb (nul_notMem_untilNul _)
      · exact h
  rw [sessionPaths_eq hsize hnul, htext, List.append_right_eq_self,
    scanPaths_head_iff hhead ⟨r.req.1, r.req.bar_notMem, by simp only [MAX_PIPE_PATH_LENGTH]; omega⟩
      ⟨r.resp.1, r.resp.bar_notMem, by simp only [MAX_PIPE_PATH_LENGTH]; omega⟩
      ⟨by simp [r.notif.1], hword⟩, List.append_right_eq_self]
  constructor
  · rintro ⟨_, hnil⟩
    exact hnil
  · intro hnil
    refine ⟨?_, hnil⟩
    rw [hnil, List.append_nil]
    simp only [MAX_PIPE_PATH_LENGTH]
    omega

end Registration

/-! ## Through the queue -/

variable {T : Type} [Fintype T] [DecidableEq T]

/-- The messages that were read into the slot of the `j`-th registration before it. -/
def slotHistory (regs : List Registration) (j : Nat) : List (List Byte) :=
  onSlot MAX_SESSION_COUNT ((regs.map Registration.message).take j) (slotOf MAX_SESSION_COUNT j)

/-- They are those of the earlier registrations with the same index. -/
theorem mem_slotHistory_iff {regs : List Registration} {j : Nat} {m : List Byte} :
    m ∈ slotHistory regs j ↔ ∃ i < j, i % MAX_SESSION_COUNT = j % MAX_SESSION_COUNT ∧
      ∃ q, regs[i]? = some q ∧ q.message = m := by
  rw [slotHistory, mem_onSlot_iff]
  constructor
  · rintro ⟨i, hi, hget⟩
    rw [List.getElem?_take] at hget
    split at hget
    · rename_i hlt
      rw [List.getElem?_map, Option.map_eq_some_iff] at hget
      exact ⟨i, hlt, congrArg Fin.val hi, hget⟩
    · exact absurd hget (by simp)
  · rintro ⟨i, hlt, hi, q, hq, rfl⟩
    refine ⟨i, Fin.ext hi, ?_⟩
    rw [List.getElem?_take_of_lt hlt, List.getElem?_map, hq, Option.map_some]

theorem exists_of_mem_slotHistory {regs : List Registration} {j : Nat} {m : List Byte}
    (h : m ∈ slotHistory regs j) : ∃ q : Registration, q.message = m := by
  obtain ⟨_, _, _, q, _, hq⟩ := mem_slotHistory_iff.mp h
  exact ⟨q, hq⟩

/-- The slot before the `j`-th registration: whole, and without white space. -/
theorem slotHistory_length (regs : List Registration) (j : Nat) :
    (fill SLOT_SIZE (slotHistory regs j)).length = SLOT_SIZE := by
  apply fill_length
  intro m hm
  obtain ⟨q, rfl⟩ := exists_of_mem_slotHistory hm
  exact q.message_length_le.trans (by decide)

theorem isSpace_slotHistory {regs : List Registration} {j : Nat} {b : Byte}
    (hb : b ∈ fill SLOT_SIZE (slotHistory regs j)) : b = 0 ∨ isSpace b = false := by
  rcases mem_fill hb with hzero | ⟨m, hm, hbm⟩
  · exact Or.inl hzero
  · obtain ⟨q, rfl⟩ := exists_of_mem_slotHistory hm
    exact Or.inr (q.isSpace_message hbm)

/-- **Paths from a used slot.** Whatever the schedule, the `j`-th slot copied gives the paths of the
    `j`-th registration if and only if no earlier registration in that slot is longer. -/
theorem registration_paths_iff (regs : List Registration) {sched : List (Thread T)}
    {s : State MAX_SESSION_COUNT T (List Byte) (List Byte)}
    (hrun : run overwrite sched (registrationQueue T (regs.map Registration.message)) = some s)
    {j : Nat} (hj : j < s.taken.length) {r : Registration} (hr : regs[j]? = some r) :
    sessionPaths s.taken[j].2 = some r.paths ↔
      ∀ i < j, i % MAX_SESSION_COUNT = j % MAX_SESSION_COUNT →
        ∀ q, regs[i]? = some q → q.message.length ≤ r.message.length := by
  have hmsg : (regs.map Registration.message)[j]? = some r.message := by
    rw [List.getElem?_map, hr, Option.map_some]
  have hslot : s.taken[j].2 = overwrite (fill SLOT_SIZE (slotHistory regs j)) r.message := by
    rw [taken_eq hrun hj, leftAt_eq hmsg]
    rfl
  have hnul : ∀ m ∈ slotHistory regs j, (0 : Byte) ∉ m := by
    intro m hm
    obtain ⟨q, rfl⟩ := exists_of_mem_slotHistory hm
    exact q.nul_notMem_message
  rw [hslot, r.sessionPaths_overwrite_iff (slotHistory_length regs j) (fun _ => isSpace_slotHistory),
    untilNul_overwrite_fill_iff hnul r.nul_notMem_message]
  constructor
  · intro hall i hlt hi q hq
    exact hall _ (mem_slotHistory_iff.mpr ⟨i, hlt, hi, q, hq, rfl⟩)
  · intro hall m hm
    obtain ⟨i, hlt, hi, q, hq, rfl⟩ := mem_slotHistory_iff.mp hm
    exact hall i hlt hi q hq

/-- The host's four lines and a manager's six, for so many registrations one after the other. -/
def oneByOne (registrations : Nat) : List (Thread (Fin 1)) :=
  (List.replicate registrations (List.replicate 4 .producer ++ List.replicate 6 (.consumer 0))).flatten

/-- One-letter paths, the request path repeated `k` times. -/
def lettersPaths (k : Nat) : PipePaths :=
  ⟨CStr.ofBuffer (List.replicate k 97), ⟨[98], by decide⟩, ⟨[99], by decide⟩⟩

/-- The registration `1|a|b|c`. -/
def shortRegistration : Registration :=
  ⟨lettersPaths 1, by decide +kernel, by decide +kernel, by decide +kernel, by decide +kernel⟩

/-- The registration `1|aa|b|c`. -/
def longRegistration : Registration :=
  ⟨lettersPaths 2, by decide +kernel, by decide +kernel, by decide +kernel, by decide +kernel⟩

/-- The fourth registration goes into the slot of the first, which is shorter. -/
theorem registration_paths_longer :
    ∃ s, run overwrite (oneByOne 4) (registrationQueue (Fin 1)
        ([shortRegistration, longRegistration, shortRegistration, longRegistration].map
          Registration.message)) = some s ∧
      ∃ hj : 3 < s.taken.length, sessionPaths s.taken[3].2 = some longRegistration.paths := by
  have hends : (run overwrite (oneByOne 4) (registrationQueue (Fin 1)
      ([shortRegistration, longRegistration, shortRegistration, longRegistration].map
        Registration.message))).any (fun s => decide (3 < s.taken.length)) = true := by
    decide +kernel
  obtain ⟨s, hrun, hj⟩ := (Option.any_eq_true _ _).mp hends
  have hj' : 3 < s.taken.length := of_decide_eq_true hj
  refine ⟨s, hrun, hj', (registration_paths_iff _ hrun hj' rfl).mpr ?_⟩
  intro i hi hslot q hq
  have hfirst : i = 0 := by
    simp only [MAX_SESSION_COUNT] at hslot
    omega
  subst hfirst
  rw [← Option.some.inj hq]
  decide +kernel

/-- **The fourth client.** Its slot held a longer registration, and the session is opened on the
    notification path `cc`, not `c`. -/
theorem registration_paths_stale :
    (run overwrite (oneByOne 4) (registrationQueue (Fin 1)
        ([longRegistration, longRegistration, longRegistration, shortRegistration].map
          Registration.message))).map (fun s => s.taken.map (fun c => sessionPaths c.2))
      = some [some longRegistration.paths, some longRegistration.paths, some longRegistration.paths,
          some { shortRegistration.paths with notif := ⟨[99, 99], by decide⟩ }] ∧
    shortRegistration.paths ≠ { shortRegistration.paths with notif := ⟨[99, 99], by decide⟩ } := by
  decide +kernel

/-! ## Reads of whole messages -/

/-- A read of the registration FIFO, whose writers write each message at once: the messages of one client
    or more, up to the size of a slot. -/
structure HostRead where
  clients : List PipePaths
  ne_nil : clients ≠ []
  length_le : (clients.flatMap connectMessage).length ≤ SLOT_SIZE

/-- The bytes the read returns. -/
def HostRead.data (r : HostRead) : List Byte := r.clients.flatMap connectMessage

/-- A slot after a read into it, the bytes behind the read taken as zero. -/
def freshSlot (data : List Byte) : List Byte := overwrite (List.replicate SLOT_SIZE 0) data

/-- Paths that survive their message: `%[^|]` takes the first two, `%s` the third, and the text is not
    cut. -/
structure IsReadable (p : PipePaths) : Prop where
  req : p.req.bytes ≠ [] ∧ BAR ∉ p.req.bytes
  resp : p.resp.bytes ≠ [] ∧ BAR ∉ p.resp.bytes
  notif : p.notif.bytes ≠ [] ∧ ∀ b ∈ p.notif.bytes, isSpace b = false
  fits : (connectText p.req p.resp p.notif).length ≤ 79

/-- A fresh slot with a message in it: what is sent, the slot's size, a NUL in it, and its text. -/
theorem freshSlot_connectMessage (p : PipePaths) :
    (connectMessage p).length ≤ 79 ∧ (freshSlot (connectMessage p)).length = SLOT_SIZE ∧
      (0 : Byte) ∈ freshSlot (connectMessage p) ∧
      (CStr.ofBuffer (freshSlot (connectMessage p))).bytes = connectMessage p := by
  have hmsg : connectMessage p = (connectText p.req p.resp p.notif).take 79 := kvsConnect_eq _ _ _
  have hlen : (connectMessage p).length ≤ 79 := hmsg ▸ List.length_take_le _ _
  have hnul : (0 : Byte) ∉ connectMessage p := by
    rw [hmsg]
    exact fun h => nul_notMem_connectText _ _ _ (List.mem_of_mem_take h)
  refine ⟨hlen, ?_, ?_, ?_⟩
  · rw [freshSlot, overwrite_length (by
      rw [List.length_replicate]
      exact hlen.trans (by decide)), List.length_replicate]
  · rw [freshSlot, overwrite, List.drop_replicate, List.mem_append, List.mem_replicate]
    have hroom : (connectMessage p).length < SLOT_SIZE := hlen.trans_lt (by decide)
    exact Or.inr ⟨Nat.sub_ne_zero_of_lt hroom, rfl⟩
  · show untilNul (overwrite _ _) = _
    rw [overwrite, untilNul_append hnul, List.drop_replicate, untilNul_zeros, List.append_nil]

/-- A message scanned in a fresh slot gives readable paths, its own or others. -/
theorem isReadable_of_sessionPaths {p q : PipePaths}
    (hscan : sessionPaths (freshSlot (connectMessage p)) = some q) : IsReadable q := by
  obtain ⟨hlen, hsize, hnul, htext⟩ := freshSlot_connectMessage p
  rw [sessionPaths_eq hsize hnul] at hscan
  obtain ⟨hreq, hresp, hnotif, htaken⟩ := scanPaths_inv hscan
  rw [htext] at htaken
  have hsum := connectText_length q
  exact ⟨hreq, hresp, hnotif, by omega⟩

/-- **One message in a fresh slot** is scanned as sent exactly when its paths are readable. -/
theorem sessionPaths_freshSlot_iff (p : PipePaths) :
    sessionPaths (freshSlot (connectMessage p)) = some p ↔ IsReadable p := by
  constructor
  · exact isReadable_of_sessionPaths
  · intro h
    obtain ⟨_, hsize, hnul, htext⟩ := freshSlot_connectMessage p
    have hmsg : connectMessage p = connectText p.req p.resp p.notif :=
      (kvsConnect_eq _ _ _).trans (List.take_of_length_le h.fits)
    have hfits := h.fits
    rw [connectText_length] at hfits
    have hhead : (CStr.ofBuffer (freshSlot (connectMessage p))).bytes = scanHead p p.notif.bytes := by
      rw [htext, hmsg, connectText_eq]
    rw [sessionPaths_eq hsize hnul]
    refine (scanPaths_head_iff hhead ⟨h.req.1, h.req.2, ?_⟩ ⟨h.resp.1, h.resp.2, ?_⟩ h.notif).mpr
      ⟨?_, rfl⟩
    all_goals simp only [MAX_PIPE_PATH_LENGTH]; omega

/-- **Connecting.** Proper paths reach the manager through a zeroed slot if and only if together they have
    at most 75 bytes: `build_message_paths` cuts its text to the limit of one path. -/
theorem connect_paths_iff (p : PipePaths) (hreq : IsPath p.req) (hresp : IsPath p.resp)
    (hnotif : IsPath p.notif) :
    sessionPaths (freshSlot (connectMessage p)) = some p ↔
      p.req.bytes.length + p.resp.bytes.length + p.notif.bytes.length ≤ 75 := by
  have hsum := connectText_length p
  rw [sessionPaths_freshSlot_iff]
  constructor
  · intro h
    have hfits := h.fits
    omega
  · intro hle
    exact ⟨⟨hreq.1, hreq.bar_notMem⟩, ⟨hresp.1, hresp.bar_notMem⟩,
      ⟨hnotif.1, fun b hb => (hnotif.2 b hb).2⟩, by omega⟩

/-- Three paths of `k` letters each. -/
def evenPaths (k : Nat) : PipePaths :=
  ⟨CStr.ofBuffer (List.replicate k 97), CStr.ofBuffer (List.replicate k 98),
    CStr.ofBuffer (List.replicate k 99)⟩

/-- Paths of 25 bytes just fit. -/
theorem connect_paths_fit :
    sessionPaths (freshSlot (connectMessage (evenPaths 25))) = some (evenPaths 25) :=
  (connect_paths_iff (evenPaths 25) (by decide +kernel) (by decide +kernel) (by decide +kernel)).mpr
    (by decide +kernel)

/-- Three paths of 26 bytes, far below the limit of 80, and the session is opened on a notification path
    that has lost its last three bytes. -/
theorem connect_paths_cut :
    (IsPath (evenPaths 26).req ∧ IsPath (evenPaths 26).resp ∧ IsPath (evenPaths 26).notif) ∧
    sessionPaths (freshSlot (connectMessage (evenPaths 26)))
      = some { evenPaths 26 with notif := CStr.ofBuffer (List.replicate 23 99) } ∧
    { evenPaths 26 with notif := CStr.ofBuffer (List.replicate 23 99) } ≠ evenPaths 26 := by
  decide +kernel

/-! ## One session a client -/

section Groups

variable {α β : Type} {f : β → Option α} {members : β → List α} {groups : List β}

/-- Groups that are not empty and have no more members than they are many have one each. -/
theorem members_single (hne : ∀ g ∈ groups, members g ≠ [])
    (hlen : (groups.flatMap members).length ≤ groups.length) : ∀ g ∈ groups, ∃ a, members g = [a] := by
  have hcount : ∀ gs : List β, (∀ g ∈ gs, members g ≠ []) →
      gs.length ≤ (gs.flatMap members).length := by
    intro gs hgs
    induction gs with
    | nil => exact Nat.le_refl _
    | cons g gs ih =>
        have hg := List.length_pos_iff.mpr (hgs g List.mem_cons_self)
        have hrest := ih (fun g' hg' => hgs g' (List.mem_cons_of_mem g hg'))
        simp only [List.flatMap_cons, List.length_append, List.length_cons]
        omega
  induction groups with
  | nil => simp
  | cons g groups ih =>
      have hrest : ∀ g' ∈ groups, members g' ≠ [] := fun g' hg' => hne g' (List.mem_cons_of_mem g hg')
      have hpos := hcount groups hrest
      have hg := List.length_pos_iff.mpr (hne g List.mem_cons_self)
      simp only [List.flatMap_cons, List.length_append, List.length_cons] at hlen
      rw [List.forall_mem_cons]
      exact ⟨List.length_eq_one_iff.mp (by omega), ih hrest (by omega)⟩

theorem map_eq_flatMap (h : ∀ g ∈ groups, ∃ a, members g = [a] ∧ f g = some a) :
    groups.map f = (groups.flatMap members).map some := by
  induction groups with
  | nil => rfl
  | cons g groups ih =>
      rw [List.forall_mem_cons] at h
      obtain ⟨⟨a, hmembers, hfirst⟩, hrest⟩ := h
      rw [List.map_cons, List.flatMap_cons, hmembers, hfirst, ih hrest]
      rfl

/-- As many results as groups, none of them empty, are the members of the groups only when each group has
    one member. `P` holds of what can come out of such a group, and of the members that come out as they
    are. -/
theorem perm_flatMap_iff {P : α → Prop} (hne : ∀ g ∈ groups, members g ≠ [])
    (hout : ∀ g a b, members g = [a] → f g = some b → P b)
    (hown : ∀ g a, members g = [a] → P a → f g = some a) :
    (groups.map f).Perm ((groups.flatMap members).map some) ↔
      ∀ g ∈ groups, ∃ a, members g = [a] ∧ P a := by
  constructor
  · intro hperm g hg
    have hlen := hperm.length_eq
    rw [List.length_map, List.length_map] at hlen
    have hsingle := members_single hne hlen.ge
    obtain ⟨a, ha⟩ := hsingle g hg
    refine ⟨a, ha, ?_⟩
    -- the member is the result of some group
    have hmem : some a ∈ (groups.flatMap members).map some :=
      List.mem_map_of_mem (List.mem_flatMap.mpr ⟨g, hg, by simp [ha]⟩)
    obtain ⟨g', hg', hfrom⟩ := List.mem_map.mp (hperm.mem_iff.mpr hmem)
    obtain ⟨b, hb⟩ := hsingle g' hg'
    exact hout g' b a hb hfrom
  · intro hall
    refine List.Perm.of_eq (map_eq_flatMap ?_)
    intro g hg
    obtain ⟨a, ha, hP⟩ := hall g hg
    exact ⟨a, ha, hown g a ha hP⟩

end Groups

/-- The sessions of these reads are those of their clients, each on its own paths, if and only if each
    read is of one client alone, and a readable one. -/
theorem sessions_perm_iff (reads : List HostRead) :
    (reads.map (fun r => sessionPaths (freshSlot r.data))).Perm
        ((reads.flatMap HostRead.clients).map some) ↔
      ∀ r ∈ reads, ∃ p, r.clients = [p] ∧ IsReadable p := by
  have hdata : ∀ r : HostRead, ∀ p, r.clients = [p] → r.data = connectMessage p := by
    intro r p hp
    rw [HostRead.data, hp, List.flatMap_singleton]
  refine perm_flatMap_iff (fun r _ => r.ne_nil) ?_ ?_
  · intro r p q hp hscan
    rw [hdata r p hp] at hscan
    exact isReadable_of_sessionPaths hscan
  · intro r p hp hread
    rw [hdata r p hp]
    exact (sessionPaths_freshSlot_iff p).mpr hread

/-- Each read goes into a fresh slot. -/
abbrev readFresh : List Byte → List Byte → List Byte := fun _ data => freshSlot data

/-- What the managers have copied so far, one session for each copy. -/
def sessions (s : StartState) : List (Option PipePaths) :=
  s.queue.taken.map (fun c => sessionPaths c.2)

theorem sessions_eq {reads : List HostRead} {s : StartState}
    (h : StartInv readFresh (reads.map HostRead.data) s) :
    sessions s = (reads.take s.queue.taken.length).map (fun r => sessionPaths (freshSlot r.data)) := by
  obtain ⟨hle, htaken⟩ := h.taken
  rw [List.length_map] at hle
  apply List.ext_getElem
  · simp [sessions, hle]
  · intro j hj _
    rw [sessions, List.length_map] at hj
    have hget : (reads.map HostRead.data)[j]? = some reads[j].data := by simp [hj.trans_le hle]
    simp only [sessions, List.getElem_map, List.getElem_take]
    rw [htaken j hj, leftAt_eq hget]

/-- Nothing undefined has happened, and each client has had exactly one session, on its own paths. -/
def EachOnce (reads : List HostRead) (s : StartState) : Prop :=
  s.undefined = false ∧ (sessions s).Perm ((reads.flatMap HostRead.clients).map some)

/-- **One session a client.** From the creation of the host's thread on, however `main`, the host, the
    managers and the ends of the sessions are interleaved, the system comes to a stop. When it has, each
    client has had exactly one session, on its own paths, if and only if the host came to neither
    semaphore before `main` had initialised it, and each read returned the message of one client alone,
    and a readable one. Until then the same holds of the reads copied so far, in their order. -/
theorem sessions_iff (reads : List HostRead) {es : List StartEvent} {s : StartState}
    (hrun : Transition.run (startStep readFresh) es (startState (reads.map HostRead.data)) = some s) :
    es.length ≤ 20 * reads.length + 8 ∧
    (Stopped readFresh s → (EachOnce reads s ↔
      Transition.StepsMeet (startStep readFresh) InitialisedFirst es
        (startState (reads.map HostRead.data)) ∧
      ∀ r ∈ reads, ∃ p, r.clients = [p] ∧ IsReadable p)) ∧
    (sessions s = ((reads.take s.queue.taken.length).flatMap HostRead.clients).map some ↔
      ∀ r ∈ reads.take s.queue.taken.length, ∃ p, r.clients = [p] ∧ IsReadable p) := by
  have hinv := startInv_run hrun
  have hdefined := undefined_iff (s := startState (reads.map HostRead.data)) rfl hrun
  refine ⟨?_, ?_, ?_⟩
  · have hwork := startRun_length hrun
    rw [startWork_startState, List.length_map] at hwork
    omega
  · intro hstop
    rw [EachOnce, ← hdefined]
    refine and_congr_right (fun hok => ?_)
    have hall := handed_of_stopped hinv hok hstop
    rw [List.length_map] at hall
    rw [sessions_eq hinv, hall, List.take_length]
    exact sessions_perm_iff reads
  · rw [← sessions_perm_iff, sessions_eq hinv]
    constructor
    · exact List.Perm.of_eq
    · intro hperm
      have hone := (sessions_perm_iff _).mp hperm
      refine map_eq_flatMap (fun r hr => ?_)
      obtain ⟨p, hp, hread⟩ := hone r hr
      refine ⟨p, hp, ?_⟩
      rw [HostRead.data, hp, List.flatMap_singleton]
      exact (sessionPaths_freshSlot_iff p).mpr hread

/-- `main` to the end of its loop, and then, for so many registrations one after the other, the host's four
    lines, the first manager's six, and the end of its session. -/
def startedFirst (registrations : Nat) : List StartEvent :=
  List.replicate 5 .main ++ (List.replicate registrations
    (List.replicate 4 .host ++ List.replicate 6 (.manager 0) ++ [.sessionEnds 0])).flatten ++ [.host]

/-- The reads of two clients whose messages come alone. -/
def separateReads : List HostRead :=
  [⟨[lettersPaths 1], by decide, by decide +kernel⟩, ⟨[lettersPaths 2], by decide, by decide +kernel⟩]

/-- The read of both messages at once. -/
def coalescedRead : HostRead :=
  ⟨[lettersPaths 1, lettersPaths 2], by decide, by decide +kernel⟩

theorem sessions_separate :
    ∃ s, Transition.run (startStep readFresh) (startedFirst 2)
        (startState (separateReads.map HostRead.data)) = some s ∧
      Stopped readFresh s ∧ EachOnce separateReads s := by
  have hends : (Transition.run (startStep readFresh) (startedFirst 2)
      (startState (separateReads.map HostRead.data))).any (fun s => decide (Stopped readFresh s)) = true := by
    decide +kernel
  obtain ⟨s, hrun, hstop⟩ := (Option.any_eq_true _ _).mp hends
  have hstopped : Stopped readFresh s := of_decide_eq_true hstop
  refine ⟨s, hrun, hstopped, ((sessions_iff separateReads hrun).2.1 hstopped).mpr ⟨?_, ?_⟩⟩
  · decide +kernel
  intro r hr
  have hread : ∀ k, k = 1 ∨ k = 2 → IsReadable (lettersPaths k) := by
    rintro k (rfl | rfl)
    · exact ⟨by decide +kernel, by decide +kernel, by decide +kernel, by decide +kernel⟩
    · exact ⟨by decide +kernel, by decide +kernel, by decide +kernel, by decide +kernel⟩
  simp only [separateReads, List.mem_cons, List.not_mem_nil, or_false] at hr
  rcases hr with rfl | rfl
  · exact ⟨lettersPaths 1, rfl, hread 1 (Or.inl rfl)⟩
  · exact ⟨lettersPaths 2, rfl, hread 2 (Or.inr rfl)⟩

/-- **Two clients, one session.** Both messages in one read: the only session is on the first client's
    request and response paths and on the notification path `c1|aa|b|c`. And a host that is scheduled
    before `main` waits at a semaphore that has no value yet. -/
theorem sessions_coalesced :
    ((Transition.run (startStep readFresh) (startedFirst 1) (startState [coalescedRead.data])).map
        (fun s => (decide (Stopped readFresh s), s.undefined, sessions s))
      = some (true, false, [some { lettersPaths 1 with notif := CStr.ofBuffer (ascii "c1|aa|b|c") }]) ∧
      ¬ [some { lettersPaths 1 with notif := CStr.ofBuffer (ascii "c1|aa|b|c") }].Perm
        (coalescedRead.clients.map some)) ∧
    (Transition.run (startStep readFresh) [.host] (startState (separateReads.map HostRead.data))).map
        (fun s => s.undefined) = some true := by
  decide +kernel

end Kvs
