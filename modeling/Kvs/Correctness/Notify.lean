import Kvs.Client.Notif
import Kvs.Server.Sequential

/-!
# `Correctness.Notify` — who hears of a write, and what a client would read

`notify_clients` would send a message to every slot of the key's node (`notifyClients_sent`), but nothing
calls it: no command of a job, a `WRITE` on a key with subscribers least of all, sends anything to
anybody (`write_notifies_nobody`).

A message that it sent would not carry the value: `send_msg` stops at the first NUL, which ends the key,
and the client takes both the key and the value from the third byte on. So it prints what was sent only
where the array happens to repeat the key there, and the value is the key (`notification_printed_iff`).
-/

namespace Kvs

open Client Server

/-! ## Who is notified -/

namespace Server.Sequential

/-- Between `w` and `w'`, a message that begins with the key was sent to the descriptor. -/
def Notified (w w' : World) (key : CStr) (fd : Int) : Prop :=
  ∃ new message, w'.sent = w.sent ++ new ∧ (fd, message) ∈ new ∧ key.bytes <+: message

theorem kvsWrite_sent {pairs : List (CStr × CStr)} {mem : Nat → Garbage} {w w' : World}
    (h : kvsWrite pairs mem w = some w') : w'.sent = w.sent := by
  simp only [kvsWrite, Option.bind_eq_bind, Option.bind_eq_some_iff] at h
  obtain ⟨_, _, ht, _, hw⟩ := h
  rw [← Option.some.inj hw]

theorem kvsRead_sent {keys : List CStr} {w w' : World} (h : kvsRead keys w = some w') :
    w'.sent = w.sent := by
  simp only [kvsRead, Option.bind_eq_bind, Option.bind_eq_some_iff] at h
  obtain ⟨_, _, results, _, hw⟩ := h
  rw [← Option.some.inj hw]

theorem kvsDelete_sent {keys : List CStr} {w w' : World} (h : kvsDelete keys w = some w') :
    w'.sent = w.sent := by
  simp only [kvsDelete, Option.bind_eq_bind, Option.bind_eq_some_iff] at h
  obtain ⟨_, _, r, _, hw⟩ := h
  rw [← Option.some.inj hw]

theorem processCommand_sent {mem : Nat → Garbage} {command : JobCmd} {w w' : World}
    (h : processCommand mem command w = some w') : w'.sent = w.sent := by
  cases command with
  | write pairs => exact kvsWrite_sent h
  | read keys => exact kvsRead_sent h
  | delete keys => exact kvsDelete_sent h
  | showAll => rw [← Option.some.inj h]
  | wait delay => rw [← Option.some.inj h]
  | backup => rw [← Option.some.inj h]
  | help => rw [← Option.some.inj h]
  | empty => rw [← Option.some.inj h]
  | invalid => rw [← Option.some.inj h]

/-- **No job sends anything.** -/
theorem processCommands_sent {mem : Nat → Nat → Garbage} {commands : List JobCmd} {w w' : World}
    (h : processCommands mem commands w = some w') : w'.sent = w.sent := by
  induction commands generalizing mem w with
  | nil => rw [← Option.some.inj h]
  | cons command commands ih =>
      rw [processCommands, Option.bind_eq_bind, Option.bind_eq_some_iff] at h
      obtain ⟨w₁, hw₁, hrest⟩ := h
      exact (ih hrest).trans (processCommand_sent hw₁)

theorem not_notified {w w' : World} (h : w'.sent = w.sent) (key : CStr) (fd : Int) :
    ¬ Notified w w' key fd := by
  rintro ⟨new, message, hsent, hmem, _⟩
  have hnew : new = [] := List.append_right_eq_self.mp (hsent.symm.trans h)
  rw [hnew] at hmem
  exact absurd hmem (List.not_mem_nil)

/-- What a call of `notify_clients` on a key that is there would send: one message to each slot. -/
theorem notifyClients_sent (ht : HashTable) (k : Key) {keyNode : KeyNode}
    (hnode : searchNode k.str (ht.table k.bucket) = some keyNode) (i : Fin MAX_SESSION_COUNT) :
    ∃ sent, notifyClients ht k.str = some (sent, 0) ∧
      (keyNode.subscriberFds.get i, sendMsg (notification k.str keyNode.value)) ∈ sent := by
  simp only [notifyClients, subscript_hash, Option.bind_eq_bind, Option.bind_some, hnode]
  refine ⟨_, rfl, List.mem_map.mpr ⟨_, ?_, rfl⟩⟩
  rw [Vector.mem_toList_iff]
  exact Vector.getElem_mem _

/-- **No write notifies anybody.** Whatever the table, and whoever has subscribed to whatever key: when
    `kvs_write` returns, no message about any key, of the pairs or not, has gone to any descriptor, and
    the job the `WRITE` is in does not send one later. -/
theorem write_notifies_nobody (pairs : List (CStr × CStr)) (mem : Nat → Garbage)
    (later : List JobCmd) (laterMem : Nat → Nat → Garbage) (w w₁ w₂ : World)
    (hwrite : kvsWrite pairs mem w = some w₁) (hlater : processCommands laterMem later w₁ = some w₂)
    (key : CStr) (fd : Int) : ¬ Notified w w₁ key fd ∧ ¬ Notified w w₂ key fd :=
  ⟨not_notified (kvsWrite_sent hwrite) key fd,
    not_notified ((processCommands_sent hlater).trans (kvsWrite_sent hwrite)) key fd⟩

theorem subscribe_accepted : ∃ ht, kvsSubscribe tableWithA keyA.str 5 = some (ht, 0) := by
  have hret : (kvsSubscribe tableWithA keyA.str 5).map Prod.snd = some 0 := by decide +kernel
  obtain ⟨⟨ht, ret⟩, hht, rfl⟩ := Option.map_eq_some_iff.mp hret
  exact ⟨ht, hht⟩

/-- Descriptor 5 subscribes to `a`, which is accepted, and `WRITE [(a,2)]` tells it nothing. -/
theorem write_after_subscribe_silent :
    ∃ ht w, kvsSubscribe tableWithA keyA.str 5 = some (ht, 0) ∧
      kvsWrite [(keyA.str, ⟨ascii "2", by decide⟩)] zeroMem ⟨ht, [], []⟩ = some w ∧
      ¬ Notified ⟨ht, [], []⟩ w keyA.str 5 := by
  obtain ⟨ht, hht⟩ := subscribe_accepted
  exact ⟨ht, _, hht, kvsWrite_keys [(keyA, ⟨ascii "2", by decide⟩)] zeroMem ⟨ht, [], []⟩,
    not_notified rfl keyA.str 5⟩

/-- The same `WRITE`, with `SHOW` after it. -/
theorem write_notifies_nobody_show :
    ∃ ht w₁ w₂, kvsSubscribe tableWithA keyA.str 5 = some (ht, 0) ∧
      kvsWrite [(keyA.str, ⟨ascii "2", by decide⟩)] zeroMem ⟨ht, [], []⟩ = some w₁ ∧
      processCommands (fun _ => zeroMem) [.showAll] w₁ = some w₂ ∧
      ¬ Notified ⟨ht, [], []⟩ w₁ keyA.str 5 ∧ ¬ Notified ⟨ht, [], []⟩ w₂ keyA.str 5 := by
  obtain ⟨ht, hht⟩ := subscribe_accepted
  have hwrite := kvsWrite_keys [(keyA, ⟨ascii "2", by decide⟩)] zeroMem ⟨ht, [], []⟩
  exact ⟨ht, _, _, hht, hwrite, rfl,
    write_notifies_nobody _ _ [.showAll] (fun _ => zeroMem) _ _ _ hwrite rfl keyA.str 5⟩

end Server.Sequential

/-! ## What a client prints -/

/-- The bytes of a notification on the pipe are those of the key alone. -/
theorem sendMsg_notification {key : CStr} (hkey : key.bytes.length ≤ 39) (value : CStr) :
    Server.sendMsg (notification key value) = key.bytes := by
  rw [Server.sendMsg, notification, strncpy_of_length_le (hkey.trans (by decide)), List.append_assoc]
  obtain ⟨m, hm⟩ := Nat.exists_eq_succ_of_ne_zero (n := 40 - key.bytes.length) (by omega)
  rw [hm, List.replicate_succ, List.cons_append]
  exact untilNul_append_nul key.noNul _

theorem sendMsg_notification_length (key value : CStr) :
    (Server.sendMsg (notification key value)).length ≤ 80 := by
  have hsize : ∀ src : List Byte, (strncpy src 40).length = 40 := by
    intro src
    have hle : (untilNul (src.take 40)).length ≤ 40 :=
      (List.takeWhile_sublist _).length_le.trans (List.length_take_le 40 src)
    rw [strncpy, List.length_append, List.length_replicate]
    omega
  have hlen : (notification key value).length = 80 := by
    rw [notification, List.length_append, hsize, hsize]
  exact (List.takeWhile_sublist _).length_le.trans hlen.le

/-- The client's array when it has read the notification into it. -/
def received (key value : CStr) (notification : NotifArray) : NotifArray :=
  notification.read (Server.sendMsg (Server.notification key value))
    (sendMsg_notification_length key value)

/-- The array, once the key has been read into its first bytes, holds the key again from the third byte
    on, and a NUL behind it. -/
def RepeatsKey (key : CStr) (notification : NotifArray) : Prop :=
  (∀ i < key.bytes.length,
    (key.bytes ++ notification.bytes.drop key.bytes.length).getD (i + 2) 0 = key.bytes.getD i 0) ∧
  notification.bytes.getD (key.bytes.length + 2) 0 = 0

instance (key : CStr) (notification : NotifArray) : Decidable (RepeatsKey key notification) :=
  inferInstanceAs (Decidable (_ ∧ _))

/-- The string at the third byte of the array, its first 40 bytes only, is the key. -/
theorem copied_key_iff {key : CStr} (hkey : key.bytes.length ≤ 39) (value : CStr)
    (notification : NotifArray) :
    untilNul (((received key value notification).bytes.drop 2).take 40) = key.bytes ↔
      RepeatsKey key notification := by
  have hbytes : (received key value notification).bytes
      = key.bytes ++ notification.bytes.drop key.bytes.length := by
    show overwrite notification.bytes (Server.sendMsg _) = _
    rw [sendMsg_notification hkey, overwrite]
  -- the client copies from its third byte, past the first two of the key
  have hat : ∀ i < 40, (((received key value notification).bytes.drop 2).take 40).getD i 0
      = (key.bytes ++ notification.bytes.drop key.bytes.length).getD (i + 2) 0 := by
    intro i hi
    rw [hbytes, List.getD_eq_getElem?_getD, List.getElem?_take_of_lt hi, List.getElem?_drop,
      Nat.add_comm 2 i, ← List.getD_eq_getElem?_getD]
  have hend : (key.bytes ++ notification.bytes.drop key.bytes.length).getD (key.bytes.length + 2) 0
      = notification.bytes.getD (key.bytes.length + 2) 0 := by
    rw [List.getD_append_right _ _ _ _ (by omega), List.getD_eq_getElem?_getD, List.getElem?_drop,
      List.getD_eq_getElem?_getD]
    congr 3
    omega
  rw [untilNul_eq_iff key.noNul, hat _ (by omega), hend, RepeatsKey]
  refine and_congr_left (fun _ => forall_congr' (fun i => ?_))
  refine imp_congr_right (fun hi => ?_)
  rw [hat i (by omega)]

/-- **Notifications.** For every key of 1 to 39 bytes, every value and whatever the client's array holds
    from before: the message that `notify_clients` sends, received by one read, makes the client print
    that key and that value if and only if the value is the key and the array repeats the key. -/
theorem notification_printed_iff (key value : CStr) (hkey : key.bytes.length ≤ 39)
    (notification : NotifArray) (behindKey behindValue : List Byte) :
    threadNotif (received key value notification) behindKey behindValue = (key, value) ↔
      value = key ∧ RepeatsKey key notification := by
  rw [← copied_key_iff hkey value]
  have hlt : key.bytes.length < 40 := by omega
  -- both strings are copied from the same place, so they differ in nothing
  have hprinted : ∀ behind, CStr.ofBuffer (strncpy ((received key value notification).bytes.drop 2) 40
      ++ behind) = key ↔
        untilNul (((received key value notification).bytes.drop 2).take 40) = key.bytes := by
    intro behind
    rw [← untilNul_strncpy_append hlt _ behind]
    exact ⟨fun h => congrArg CStr.bytes h, fun h => CStr.ext h⟩
  rw [threadNotif, Prod.mk.injEq, hprinted behindKey]
  constructor
  · rintro ⟨hcopy, hvalue⟩
    exact ⟨hvalue.symm.trans ((hprinted behindValue).mpr hcopy), hcopy⟩
  · rintro ⟨rfl, hcopy⟩
    exact ⟨hcopy, (hprinted behindValue).mpr hcopy⟩

/-- An array that holds no byte but zero. -/
def zeroArray : NotifArray := ⟨List.replicate 80 0, List.length_replicate⟩

/-- **A notification lost.** Key `a`, value `1`, read into a zeroed array: both strings printed are
    empty. -/
theorem notification_printed_empty :
    threadNotif (received ⟨ascii "a", by decide⟩ ⟨ascii "1", by decide⟩ zeroArray) [] []
        = (⟨[], by decide⟩, ⟨[], by decide⟩) ∧
      threadNotif (received ⟨ascii "a", by decide⟩ ⟨ascii "1", by decide⟩ zeroArray) [] []
        ≠ (⟨ascii "a", by decide⟩, ⟨ascii "1", by decide⟩) := by
  decide +kernel

theorem notification_printed_repeated :
    threadNotif (received ⟨ascii "aa", by decide⟩ ⟨ascii "aa", by decide⟩
        ⟨ascii "bbaa" ++ List.replicate 76 0, by decide⟩) [] []
      = (⟨ascii "aa", by decide⟩, ⟨ascii "aa", by decide⟩) :=
  (notification_printed_iff ⟨ascii "aa", by decide⟩ ⟨ascii "aa", by decide⟩ (by decide)
    ⟨ascii "bbaa" ++ List.replicate 76 0, by decide⟩ [] []).mpr ⟨rfl, by decide +kernel⟩

end Kvs
