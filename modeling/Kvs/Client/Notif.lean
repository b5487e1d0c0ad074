import Kvs.Base.Buffer

/-!
# `Client.Notif` — the thread that prints notifications

`thread_notif` of the client's `main.c` reads into one array, again and again, and copies the key and the
value out of it, both from the same place.
-/

namespace Kvs.Client

/-- `char notification[2*MAX_STRING_SIZE]`, with whatever bytes it holds. -/
structure NotifArray where
  bytes : List Byte
  size : bytes.length = 80

/-- The array after `read(*notif_fd, notification, 2*MAX_STRING_SIZE)` has returned this. -/
def NotifArray.read (notification : NotifArray) (data : List Byte) (h : data.length ≤ 80) :
    NotifArray where
  bytes := overwrite notification.bytes data
  size := (overwrite_length (h.trans notification.size.ge)).trans notification.size

/-- The two strings that `printf("(%s,%s)\n", key, value)` prints. `strncpy` need not end them, so they
    may run on into what stands behind the arrays `key` and `value`. -/
def threadNotif (notification : NotifArray) (behindKey behindValue : List Byte) : CStr × CStr :=
  let key := strncpy (notification.bytes.drop 2) 40
  let value := strncpy (notification.bytes.drop 2) 40
  (CStr.ofBuffer (key ++ behindKey), CStr.ofBuffer (value ++ behindValue))

end Kvs.Client
