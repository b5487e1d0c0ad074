import Kvs.Base.Buffer

/-!
# `Server.Session` — the request loop of `thread_manage_session`

A manager thread reads the request pipe into one array of 42 bytes, zeroed when the session starts, and
decodes each request from what the array then holds.
-/

namespace Kvs.Server

/-- What a round of the request loop does. -/
inductive SessionOp where
  | disconnect
  | subscribe (key : CStr)
  | unsubscribe (key : CStr)
  | unrecognized
  | pipeClosed
  deriving DecidableEq

/-- `char request[42] = {0}` -/
def zeroRequest : List Byte := List.replicate 42 0

/-- The `switch` on the op code, with the key it passes on: `strncpy(key, request + 1, 41)`. -/
def decodeRequest (request : List Byte) : SessionOp :=
  let opCode := request.headD 0
  let key := CStr.ofBuffer (strncpy (request.drop 1) 41)
  if opCode = 2 then .disconnect
  else if opCode = 3 then .subscribe key
  else if opCode = 4 then .unsubscribe key
  else .unrecognized

/-- The request loop, from what `request` holds and what the reads return, each at least one byte; the
    end of the list is the end of the pipe. -/
def sessionLoop : List Byte → List (List Byte) → List SessionOp
  | _, [] => [.pipeClosed]
  | request, data :: reads =>
      let request := overwrite request data
      match decodeRequest request with
      | .disconnect => [.disconnect]
      | op => op :: sessionLoop request reads

theorem decodeRequest_cons (opCode : Byte) (rest : List Byte) :
    decodeRequest (opCode :: rest)
      = if opCode = 2 then .disconnect
        else if opCode = 3 then .subscribe (CStr.ofBuffer (strncpy rest 41))
        else if opCode = 4 then .unsubscribe (CStr.ofBuffer (strncpy rest 41))
        else .unrecognized := rfl

theorem sessionLoop_disconnect {request data : List Byte}
    (h : decodeRequest (overwrite request data) = .disconnect) (reads : List (List Byte)) :
    sessionLoop request (data :: reads) = [.disconnect] := by
  rw [sessionLoop]
  simp only [h]

theorem sessionLoop_cons {request data : List Byte}
    (h : decodeRequest (overwrite request data) ≠ .disconnect) (reads : List (List Byte)) :
    sessionLoop request (data :: reads)
      = decodeRequest (overwrite request data) :: sessionLoop (overwrite request data) reads := by
  rw [sessionLoop]
  split
  · rename_i heq
    exact absurd heq h
  · rfl

end Kvs.Server
