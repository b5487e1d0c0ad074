import Kvs.Base.Buffer

/-!
# `Client.Api` — the messages a client sends

`api.c` builds every message in a zeroed array of the size the server reads, and `send_msg` then sends
the string the array holds: the bytes in front of the first NUL, not the array. What the calls return is
here too.
-/

namespace Kvs.Client

/-- `send_msg`: its loop goes on until all of the string is written. -/
def sendMsg (str : List Byte) : List Byte := untilNul str

/-! ## Requests of a session -/

/-- `message_to_send` of `kvs_subscribe` and `kvs_unsubscribe`: 42 bytes, the op code and the key. -/
def messageToSend (opCode : Byte) (key : CStr) : List Byte := opCode :: strncpy key.bytes 41

def kvsSubscribe (key : CStr) : List Byte := sendMsg (messageToSend 3 key)

def kvsUnsubscribe (key : CStr) : List Byte := sendMsg (messageToSend 4 key)

def kvsDisconnect : List Byte := sendMsg (2 :: List.replicate 41 0)

/-- What `kvs_subscribe` returns. The read of the response pipe is commented out: `result` is set to
    `'s'`, whatever the pipe holds. -/
def kvsSubscribeReturns (_responses : List Byte) : Int :=
  let result : Byte := 115
  if result ≠ 115 then 1 else 0

/-- What `kvs_unsubscribe` returns, `result` being set to `'u'`. -/
def kvsUnsubscribeReturns (_responses : List Byte) : Int :=
  let result : Byte := 117
  if result ≠ 117 then 1 else 0

/-- What reaches the pipe is the op code and the key, unpadded and unterminated. -/
theorem sendMsg_messageToSend {opCode : Byte} (hop : opCode ≠ 0) {key : CStr}
    (hkey : key.bytes.length ≤ 41) : sendMsg (messageToSend opCode key) = opCode :: key.bytes := by
  have hnul : (0 : Byte) ∉ opCode :: key.bytes := by
    rw [List.mem_cons, not_or]
    exact ⟨fun h => hop h.symm, key.noNul⟩
  rw [sendMsg, messageToSend, strncpy_of_length_le hkey, ← List.cons_append, untilNul_append hnul,
    untilNul_zeros, List.append_nil]

/-! ## Connecting -/

/-- `"1|%s|%s|%s"` -/
def connectText (reqPipePath respPipePath notifPipePath : CStr) : List Byte :=
  ascii "1|" ++ (reqPipePath.bytes ++ BAR :: (respPipePath.bytes ++ BAR :: notifPipePath.bytes))

/-- `build_message_paths`: the text, cut to what `MAX_PIPE_PATH_LENGTH` bytes hold. -/
def buildMessagePaths (reqPipePath respPipePath notifPipePath : CStr) (message : List Byte) :
    List Byte :=
  overwrite message
    (snprintf MAX_PIPE_PATH_LENGTH (connectText reqPipePath respPipePath notifPipePath))

/-- The message `kvs_connect` writes to the registration FIFO. -/
def kvsConnect (reqPipePath respPipePath notifPipePath : CStr) : List Byte :=
  sendMsg (buildMessagePaths reqPipePath respPipePath notifPipePath
    (List.replicate (1 + 3 * MAX_PIPE_PATH_LENGTH) 0))

theorem nul_notMem_connectText (reqPipePath respPipePath notifPipePath : CStr) :
    (0 : Byte) ∉ connectText reqPipePath respPipePath notifPipePath := by
  have hreq := reqPipePath.noNul
  have hresp := respPipePath.noNul
  have hnotif := notifPipePath.noNul
  have hbar : (0 : Byte) ≠ BAR := by decide
  simp [connectText, ascii, hreq, hresp, hnotif, hbar]

theorem kvsConnect_eq (reqPipePath respPipePath notifPipePath : CStr) :
    kvsConnect reqPipePath respPipePath notifPipePath
      = (connectText reqPipePath respPipePath notifPipePath).take 79 := by
  have hnul : (0 : Byte) ∉ (connectText reqPipePath respPipePath notifPipePath).take 79 :=
    fun h => nul_notMem_connectText _ _ _ (List.mem_of_mem_take h)
  rw [kvsConnect, sendMsg, buildMessagePaths, overwrite, snprintf, List.append_assoc]
  exact untilNul_append_nul hnul _

end Kvs.Client
