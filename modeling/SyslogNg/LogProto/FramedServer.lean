import SyslogNg.LogProto.TextClient
import SyslogNg.Foundations.Framing

/-!
# The framed server

`log_proto_framed_server_*` in `modules/basic-proto/basic-proto.c`. The buffer holds what was read
and not returned yet; it is moved to the front when it ends at the end of its space, or when a
message would not fit behind its header. The header is scanned again after each read.
-/
namespace SyslogNg.LogProto

/-- What a read returns: at most `n` bytes, `EAGAIN`, or another error. -/
inductive ReadResult
  | got (n : ℕ)
  | again
  | error

/-- A read gives some bytes, `EAGAIN` or the end of the stream. -/
def ReadResult.Working : ReadResult → Prop
  | got n => 0 < n
  | again => True
  | error => False

inductive FramedServerState
  | frameRead
  | messageRead
  deriving DecidableEq

/-- `LogProtoFramedServer`; of the buffer only the first `buffer_end` bytes are kept. -/
structure FramedServer where
  maxMsgSize : ℕ
  state : FramedServerState := .frameRead
  buffer : Bytes := []
  bufferPos : ℕ := 0
  frameLen : ℕ := 0
  halfMessageInBuffer : Bool := false

/-- The server and the bytes that are not read yet after a call, with what it returned. -/
structure Fetched (S : Type) where
  server : S
  unread : Bytes
  status : Status
  msg : Option Bytes := none

inductive HeaderScan
  | needMoreData (frameLen : ℕ)
  | invalid
  | header (frameLen i : ℕ)

/-- The loop of `log_proto_framed_server_extract_frame_length`, after `i` bytes of the header. -/
def scanHeader (i frameLen : ℕ) : Bytes → HeaderScan
  | [] => .needMoreData frameLen
  | b :: rest =>
    if isDigit b ∧ i < 10 then scanHeader (i + 1) (frameLen * 10 + (b.toNat - 0x30)) rest
    else if b = 0x20 then .header frameLen i
    else .invalid

namespace FramedServer

variable (s : FramedServer)

/-- `buffer_size`, with `LPFS_FRAME_BUFFER` bytes for the header. -/
def bufferSize : ℕ := s.maxMsgSize + 10

def pending : Bytes := s.buffer.drop s.bufferPos

def moveToFront : FramedServer := { s with buffer := s.pending, bufferPos := 0 }

def prepare : Bool := !s.halfMessageInBuffer && decide (s.bufferPos ≠ s.buffer.length)

def makeSpace : FramedServer :=
  let s := if s.bufferPos = s.buffer.length then { s with buffer := [], bufferPos := 0 } else s
  if s.bufferSize = s.buffer.length then s.moveToFront else s

def fetchData (unread : Bytes) (mayRead : Bool) (read : ReadResult) : Fetched FramedServer :=
  let s := s.makeSpace
  if mayRead then
    match read with
    | .error => ⟨s, unread, .error, none⟩
    | .again => ⟨{ s with halfMessageInBuffer := true }, unread, .success, none⟩
    | .got n =>
      let data := unread.take (min n (s.bufferSize - s.buffer.length))
      if data = [] then ⟨s, unread, .eof, none⟩
      else ⟨{ s with buffer := s.buffer ++ data }, unread.drop data.length, .success, none⟩
  else ⟨s, unread, .success, none⟩

def takeMessage : Option (FramedServer × Bytes) :=
  if s.buffer.length - s.bufferPos ≥ s.frameLen then
    some ({ s with
      bufferPos := s.bufferPos + s.frameLen
      state := .frameRead
      halfMessageInBuffer := false }, s.pending.take s.frameLen)
  else none

def returnMessage (unread : Bytes) : Fetched FramedServer :=
  match s.takeMessage with
  | some (next, msg) => ⟨next, unread, .success, some msg⟩
  | none => ⟨s, unread, .success, none⟩

/-- From the label `read_message` on, with `try_read`. -/
def readMessage (unread : Bytes) (mayRead : Bool) (read : ReadResult) : Fetched FramedServer :=
  match s.takeMessage with
  | some (next, msg) => ⟨next, unread, .success, some msg⟩
  | none =>
    let fetched := s.fetchData unread mayRead read
    if fetched.status ≠ .success then fetched else fetched.server.returnMessage fetched.unread

/-- The header ends before byte `i + 1` of what is pending. -/
def startMessage (frameLen i : ℕ) : FramedServer :=
  { s with state := .messageRead, frameLen := frameLen, bufferPos := s.bufferPos + i + 1 }

/-- The message has to fit behind the position. -/
def fitMessage : FramedServer :=
  if s.bufferPos + s.frameLen > s.bufferSize then s.moveToFront else s

def rescan (fetched : Fetched FramedServer) : Fetched FramedServer :=
  if fetched.status ≠ .success then fetched
  else
    match scanHeader 0 0 fetched.server.pending with
    | .invalid => ⟨fetched.server, fetched.unread, .error, none⟩
    | .needMoreData frameLen =>
      ⟨{ fetched.server with frameLen := frameLen }, fetched.unread, .success, none⟩
    | .header frameLen i =>
      if frameLen > fetched.server.maxMsgSize then
        ⟨fetched.server.startMessage frameLen i, fetched.unread, .error, none⟩
      else (fetched.server.startMessage frameLen i).fitMessage.returnMessage fetched.unread

def fetch (unread : Bytes) (mayRead : Bool) (read : ReadResult) : Fetched FramedServer :=
  match s.state with
  | .messageRead => s.readMessage unread mayRead read
  | .frameRead =>
    match scanHeader 0 0 s.pending with
    | .invalid => ⟨s, unread, .error, none⟩
    | .header frameLen i =>
      if frameLen > s.maxMsgSize then ⟨s.startMessage frameLen i, unread, .error, none⟩
      else (s.startMessage frameLen i).fitMessage.readMessage unread mayRead read
    | .needMoreData frameLen =>
      rescan ({ s with frameLen := frameLen }.fetchData unread mayRead read)

end FramedServer
end SyslogNg.LogProto
