import Mathlib.Data.List.DropRight
import SyslogNg.LogProto.FindEom
import SyslogNg.LogProto.FramedServer

/-!
# The text server

`log_proto_buffered_server_*` and `log_proto_text_server_*` in `modules/basic-proto/basic-proto.c`,
without an encoding and without the multi-line options. What was read is kept in a buffer of
`max_msg_size` bytes. A line that is not complete is moved to its front. After a line was taken,
the end of the next one is kept, so that the caller knows whether it has to wait.
-/
namespace SyslogNg.LogProto

/-- `FileBookmarkData`: where the buffer was read from, how much was read, and the position in
it. -/
structure BufferPosition where
  bufferPos : ℕ := 0
  rawStreamPos : ℕ := 0
  rawBufferSize : ℕ := 0
  deriving DecidableEq

/-- The flags of a server, the size of its buffer and the address of it. -/
structure TextServerOptions where
  maxMsgSize : ℕ
  posTracking : Bool := false
  ignoreEof : Bool := false
  address : ℕ := 0
  deriving DecidableEq

/-- `LogProtoTextServer` with its `LogProtoBufferedServerState`; of the buffer only the first
`pending_buffer_end` bytes are kept. -/
structure TextServer where
  options : TextServerOptions
  bufferSize : ℕ
  status : Status := .success
  buffer : Bytes := []
  bufferCachedEol : ℕ := 0
  /-- `pending_buffer_pos`, `pending_raw_stream_pos` and `pending_raw_buffer_size` -/
  position : BufferPosition := {}
  /-- `buffer_pos`, `raw_stream_pos` and `raw_buffer_size` -/
  saved : BufferPosition := {}
  fileInode : ℕ := 0
  fileSize : ℕ := 0
  deriving DecidableEq

def eolUnknown : ℕ := 2 ^ 32 - 1

def isLineEnd (b : UInt8) : Bool := b == 0x0d || b == 0x0a || b == 0

namespace TextServer

variable (s : TextServer)

abbrev maxMsgSize : ℕ := s.options.maxMsgSize

abbrev pos : ℕ := s.position.bufferPos

def pending : Bytes := s.buffer.drop s.pos

def moveTo (pos : ℕ) : TextServer := { s with position := { s.position with bufferPos := pos } }

def clear : TextServer :=
  { s with
    buffer := []
    position :=
      if s.options.posTracking then ⟨0, s.position.rawStreamPos + s.position.rawBufferSize, 0⟩
      else { s.position with bufferPos := 0 } }

def prepare : Bool := decide (s.bufferCachedEol ≠ 0)

/-- The end of the line from the position on, as an offset in the buffer. -/
def findEol (pos : ℕ) : Option ℕ :=
  (findEom (s.options.address + pos) (s.buffer.drop pos)).map (· + pos)

/-- The line that is not complete is moved to the front. -/
def splitBuffer : TextServer :=
  { s with
    buffer := s.pending
    position :=
      if s.options.posTracking then
        ⟨0, s.position.rawStreamPos + (s.position.rawBufferSize - s.pending.length),
          s.pending.length⟩
      else { s.position with bufferPos := 0 } }

/-- The line up to `eol` is taken, and the end of the next one is stored. -/
def takeLine (eol : ℕ) : TextServer × Bytes :=
  let line := (s.pending.take (eol - s.pos)).rdropWhile isLineEnd
  let next := s.moveTo (eol + 1)
  if next.buffer.length ≠ next.pos then
    match next.findEol next.pos with
    | some eom => ({ next with bufferCachedEol := if eom > next.pos then eom else 0 }, line)
    | none => ({ next with bufferCachedEol := 0 }, line)
  else (next, line)

def takeMessage : TextServer × Option Bytes :=
  let eol := if s.bufferCachedEol ≠ 0 then some s.bufferCachedEol else s.findEol s.pos
  let s := { s with bufferCachedEol := 0 }
  match eol with
  | some eol =>
    let taken := s.takeLine eol
    (taken.1, some taken.2)
  | none =>
    if s.pending.length ≥ s.maxMsgSize then (s.moveTo s.buffer.length, some s.pending)
    else (s.splitBuffer, none)

def fetchFromBuf (flushTheRest : Bool) : TextServer × Option Bytes :=
  if s.buffer.length - s.pos = 0 then (s.clear, none)
  else if flushTheRest then (s.moveTo s.buffer.length, some s.pending)
  else s.takeMessage

/-- The end of the stream, or an error: the rest is returned, and the status by the next call. -/
def finish (unread : Bytes) (status : Status) : Fetched TextServer :=
  let rest := { s with status := status }.fetchFromBuf true
  match rest.2 with
  | some msg => ⟨rest.1, unread, .success, some msg⟩
  | none => ⟨rest.1, unread, status, none⟩

/-- The loop that reads; it ends with the list of reads, as with `may_read`. -/
def readLoop (s : TextServer) (unread : Bytes) : List ReadResult → Fetched TextServer
  | [] => ⟨s, unread, .success, none⟩
  | .again :: _ => ⟨s, unread, .success, none⟩
  | .error :: _ => s.finish unread .error
  | .got n :: reads =>
    let data := unread.take (min n (s.bufferSize - s.buffer.length))
    if data = [] then
      if s.options.ignoreEof then ⟨s, unread, .success, none⟩ else s.finish unread .eof
    else
      let next :=
        { s with
          buffer := s.buffer ++ data
          position := { s.position with rawBufferSize := s.position.rawBufferSize + data.length } }
      let fetched := next.fetchFromBuf false
      match fetched.2 with
      | some msg => ⟨fetched.1, unread.drop data.length, .success, some msg⟩
      | none => readLoop fetched.1 (unread.drop data.length) reads

def updatePos : TextServer := if s.pos = s.buffer.length then s.clear else s

/-- The end of the next line is searched if it is not known. -/
def started : TextServer :=
  if s.bufferCachedEol = eolUnknown then { s with bufferCachedEol := 0 } else s

/-- The message that is in the buffer, or one that is read. -/
def fetchMessage (unread : Bytes) (reads : List ReadResult) : Fetched TextServer :=
  if s.status ≠ .success then ⟨s, unread, s.status, none⟩
  else
    let fetched := s.fetchFromBuf false
    match fetched.2 with
    | some msg => ⟨fetched.1, unread, .success, some msg⟩
    | none => readLoop fetched.1 unread reads

/-- `log_proto_buffered_server_fetch` without `flush`, and the bookmark that is filled. -/
def fetch (unread : Bytes) (reads : List ReadResult) (bookmarked : Bool) :
    Fetched TextServer × Option BufferPosition :=
  let f := s.started.fetchMessage unread reads
  if f.status ≠ .success then ({ f with server := { f.server with status := f.status } }, none)
  else if bookmarked ∧ f.msg.isSome then
    ({ f with server := f.server.updatePos }, some f.server.position)
  else (f, none)

end TextServer
end SyslogNg.LogProto
