import SyslogNg.Foundations.Bytes
import SyslogNg.Foundations.Run

/-!
# Clients that send messages

`log_proto_text_client_*` and `log_proto_framed_client_*` in `modules/basic-proto/basic-proto.c`.
A message that the transport did not accept as a whole is kept, and the rest of it is sent by a
later call; the framed client sends the length of each message before it. What the transport
answers to a write is an argument.
-/
namespace SyslogNg.LogProto

open List

inductive Errno
  | again
  | intr
  | other
  deriving DecidableEq

/-- What a write returns: at most `n` of the bytes were accepted, or none with an error. -/
inductive WriteResult
  | wrote (n : ℕ)
  | error (errno : Errno)

inductive Status
  | success
  | error
  | partialWrite
  | again
  | eof
  deriving DecidableEq

/-- `LogProtoTextClient`, with what happened to the transport and to the acknowledgements. -/
structure TextClient where
  keepOneMessage : Bool
  pendingAckCount : ℕ := 0
  partialMsg : Option Bytes := none
  partialLen : ℕ := 0
  partialPos : ℕ := 0
  /-- The bytes that the transport accepted. -/
  wire : Bytes := []
  /-- Those of them that are not part of a frame header. -/
  payload : Bytes := []
  /-- The messages that were acknowledged with `ack_callback`. -/
  acked : ℕ := 0

/-- What a post did; `frameInit` says that the framed client was set to `LPFCS_FRAME_INIT`. -/
structure Posted where
  client : TextClient
  status : Status
  consumed : Bool
  frameInit : Bool := false

namespace TextClient

variable (c : TextClient)

def doPendingAcks : TextClient :=
  if c.pendingAckCount > 0 then
    { c with acked := c.acked + c.pendingAckCount, pendingAckCount := 0 }
  else c

def doAck : TextClient :=
  if c.keepOneMessage ∧ c.pendingAckCount < 1 then
    { c with pendingAckCount := c.pendingAckCount + 1 }
  else { c with acked := c.acked + 1 }

def sendPayload (bytes : Bytes) : TextClient :=
  { c with wire := c.wire ++ bytes, payload := c.payload ++ bytes }

/-- `log_proto_text_client_flush_buffer`. The length of the rest is a `gint`; if it is negative,
what follows the message in memory would be sent, and that is left out. -/
def flushBuffer (result : WriteResult) : TextClient × Status :=
  match c.partialMsg, result with
  | none, _ => (c, .success)
  | some _, .error errno => (c, if errno = .other then .error else .success)
  | some msg, .wrote n =>
    let len : ℤ := Int.bmod (c.partialLen - c.partialPos) (2 ^ 32)
    let rc := min n len.toNat
    let sent := c.sendPayload ((msg.drop c.partialPos).take rc)
    if rc ≠ len then ({ sent with partialPos := c.partialPos + rc }, .partialWrite)
    else ({ sent with partialMsg := none }, .success)

/-- The end of `log_proto_client_post_writer`, when nothing is left of earlier messages. -/
def writeMessage (msg : Bytes) (result : WriteResult) : Posted :=
  match result with
  | .error errno =>
    if errno = .other then ⟨c, .error, false, false⟩
    else
      let kept := { c with partialMsg := some msg, partialLen := msg.length, partialPos := 0 }
      ⟨kept.doAck, .success, true, false⟩
  | .wrote n =>
    let rc := min n msg.length
    let sent := c.sendPayload (msg.take rc)
    if rc ≠ msg.length then
      let kept := { sent with partialMsg := some msg, partialLen := msg.length, partialPos := rc }
      ⟨kept.doAck, .success, true, false⟩
    else ⟨sent.doAck, .success, true, false⟩

/-- `log_proto_client_post_writer`; the results are those of the write of the old message and of
the new one. -/
def postWriter (msg : Bytes) (syslogProto : Bool) (flushed written : WriteResult) : Posted :=
  let flush := c.flushBuffer flushed
  if flush.2 = .error then ⟨flush.1, .error, false, false⟩
  else if flush.1.partialMsg.isSome ∨ flush.2 = .partialWrite then
    ⟨flush.1, .partialWrite, false, false⟩
  else if flush.1.partialLen ≠ 0 ∧ syslogProto then
    ⟨{ flush.1 with partialPos := 0, partialLen := 0 }, flush.2, false, true⟩
  else flush.1.writeMessage msg written

def post (msg : Bytes) (flushed written : WriteResult) : Posted :=
  c.postWriter msg false flushed written

def flush (result : WriteResult) : TextClient × Status :=
  let flush := c.flushBuffer result
  if flush.2 = .error then flush
  else if flush.1.partialMsg.isNone then (flush.1.doPendingAcks, .success)
  else (flush.1, .again)

end TextClient

/-! ### Frames -/

def frameHeader (len : ℕ) : Bytes := decimalText len ++ [0x20]

inductive FrameState
  | frameInit
  | frameSend
  | messageSend
  deriving DecidableEq

/-- `LogProtoFramedClient`; the header buffer has 9 bytes, and the last is the end of the string. -/
structure FramedClient extends TextClient where
  state : FrameState := .frameInit
  frameHdrBuf : Bytes := []
  frameHdrLen : ℕ := 0
  frameHdrPos : ℕ := 0

def maxFrameLen : ℕ := 9999999

namespace FramedClient

variable (c : FramedClient)

def initFrame (msgLen : ℕ) : FramedClient :=
  if c.state = .frameInit then
    { c with
      frameHdrBuf := (frameHeader msgLen).take 8
      frameHdrLen := (frameHeader msgLen).length
      frameHdrPos := 0
      state := .frameSend }
  else c

def sendMessage (msg : Bytes) (flushed written : WriteResult) : FramedClient × Status × Bool :=
  let posted := c.toTextClient.postWriter msg true flushed written
  let state := if posted.frameInit then .frameInit else c.state
  let state :=
    if posted.status = .success ∧ posted.client.partialMsg = none then .frameInit else state
  ({ c with toTextClient := posted.client, state := state }, posted.status, posted.consumed)

/-- The rest of the header, as far as it was accepted. -/
def sendHeader (n : ℕ) : FramedClient :=
  let rc := min n (c.frameHdrLen - c.frameHdrPos)
  { c with
    wire := c.wire ++ (c.frameHdrBuf.drop c.frameHdrPos).take rc
    frameHdrPos := c.frameHdrPos + rc }

/-- `log_proto_framed_client_post`; `consumed` is what the caller set it to. -/
def post (msg : Bytes) (consumed : Bool) (header flushed written : WriteResult) :
    FramedClient × Status × Bool :=
  let msg := msg.take maxFrameLen
  let c := c.initFrame msg.length
  if c.state = .frameSend then
    match header with
    | .error errno => (c, if errno ≠ .again then .error else .success, consumed)
    | .wrote n =>
      let c := c.sendHeader n
      if c.frameHdrPos ≠ c.frameHdrLen then (c, .success, consumed)
      else { c with state := .messageSend }.sendMessage msg flushed written
  else c.sendMessage msg flushed written

def flush (result : WriteResult) : FramedClient × Status :=
  let flush := c.toTextClient.flush result
  ({ c with toTextClient := flush.1 },
    if flush.2 = .success ∧ c.state = .frameSend ∧ c.frameHdrLen ≠ c.frameHdrPos then .again
    else flush.2)

end FramedClient

/-! ### The steps of a client -/

namespace TextClient

variable {c : TextClient}

def unsent (c : TextClient) : Bytes :=
  match c.partialMsg with
  | none => []
  | some msg => msg.drop c.partialPos

structure Wf (c : TextClient) : Prop where
  len : ∀ {msg}, c.partialMsg = some msg → c.partialLen = msg.length
  pos_le : ∀ {msg}, c.partialMsg = some msg → c.partialPos ≤ msg.length
  short : ∀ {msg}, c.partialMsg = some msg → msg.length < 2 ^ 31

theorem Wf.of_none (h : c.partialMsg = none) : c.Wf := by
  constructor <;> exact fun hm => absurd (h.symm.trans hm) (by simp)

inductive FlushStep (c : TextClient) (result : WriteResult) : TextClient × Status → Prop
  | idle (hmsg : c.partialMsg = none) : FlushStep c result (c, .success)
  | blocked {msg} (hmsg : c.partialMsg = some msg) : FlushStep c result (c, .success)
  | failed {msg} (hmsg : c.partialMsg = some msg) (hresult : result = .error .other) :
      FlushStep c result (c, .error)
  | cut {msg n} (hmsg : c.partialMsg = some msg) (hn : c.partialPos + n < msg.length) :
      FlushStep c result
        ({ c.sendPayload ((msg.drop c.partialPos).take n) with partialPos := c.partialPos + n },
          .partialWrite)
  | finished {msg} (hmsg : c.partialMsg = some msg) :
      FlushStep c result ({ c.sendPayload (msg.drop c.partialPos) with partialMsg := none },
        .success)

theorem flushBuffer_step (hwf : c.Wf) (result : WriteResult) :
    FlushStep c result (c.flushBuffer result) := by
  unfold flushBuffer
  cases hm : c.partialMsg with
  | none => exact .idle hm
  | some msg =>
    cases result with
    | error errno =>
      by_cases he : errno = .other
      · subst he
        exact .failed hm rfl
      · dsimp only
        rw [if_neg he]
        exact .blocked hm
    | wrote n =>
      have hp := hwf.pos_le hm
      have hs := hwf.short hm
      have hl : Int.bmod (c.partialLen - c.partialPos) (2 ^ 32) =
          ((msg.length - c.partialPos : ℕ) : ℤ) := by
        rw [hwf.len hm, Int.bmod_eq_of_le] <;> omega
      dsimp only
      rw [hl, Int.toNat_natCast]
      by_cases hc : n < msg.length - c.partialPos
      · rw [if_pos (by omega)]
        exact .cut hm (by omega)
      · rw [Nat.min_eq_right (by omega), if_neg (by simp), take_of_length_le (length_drop.le)]
        exact .finished hm

theorem unsent_of_none (h : c.partialMsg = none) : c.unsent = [] := by
  unfold unsent
  rw [h]

theorem unsent_of_some {msg : Bytes} (h : c.partialMsg = some msg) :
    c.unsent = msg.drop c.partialPos := by
  unfold unsent
  rw [h]

@[simp] theorem doAck_wire (c : TextClient) : c.doAck.wire = c.wire := by
  unfold doAck
  split <;> rfl

@[simp] theorem doAck_partialMsg (c : TextClient) : c.doAck.partialMsg = c.partialMsg := by
  unfold doAck
  split <;> rfl

@[simp] theorem doAck_partialLen (c : TextClient) : c.doAck.partialLen = c.partialLen := by
  unfold doAck
  split <;> rfl

@[simp] theorem doAck_partialPos (c : TextClient) : c.doAck.partialPos = c.partialPos := by
  unfold doAck
  split <;> rfl

variable {result : WriteResult}

theorem FlushStep.sent {f : TextClient × Status} (h : FlushStep c result f) :
    ∃ bytes, c.unsent = bytes ++ f.1.unsent ∧ f.1.wire = c.wire ++ bytes ∧
      f.1.payload = c.payload ++ bytes := by
  cases h with
  | idle | blocked | failed => exact ⟨[], by simp⟩
  | cut hm =>
    refine ⟨_, ?_, rfl, rfl⟩
    simp only [unsent, sendPayload, hm]
    rw [← drop_drop, take_append_drop]
  | finished hm =>
    refine ⟨_, ?_, rfl, rfl⟩
    rw [unsent_of_some hm, unsent_of_none rfl, append_nil]

theorem FlushStep.wf {f : TextClient × Status} (h : FlushStep c result f)
    (hwf : c.Wf) : f.1.Wf := by
  cases h with
  | idle | blocked | failed => exact hwf
  | cut hm hn =>
    refine ⟨hwf.len, fun hk => ?_, hwf.short⟩
    cases hm.symm.trans hk
    exact hn.le
  | finished => exact .of_none rfl

theorem FlushStep.partialLen_eq {f : TextClient × Status}
    (h : FlushStep c result f) : f.1.partialLen = c.partialLen := by
  cases h <;> rfl

theorem FlushStep.eq_of_none {f : TextClient × Status} (h : FlushStep c result f)
    (hm : c.partialMsg = none) : f = (c, .success) := by
  cases h with
  | idle => rfl
  | blocked hs => exact absurd (hm.symm.trans hs) (by simp)
  | failed hs => exact absurd (hm.symm.trans hs) (by simp)
  | cut hs => exact absurd (hm.symm.trans hs) (by simp)
  | finished hs => exact absurd (hm.symm.trans hs) (by simp)

inductive WriteStep (c : TextClient) (msg : Bytes) (result : WriteResult) : Posted → Prop
  | failed (hresult : result = .error .other) : WriteStep c msg result ⟨c, .error, false, false⟩
  | kept {n} (hn : n ≤ msg.length) : WriteStep c msg result
      ⟨{ c.sendPayload (msg.take n) with
          partialMsg := some msg, partialLen := msg.length, partialPos := n }.doAck,
        .success, true, false⟩
  | sent : WriteStep c msg result ⟨(c.sendPayload msg).doAck, .success, true, false⟩

theorem writeMessage_step (c : TextClient) (msg : Bytes) (result : WriteResult) :
    WriteStep c msg result (c.writeMessage msg result) := by
  unfold writeMessage
  cases result with
  | error errno =>
    by_cases he : errno = .other
    · subst he
      exact .failed rfl
    · dsimp only
      rw [if_neg he]
      have hk : WriteStep c msg (.error errno) _ := .kept (Nat.zero_le _)
      simpa [sendPayload] using hk
  | wrote n =>
    dsimp only
    by_cases hc : n < msg.length
    · rw [Nat.min_eq_left hc.le, if_pos hc.ne]
      exact .kept hc.le
    · rw [Nat.min_eq_right (by omega), if_neg (by simp), take_length]
      exact .sent

/-- The parts of a client that a frame depends on. -/
def output (c : TextClient) : Bytes × Option Bytes × ℕ × ℕ :=
  (c.wire, c.partialMsg, c.partialLen, c.partialPos)

theorem doPendingAcks_output (c : TextClient) : c.doPendingAcks.output = c.output := by
  unfold doPendingAcks
  split <;> rfl

theorem flush_step (hwf : c.Wf) (result : WriteResult) :
    ∃ f, FlushStep c result f ∧ (c.flush result).1.output = f.1.output ∧
      ((c.flush result).2 = .success → f.1.partialMsg = none) := by
  refine ⟨_, flushBuffer_step hwf result, ?_⟩
  unfold flush
  dsimp only
  split
  case isTrue he => exact ⟨rfl, fun hs => by cases he.symm.trans hs⟩
  case isFalse =>
    split
    case isTrue hn => exact ⟨doPendingAcks_output _, fun _ => Option.isNone_iff_eq_none.mp hn⟩
    case isFalse => exact ⟨rfl, nofun⟩

/-- What a post does: the kept message is in the way, or its frame ends, or it is gone and the new
message is written. -/
inductive PostStep (c : TextClient) (msg : Bytes) (syslogProto : Bool)
    (flushed written : WriteResult) : Posted → Prop
  | failed {f} (hflush : FlushStep c flushed (f, .error)) :
      PostStep c msg syslogProto flushed written ⟨f, .error, false, false⟩
  | stuck {f status} (hflush : FlushStep c flushed (f, status)) (hmsg : f.partialMsg.isSome) :
      PostStep c msg syslogProto flushed written ⟨f, .partialWrite, false, false⟩
  | reset {f} (hflush : FlushStep c flushed (f, .success)) (hmsg : f.partialMsg = none)
      (hlen : f.partialLen ≠ 0) (hproto : syslogProto = true) :
      PostStep c msg syslogProto flushed written
        ⟨{ f with partialPos := 0, partialLen := 0 }, .success, false, true⟩
  | write {f posted} (hflush : FlushStep c flushed (f, .success)) (hmsg : f.partialMsg = none)
      (hlen : syslogProto = true → f.partialLen = 0) (hwrite : WriteStep f msg written posted) :
      PostStep c msg syslogProto flushed written posted

theorem FlushStep.success_of_none {f : TextClient × Status}
    (h : FlushStep c result f) (hm : f.1.partialMsg = none) : f.2 = .success := by
  cases h with
  | idle | blocked | finished => rfl
  | failed hs => exact absurd (hm.symm.trans hs) (by simp)
  | cut hs => exact absurd (hm.symm.trans hs) (by simp)

theorem postWriter_step (hwf : c.Wf) (msg : Bytes) (syslogProto : Bool)
    (flushed written : WriteResult) :
    PostStep c msg syslogProto flushed written (c.postWriter msg syslogProto flushed written) := by
  have hf := flushBuffer_step hwf flushed
  unfold postWriter
  generalize c.flushBuffer flushed = f at hf
  obtain ⟨f, status⟩ := f
  by_cases he : status = .error
  · subst he
    exact .failed hf
  rw [if_neg he]
  by_cases hk : f.partialMsg.isSome
  · rw [if_pos (.inl hk)]
    exact .stuck hf hk
  have hm : f.partialMsg = none := Option.not_isSome_iff_eq_none.mp hk
  obtain rfl : status = .success := hf.success_of_none hm
  rw [if_neg (by simp [hm])]
  by_cases hr : f.partialLen ≠ 0 ∧ syslogProto
  · rw [if_pos hr]
    exact .reset hf hm hr.1 hr.2
  · rw [if_neg hr]
    exact .write hf hm (fun hp => by_contra fun hne => hr ⟨hne, hp⟩)
      (f.writeMessage_step msg written)

end TextClient

namespace FramedClient

variable {c : FramedClient}

/-- What a post does: the header is not finished, or the message is sent. -/
inductive FramedStep (c : FramedClient) (msg : Bytes) (consumed : Bool)
    (header flushed written : WriteResult) : FramedClient × Status × Bool → Prop
  | blocked (hstate : (c.initFrame msg.length).state = .frameSend)
      (hresult : header = .error .again) :
      FramedStep c msg consumed header flushed written (c.initFrame msg.length, .success, consumed)
  | failed {errno} (hresult : header = .error errno) (herrno : errno ≠ .again) :
      FramedStep c msg consumed header flushed written (c.initFrame msg.length, .error, consumed)
  | cut {n} (hstate : (c.initFrame msg.length).state = .frameSend)
      (hn : ((c.initFrame msg.length).sendHeader n).frameHdrPos ≠
        (c.initFrame msg.length).frameHdrLen) :
      FramedStep c msg consumed header flushed written
        ((c.initFrame msg.length).sendHeader n, .success, consumed)
  | header {n} (hstate : (c.initFrame msg.length).state = .frameSend)
      (hn : ((c.initFrame msg.length).sendHeader n).frameHdrPos =
        (c.initFrame msg.length).frameHdrLen) :
      FramedStep c msg consumed header flushed written
        ({ (c.initFrame msg.length).sendHeader n with state := .messageSend }.sendMessage msg
          flushed written)
  | message (hstate : c.state = .messageSend) :
      FramedStep c msg consumed header flushed written (c.sendMessage msg flushed written)

theorem initFrame_state_ne (c : FramedClient) (len : ℕ) (h : (c.initFrame len).state ≠ .frameSend) :
    c.state = .messageSend ∧ c.initFrame len = c := by
  unfold initFrame at h ⊢
  split at h
  · exact absurd rfl h
  case isFalse hi =>
    rw [if_neg hi]
    refine ⟨?_, rfl⟩
    cases hs : c.state with
    | frameInit => exact absurd hs hi
    | frameSend => exact absurd hs h
    | messageSend => rfl

theorem post_step (c : FramedClient) (msg : Bytes) (consumed : Bool)
    (header flushed written : WriteResult) :
    FramedStep c (msg.take maxFrameLen) consumed header flushed written
      (c.post msg consumed header flushed written) := by
  unfold post
  dsimp only
  split
  case isTrue hs =>
    cases header with
    | error errno =>
      by_cases he : errno = .again
      · dsimp only
        rw [if_neg (not_not.mpr he)]
        exact .blocked hs (congrArg _ he)
      · dsimp only
        rw [if_pos he]
        exact .failed rfl he
    | wrote n =>
      dsimp only
      split
      case isTrue hne => exact .cut hs hne
      case isFalse heq => exact .header hs (not_not.mp heq)
  case isFalse hs =>
    obtain ⟨hm, hsm⟩ := c.initFrame_state_ne _ hs
    rw [hsm]
    exact .message hm

end FramedClient

end SyslogNg.LogProto
