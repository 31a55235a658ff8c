import SyslogNg.LogProto.FramedServer

/-!
# The framed server decodes its stream

The bytes that are pending, behind the header if it was taken already, are what is left of the
stream after the returned messages. However the stream is cut into reads, a call returns the
message of the frame that it starts with, or there is no complete frame.
-/
namespace SyslogNg.LogProto

open Framing List

/-! ### The format -/

def number (digits : Bytes) : ℕ := digits.foldl (fun n b => n * 10 + (b.toNat - 0x30)) 0

/-- At most 10 digits; no digit counts as 0. -/
structure IsCount (digits : Bytes) : Prop where
  isDigit : ∀ b ∈ digits, isDigit b = true
  length_le : digits.length ≤ 10

/-- The digits of the length, a space, and a message of this length. -/
def IsFrame (maxMsgSize : ℕ) (f payload : Bytes) : Prop :=
  ∃ digits, f = digits ++ 0x20 :: payload ∧ IsCount digits ∧ number digits = payload.length ∧
    payload.length ≤ maxMsgSize

/-- The digits before a byte that does not continue them are told by the stream. -/
theorem count_unique {digits digits' c c' : Bytes} {b b' : UInt8} (h : IsCount digits)
    (h' : IsCount digits') (hb : ¬(isDigit b ∧ digits.length < 10))
    (hb' : ¬(isDigit b' ∧ digits'.length < 10)) (heq : digits ++ b :: c = digits' ++ b' :: c') :
    digits = digits' ∧ b = b' ∧ c = c' := by
  have he : ∀ {digits more : Bytes} {b : UInt8} {c c' : Bytes},
      IsCount (digits ++ more) → ¬(isDigit b ∧ digits.length < 10) → b :: c = more ++ c' →
      more = [] := by
    intro digits more b c c' hc hb hm
    cases more with
    | nil => rfl
    | cons a more =>
      obtain rfl : b = a := head_eq_of_cons_eq hm
      have hl := hc.length_le
      rw [length_append, length_cons] at hl
      exact absurd ⟨hc.isDigit b (by simp), by omega⟩ hb
  rcases append_eq_append_iff.mp heq with ⟨more, rfl, hm⟩ | ⟨more, rfl, hm⟩
  · obtain rfl := he h' hb hm
    rw [append_nil]
    exact ⟨rfl, head_eq_of_cons_eq hm, tail_eq_of_cons_eq hm⟩
  · obtain rfl := he h hb' hm
    rw [append_nil]
    exact ⟨rfl, (head_eq_of_cons_eq hm).symm, (tail_eq_of_cons_eq hm).symm⟩

theorem not_continues_space (digits : Bytes) : ¬(isDigit 0x20 ∧ digits.length < 10) :=
  fun h => absurd h.1 (by decide)

theorem isFrame_prefixFree (maxMsgSize : ℕ) : PrefixFree (IsFrame maxMsgSize) := by
  rintro f payload f' payload' c c' ⟨digits, rfl, hc, hl, -⟩ ⟨digits', rfl, hc', hl', -⟩ h
  rw [append_assoc, append_assoc, cons_append] at h
  obtain ⟨rfl, -, hr⟩ :=
    count_unique hc hc' (not_continues_space digits) (not_continues_space digits') h
  obtain ⟨rfl, -⟩ := append_inj hr (hl.symm.trans hl')
  exact ⟨rfl, rfl⟩

variable {maxMsgSize : ℕ}

theorem isFrame_ne_nil {f payload : Bytes} (h : IsFrame maxMsgSize f payload) : f ≠ [] := by
  obtain ⟨digits, rfl, -⟩ := h
  simp

variable {digits rest : Bytes}

/-- What follows a header: a frame starts there exactly if the message is complete. -/
theorem startsFrame_header (hc : IsCount digits) :
    StartsFrame (IsFrame maxMsgSize) (digits ++ 0x20 :: rest) ↔
      number digits ≤ rest.length ∧ number digits ≤ maxMsgSize := by
  constructor
  · rintro ⟨f, payload, ⟨digits', rfl, hc', hl, hm⟩, c, h⟩
    rw [append_assoc, cons_append] at h
    obtain ⟨rfl, -, rfl⟩ :=
      count_unique hc' hc (not_continues_space digits') (not_continues_space digits) h
    rw [hl, length_append]
    exact ⟨Nat.le_add_right _ _, hm⟩
  · rintro ⟨hle, hm⟩
    have hl := length_take_of_le hle
    refine ⟨_, rest.take (number digits), ⟨digits, rfl, hc, hl.symm, hl.trans_le hm⟩,
      rest.drop (number digits), ?_⟩
    rw [append_assoc, cons_append, take_append_drop]

/-- A header that cannot be decoded: after at most 10 digits comes a space though the number is
too large, or a byte that is neither a space nor a digit that still fits. -/
def BadHeader (maxMsgSize : ℕ) (bytes : Bytes) : Prop :=
  ∃ digits b rest, bytes = digits ++ b :: rest ∧ IsCount digits ∧
    (b = 0x20 ∧ maxMsgSize < number digits ∨ b ≠ 0x20 ∧ ¬(isDigit b ∧ digits.length < 10))

theorem BadHeader.append {bytes : Bytes} (h : BadHeader maxMsgSize bytes)
    (c : Bytes) : BadHeader maxMsgSize (bytes ++ c) := by
  obtain ⟨digits, b, rest, rfl, hc, hb⟩ := h
  exact ⟨digits, b, rest ++ c, by simp, hc, hb⟩

/-- A bad header is not the header of a message that is accepted. -/
theorem BadHeader.not_header (hc : IsCount digits)
    (hm : number digits ≤ maxMsgSize) : ¬BadHeader maxMsgSize (digits ++ 0x20 :: rest) := by
  rintro ⟨digits', b, rest', heq, hc', hb⟩
  have he : ¬(isDigit b ∧ digits'.length < 10) := by
    rcases hb with ⟨rfl, -⟩ | ⟨-, he⟩
    · exact not_continues_space digits'
    · exact he
  obtain ⟨rfl, rfl, -⟩ := count_unique hc hc' (not_continues_space digits) he heq
  rcases hb with ⟨-, hl⟩ | ⟨hne, -⟩
  · omega
  · exact hne rfl

theorem BadHeader.not_isCount {bytes : Bytes} (h : BadHeader maxMsgSize bytes) :
    ¬IsCount bytes := by
  obtain ⟨digits, b, rest, rfl, -, hb⟩ := h
  intro hc
  have hd : isDigit b = true := hc.isDigit b (by simp)
  have hl := hc.length_le
  rw [length_append, length_cons] at hl
  rcases hb with ⟨rfl, -⟩ | ⟨-, he⟩
  · exact absurd hd (by decide)
  · exact he ⟨hd, by omega⟩

/-- Nothing behind a bad header is ever decoded. -/
theorem BadHeader.undecodable {bytes : Bytes} (h : BadHeader maxMsgSize bytes) :
    Undecodable (IsFrame maxMsgSize) bytes := by
  rintro c ⟨f, payload, ⟨digits, rfl, hc, hl, hm⟩, d, heq⟩
  have hb := h.append c
  rw [← heq, append_assoc] at hb
  exact BadHeader.not_header hc (hl.trans_le hm) hb

/-! ### The scan of the header -/

/-- What the scan of a header finds, for the bytes that were scanned before. -/
theorem scanHeader_spec {before bytes : Bytes} (hb : IsCount before) :
    match scanHeader before.length (number before) bytes with
    | .needMoreData _ => IsCount (before ++ bytes)
    | .header frameLen i => ∃ digits rest, before ++ bytes = digits ++ 0x20 :: rest ∧
        IsCount digits ∧ number digits = frameLen ∧ digits.length = i
    | .invalid => ∀ maxMsgSize, BadHeader maxMsgSize (before ++ bytes) := by
  -- The scanned digits move from the bytes to the part before them.
  induction bytes generalizing before with
  | nil => simpa [scanHeader] using hb
  | cons b bytes ih =>
    unfold scanHeader
    by_cases hd : isDigit b ∧ before.length < 10
    · rw [if_pos hd]
      have hnx : IsCount (before ++ [b]) := by
        refine ⟨?_, by simpa using hd.2⟩
        intro a ha
        rcases mem_append.mp ha with ha | ha
        · exact hb.isDigit a ha
        · rw [mem_singleton.mp ha]
          exact hd.1
      have hsp := ih hnx
      have hn : number (before ++ [b]) = number before * 10 + (b.toNat - 0x30) := by
        simp [number]
      rw [length_append, hn, append_assoc] at hsp
      exact hsp
    rw [if_neg hd]
    by_cases hs : b = 0x20
    · rw [hs]
      exact ⟨before, bytes, rfl, hb, rfl, rfl⟩
    · rw [if_neg hs]
      exact fun maxMsgSize => ⟨before, b, bytes, rfl, hb, .inr ⟨hs, hd⟩⟩

theorem scanHeader_pending (bytes : Bytes) : match scanHeader 0 0 bytes with
    | .needMoreData _ => IsCount bytes
    | .header frameLen i => ∃ digits rest, bytes = digits ++ 0x20 :: rest ∧ IsCount digits ∧
        number digits = frameLen ∧ digits.length = i
    | .invalid => ∀ maxMsgSize, BadHeader maxMsgSize bytes :=
  @scanHeader_spec [] bytes ⟨by simp, by decide⟩

/-- While only digits are pending, there is no frame. -/
theorem not_startsFrame_of_isCount {digits : Bytes} (h : IsCount digits) (maxMsgSize : ℕ) :
    ¬StartsFrame (IsFrame maxMsgSize) digits := by
  rintro ⟨f, payload, ⟨digits', rfl, -⟩, c, rfl⟩
  exact absurd (h.isDigit 0x20 (by simp)) (by decide)

/-! ### The server -/

namespace FramedServer

variable {s : FramedServer}

/-- The positions, and that the message fits behind its header. -/
structure Wf (s : FramedServer) : Prop where
  pos_le : s.bufferPos ≤ s.buffer.length
  end_le : s.buffer.length ≤ s.bufferSize
  fits : s.state = .messageRead →
    s.frameLen ≤ s.maxMsgSize ∧ s.bufferPos + s.frameLen ≤ s.bufferSize

/-- What is left of the stream: what is pending, behind the header once it was taken. -/
def Left (s : FramedServer) (rest : Bytes) : Prop :=
  match s.state with
  | .frameRead => rest = s.pending
  | .messageRead => ∃ digits, IsCount digits ∧ number digits = s.frameLen ∧
      rest = digits ++ 0x20 :: s.pending

theorem left_of_frameRead (hs : s.state = .frameRead) : s.Left s.pending := by
  unfold Left
  rw [hs]

/-- A frame in the buffer, or the rest of the one whose header was taken. -/
def HoldsFrame (s : FramedServer) : Prop :=
  match s.state with
  | .frameRead => StartsFrame (IsFrame s.maxMsgSize) s.pending
  | .messageRead => s.frameLen ≤ s.pending.length

theorem length_pending (s : FramedServer) : s.pending.length = s.buffer.length - s.bufferPos :=
  length_drop

theorem takeMessage_eq_none : s.takeMessage = none ↔ s.pending.length < s.frameLen := by
  rw [length_pending]
  unfold takeMessage
  split
  · simp only [reduceCtorEq, false_iff]
    omega
  · simp only [true_iff]
    omega

structure SameFrame (s s' : FramedServer) : Prop where
  maxMsgSize : s'.maxMsgSize = s.maxMsgSize
  state : s'.state = s.state
  frameLen : s'.frameLen = s.frameLen

theorem makeSpace_spec (hwf : s.Wf) (hr : s.pending.length < s.bufferSize) :
    s.makeSpace.Wf ∧ s.makeSpace.pending = s.pending ∧ SameFrame s s.makeSpace ∧
      s.makeSpace.buffer.length < s.makeSpace.bufferSize := by
  have hen := hwf.end_le
  unfold makeSpace
  by_cases he : s.bufferPos = s.buffer.length
  · have hn : s.pending = [] := drop_eq_nil_of_le he.ge
    have hsz : 0 < s.bufferSize := Nat.add_pos_right _ (by decide)
    rw [if_pos he]
    dsimp only
    split
    case isTrue hz => exact absurd hz hsz.ne'
    case isFalse =>
      refine ⟨⟨le_rfl, Nat.zero_le _, fun hs => ?_⟩, hn.symm, ⟨rfl, rfl, rfl⟩, hsz⟩
      obtain ⟨hm, hf⟩ := hwf.fits hs
      refine ⟨hm, ?_⟩
      change 0 + s.frameLen ≤ s.bufferSize
      omega
  · rw [if_neg he]
    dsimp only
    split
    · refine ⟨⟨Nat.zero_le _, hr.le, fun hs => ?_⟩, rfl, ⟨rfl, rfl, rfl⟩, hr⟩
      obtain ⟨hm, hf⟩ := hwf.fits hs
      refine ⟨hm, ?_⟩
      change 0 + s.frameLen ≤ s.bufferSize
      omega
    case isFalse hfl => exact ⟨hwf, rfl, ⟨rfl, rfl, rfl⟩, by omega⟩

variable {read : ReadResult}

theorem fetchData_spec (hwf : s.Wf) (hr : s.pending.length < s.bufferSize) (unread : Bytes)
    (mayRead : Bool) (hrd : read.Working) : (s.fetchData unread mayRead read).status ≠ .error ∧
      (s.fetchData unread mayRead read).msg = none ∧
      SameFrame s (s.fetchData unread mayRead read).server ∧
      (s.fetchData unread mayRead read).server.Wf ∧
      ∃ data, unread = data ++ (s.fetchData unread mayRead read).unread ∧
        (s.fetchData unread mayRead read).server.pending = s.pending ++ data ∧
        ((s.fetchData unread mayRead read).status ≠ .success → data = []) := by
  obtain ⟨hs, hp, hsm, hf⟩ := makeSpace_spec hwf hr
  unfold fetchData
  generalize s.makeSpace = t at hs hp hsm hf
  have hn : ∀ {p : Prop}, ∃ data, unread = data ++ unread ∧ t.pending = s.pending ++ data ∧
      (p → data = []) :=
    ⟨[], rfl, by rw [hp, append_nil], fun _ => rfl⟩
  cases mayRead with
  | false => exact ⟨nofun, rfl, hsm, hs, hn⟩
  | true =>
    cases read with
    | error => exact absurd hrd id
    | again =>
      exact ⟨nofun, rfl, { hsm with }, { hs with }, hn⟩
    | got n =>
      rw [if_pos rfl]
      dsimp only
      split
      · exact ⟨nofun, rfl, hsm, hs, hn⟩
      · have hps := hs.pos_le
        refine ⟨nofun, rfl, { hsm with }, ⟨?_, ?_, hs.3⟩,
          unread.take (min n (t.bufferSize - t.buffer.length)), ?_, ?_, fun hne => absurd rfl hne⟩
        · simp only [length_append]
          omega
        · simp only [length_append, length_take]
          change _ ≤ t.bufferSize
          omega
        · exact (prefix_iff_eq_append.mp ⟨_, take_append_drop _ _⟩).symm
        · rw [← hp]
          exact drop_append_of_le_length hps

theorem unread_returnMessage (s : FramedServer) (unread : Bytes) :
    (s.returnMessage unread).unread = unread := by
  unfold returnMessage
  split <;> rfl

theorem unread_rescan (f : Fetched FramedServer) : (rescan f).unread = f.unread := by
  unfold rescan
  split
  · rfl
  · split
    · rfl
    · rfl
    · split
      · rfl
      · exact unread_returnMessage _ _

/-- What a fetch returns, for what is left of the stream and the bytes that it read. -/
inductive FetchStep (maxMsgSize : ℕ) (left : Bytes) (f : Fetched FramedServer) : Prop
  | failed (hstatus : f.status = .error) (hmsg : f.msg = none) (hbad : BadHeader maxMsgSize left)
  | message {frame msg} (hstatus : f.status = .success) (hmsg : f.msg = some msg)
      (hframe : IsFrame maxMsgSize frame msg) (hleft : left = frame ++ f.server.pending)
      (hmax : f.server.maxMsgSize = maxMsgSize) (hwf : f.server.Wf)
      (hstate : f.server.state = .frameRead) (hhalf : f.server.halfMessageInBuffer = false)
  | waiting (hstatus : f.status ≠ .error) (hmsg : f.msg = none)
      (hmax : f.server.maxMsgSize = maxMsgSize) (hwf : f.server.Wf) (hleft : f.server.Left left)
      (hbad : ¬BadHeader maxMsgSize left) (hstarts : ¬StartsFrame (IsFrame maxMsgSize) left)

/-- A header was taken, and the message fits behind it. -/
structure InMessage (s : FramedServer) (digits : Bytes) : Prop where
  wf : s.Wf
  state : s.state = .messageRead
  isCount : IsCount digits
  number : number digits = s.frameLen

namespace InMessage

variable {digits : Bytes}

section

variable (h : InMessage s digits)
include h

theorem left : s.Left (digits ++ 0x20 :: s.pending) := by
  unfold Left
  rw [h.state]
  exact ⟨digits, h.isCount, h.number, rfl⟩

theorem takeMessage {next : FramedServer} {msg : Bytes}
    (ht : s.takeMessage = some (next, msg)) (unread : Bytes) :
    FetchStep s.maxMsgSize (digits ++ 0x20 :: s.pending) ⟨next, unread, .success, some msg⟩ := by
  have hp := h.wf.pos_le
  have hl := s.length_pending
  unfold FramedServer.takeMessage at ht
  split at ht
  case isFalse => cases ht
  case isTrue hc =>
    cases ht
    have hm : (s.pending.take s.frameLen).length = s.frameLen :=
      length_take_of_le (by omega)
    obtain ⟨hmx, hf⟩ := h.wf.fits h.state
    refine .message rfl rfl ⟨digits, rfl, h.isCount, h.number.trans hm.symm, hm.trans_le hmx⟩
      ?_ rfl ⟨?_, h.wf.end_le, nofun⟩ rfl rfl
    · have hn : s.pending.drop s.frameLen = s.buffer.drop (s.bufferPos + s.frameLen) :=
        drop_drop
      change _ = _ ++ s.buffer.drop (s.bufferPos + s.frameLen)
      rw [← hn, append_assoc, cons_append, take_append_drop]
    · change s.bufferPos + s.frameLen ≤ s.buffer.length
      omega

theorem waiting (ht : s.takeMessage = none) {f : Fetched FramedServer}
    (hs : f.server = s) (hst : f.status ≠ .error) (hm : f.msg = none) :
    FetchStep s.maxMsgSize (digits ++ 0x20 :: s.pending) f := by
  have hi := takeMessage_eq_none.mp ht
  obtain ⟨hmx, -⟩ := h.wf.fits h.state
  refine .waiting hst hm (congrArg _ hs) (hs ▸ h.wf) (hs ▸ h.left)
    (BadHeader.not_header h.isCount (h.number.trans_le hmx)) ?_
  rw [startsFrame_header h.isCount, h.number]
  exact fun hb => hi.not_ge hb.1

theorem returnMessage (unread : Bytes) :
    FetchStep s.maxMsgSize (digits ++ 0x20 :: s.pending) (s.returnMessage unread) := by
  unfold FramedServer.returnMessage
  cases ht : s.takeMessage with
  | some taken => exact h.takeMessage ht unread
  | none => exact h.waiting ht rfl nofun rfl

/-- There is room for the rest of the message. -/
theorem length_pending_lt (ht : s.takeMessage = none) : s.pending.length < s.bufferSize := by
  obtain ⟨hmx, -⟩ := h.wf.fits h.state
  have hi := takeMessage_eq_none.mp ht
  unfold bufferSize
  omega

theorem readMessage (unread : Bytes) (mayRead : Bool)
    (hr : read.Working) : ∃ data, unread = data ++ (s.readMessage unread mayRead read).unread ∧
      FetchStep s.maxMsgSize (digits ++ 0x20 :: (s.pending ++ data))
        (s.readMessage unread mayRead read) := by
  unfold FramedServer.readMessage
  cases ht : s.takeMessage with
  | some taken =>
    refine ⟨[], rfl, ?_⟩
    rw [append_nil]
    exact h.takeMessage ht unread
  | none =>
    obtain ⟨hst, hm, hs, hwf, data, hd, hp, hn⟩ :=
      fetchData_spec h.wf (h.length_pending_lt ht) unread mayRead hr
    have hin : InMessage (s.fetchData unread mayRead read).server digits :=
      ⟨hwf, hs.state.trans h.state, h.isCount, h.number.trans hs.frameLen.symm⟩
    refine ⟨data, ?_⟩
    rw [← hs.maxMsgSize, ← hp]
    dsimp only
    split
    case isTrue he =>
      have hnn : (s.fetchData unread mayRead read).server.takeMessage = none := by
        rw [takeMessage_eq_none, hp, hn he, append_nil, hs.frameLen]
        exact takeMessage_eq_none.mp ht
      exact ⟨hd, hin.waiting hnn rfl hst hm⟩
    case isFalse =>
      rw [unread_returnMessage]
      exact ⟨hd, hin.returnMessage _⟩

end

end InMessage

/-- The header that was found starts a message, or it is too large. -/
theorem startMessage_spec (hwf : s.Wf) (hc : IsCount digits)
    (hp : s.pending = digits ++ 0x20 :: rest) (hm : number digits ≤ s.maxMsgSize) :
    InMessage (s.startMessage (number digits) digits.length).fitMessage digits ∧
      (s.startMessage (number digits) digits.length).fitMessage.pending = rest ∧
      (s.startMessage (number digits) digits.length).fitMessage.maxMsgSize = s.maxMsgSize := by
  have hr : (s.startMessage (number digits) digits.length).pending = rest := by
    change s.buffer.drop (s.bufferPos + digits.length + 1) = rest
    have hd : s.pending.drop (digits.length + 1) = rest := by
      rw [hp]
      simp
    rw [← hd, pending, drop_drop, Nat.add_assoc]
  have hl := s.length_pending
  have he := hwf.end_le
  rw [hp, length_append, length_cons] at hl
  unfold fitMessage
  split
  · refine ⟨⟨⟨Nat.zero_le _, ?_, fun _ => ⟨hm, ?_⟩⟩, rfl, hc, rfl⟩, hr, rfl⟩
    · change (s.startMessage (number digits) digits.length).pending.length ≤ s.bufferSize
      rw [hr]
      omega
    · change 0 + number digits ≤ s.maxMsgSize + 10
      omega
  case isFalse hf =>
    refine ⟨⟨⟨?_, he, fun _ => ⟨hm, not_lt.mp hf⟩⟩, rfl, hc, rfl⟩, hr, rfl⟩
    change s.bufferPos + digits.length + 1 ≤ s.buffer.length
    omega

theorem waiting_of_isCount {f : Fetched FramedServer} (hs : f.status ≠ .error)
    (hm : f.msg = none) (hwf : f.server.Wf) (hst : f.server.state = .frameRead)
    (hc : IsCount f.server.pending) : FetchStep f.server.maxMsgSize f.server.pending f := by
  exact .waiting hs hm rfl hwf (left_of_frameRead hst)
    (fun hb => hb.not_isCount hc) (not_startsFrame_of_isCount hc _)

theorem rescan_step {f : Fetched FramedServer} (hss : f.status ≠ .error) (hms : f.msg = none)
    (hwf : f.server.Wf) (hst : f.server.state = .frameRead)
    (he : f.status ≠ .success → IsCount f.server.pending) :
    FetchStep f.server.maxMsgSize f.server.pending (rescan f) := by
  unfold rescan
  by_cases hs : f.status ≠ .success
  · rw [if_pos hs]
    exact waiting_of_isCount hss hms hwf hst (he hs)
  rw [if_neg hs]
  have hsc := scanHeader_pending f.server.pending
  generalize scanHeader 0 0 f.server.pending = scan at hsc
  cases scan with
  | invalid => exact .failed rfl rfl (hsc _)
  | needMoreData frameLen =>
    let next : FramedServer := { f.server with frameLen := frameLen }
    have hn : next.Wf := ⟨hwf.1, hwf.2, fun hm => by cases hst.symm.trans hm⟩
    let g : Fetched FramedServer := ⟨next, f.unread, .success, none⟩
    exact waiting_of_isCount (f := g) nofun rfl hn hst hsc
  | header frameLen i =>
    obtain ⟨digits, rest, hd, hc, rfl, rfl⟩ := hsc
    dsimp only
    split
    case isTrue hl =>
      refine .failed rfl rfl ?_
      rw [hd]
      exact ⟨digits, 0x20, rest, rfl, hc, .inl ⟨rfl, hl⟩⟩
    case isFalse hsm =>
      obtain ⟨hin, hr, hsa⟩ := startMessage_spec hwf hc hd (not_lt.mp hsm)
      have hsp := hin.returnMessage f.unread
      rw [hr, hsa] at hsp
      rwa [hd]

theorem length_pending_lt (h : IsCount s.pending) (hsz : 0 < s.maxMsgSize) :
    s.pending.length < s.bufferSize := by
  have hle := h.length_le
  unfold bufferSize
  omega

theorem fetch_step (hsz : 0 < s.maxMsgSize) (hwf : s.Wf) {left : Bytes} (hl : s.Left left)
    (unread : Bytes) (mayRead : Bool) (hr : read.Working) :
    ∃ data, unread = data ++ (s.fetch unread mayRead read).unread ∧
      FetchStep s.maxMsgSize (left ++ data) (s.fetch unread mayRead read) := by
  unfold fetch
  unfold Left at hl
  cases hst : s.state with
  | messageRead =>
    rw [hst] at hl
    obtain ⟨digits, hc, hn, rfl⟩ := hl
    have hin : InMessage s digits := ⟨hwf, hst, hc, hn⟩
    simpa using hin.readMessage unread mayRead hr
  | frameRead =>
    rw [hst] at hl
    subst hl
    have hs := scanHeader_pending s.pending
    generalize scanHeader 0 0 s.pending = scan at hs
    cases scan with
    | invalid =>
      refine ⟨[], rfl, .failed rfl rfl ?_⟩
      rw [append_nil]
      exact hs _
    | header frameLen i =>
      obtain ⟨digits, rest, hp, hc, rfl, rfl⟩ := hs
      dsimp only
      split
      case isTrue hlr =>
        refine ⟨[], rfl, .failed rfl rfl ?_⟩
        rw [append_nil, hp]
        exact ⟨digits, 0x20, rest, rfl, hc, .inl ⟨rfl, hlr⟩⟩
      case isFalse hm =>
        obtain ⟨hin, hrs, hsm⟩ := startMessage_spec hwf hc hp (not_lt.mp hm)
        obtain ⟨data, hd, hsp⟩ := hin.readMessage unread mayRead hr
        rw [hrs, hsm] at hsp
        refine ⟨data, hd, ?_⟩
        rw [hp, append_assoc]
        exact hsp
    | needMoreData frameLen =>
      let t : FramedServer := { s with state := .frameRead, frameLen := frameLen }
      have ht : t.Wf := ⟨hwf.1, hwf.2, nofun⟩
      obtain ⟨hss, hms, hsm, hwf', data, hd, hp, hnd⟩ :=
        fetchData_spec ht (length_pending_lt (s := t) hs hsz) unread mayRead hr
      have hlt := rescan_step hss hms hwf' hsm.state fun he => by
        rw [hp, hnd he, append_nil]
        exact hs
      rw [hp, hsm.maxMsgSize] at hlt
      refine ⟨data, ?_, hlt⟩
      rwa [unread_rescan]

/-! ### Progress -/

section Progress

variable {unread : Bytes} {n : ℕ} (hu : unread ≠ []) (hn : 0 < n)
include hu hn

/-- There is always room for a byte. -/
theorem fetchData_got (hwf : s.Wf) (hr : s.pending.length < s.bufferSize) :
    (s.fetchData unread true (.got n)).unread.length < unread.length := by
  obtain ⟨-, -, -, hf⟩ := makeSpace_spec hwf hr
  have hl := length_pos_of_ne_nil hu
  simp only [fetchData, if_true]
  split
  case isTrue he =>
    have ht := congrArg length he
    rw [length_take, length_nil] at ht
    omega
  case isFalse he =>
    have ht := length_pos_of_ne_nil he
    rw [length_drop]
    omega

theorem InMessage.readMessage_got {digits : Bytes} (h : InMessage s digits) :
    (s.readMessage unread true (.got n)).msg.isSome ∨
      (s.readMessage unread true (.got n)).unread.length < unread.length := by
  unfold FramedServer.readMessage
  cases ht : s.takeMessage with
  | some taken => exact .inl rfl
  | none =>
    have hg := fetchData_got hu hn h.wf (h.length_pending_lt ht)
    dsimp only
    split
    · exact .inr hg
    · rw [unread_returnMessage]
      exact .inr hg

/-- A call with a read that gives something fails, returns a message, or has taken a byte off the
stream. -/
theorem fetch_progress (hsz : 0 < s.maxMsgSize) (hwf : s.Wf) {left : Bytes} (hl : s.Left left) :
    (s.fetch unread true (.got n)).status = .error ∨
      (s.fetch unread true (.got n)).msg.isSome ∨
      (s.fetch unread true (.got n)).unread.length < unread.length := by
  unfold fetch
  unfold Left at hl
  cases hst : s.state with
  | messageRead =>
    rw [hst] at hl
    obtain ⟨digits, hc, hnum, -⟩ := hl
    exact .inr (InMessage.readMessage_got hu hn ⟨hwf, hst, hc, hnum⟩)
  | frameRead =>
    have hs := scanHeader_pending s.pending
    generalize scanHeader 0 0 s.pending = scan at hs
    cases scan with
    | invalid => exact .inl rfl
    | header frameLen i =>
      obtain ⟨digits, rest, hp, hc, rfl, rfl⟩ := hs
      dsimp only
      split
      · exact .inl rfl
      case isFalse hm =>
        exact .inr ((startMessage_spec hwf hc hp (not_lt.mp hm)).1.readMessage_got hu hn)
    | needMoreData frameLen =>
      let t : FramedServer := { s with state := .frameRead, frameLen := frameLen }
      refine .inr (.inr ?_)
      dsimp only
      rw [unread_rescan]
      exact fetchData_got (s := t) hu hn ⟨hwf.1, hwf.2, nofun⟩ (length_pending_lt hs hsz)

end Progress

section FetchStep

variable {maxMsgSize : ℕ} {left : Bytes} {f : Fetched FramedServer}

variable (h : FetchStep maxMsgSize left f)
include h

theorem FetchStep.error_iff : f.status = .error ↔ BadHeader maxMsgSize left := by
  cases h with
  | failed hs _ hb => exact iff_of_true hs hb
  | message hs _ hf hl =>
    refine iff_of_false (fun he => by cases hs.symm.trans he) fun hb => ?_
    exact hb.undecodable.not_startsFrame ⟨_, _, hf, hl ▸ prefix_append _ _⟩
  | waiting hs _ _ _ _ hb => exact iff_of_false hs hb

theorem FetchStep.msg_of_error (he : f.status = .error) : f.msg = none := by
  cases h with
  | failed _ hm => exact hm
  | message hs => cases hs.symm.trans he
  | waiting hs => exact absurd he hs

theorem FetchStep.not_startsFrame (hm : f.msg = none) :
    ¬StartsFrame (IsFrame maxMsgSize) left := by
  cases h with
  | failed _ _ hb => exact hb.undecodable.not_startsFrame
  | message _ hsm => cases hm.symm.trans hsm
  | waiting _ _ _ _ _ _ hs => exact hs

theorem FetchStep.decodes {received : Bytes}
    {delivered : List Bytes} (hd : Decodes (IsFrame maxMsgSize) received delivered left) :
    ∃ after, Decodes (IsFrame maxMsgSize) received (delivered ++ f.msg.toList) after ∧
      (f.msg = none → after = left) ∧ (f.status ≠ .error → f.server.Left after) := by
  cases h with
  | failed hs hm =>
    rw [hm, Option.toList_none, append_nil]
    exact ⟨left, hd, fun _ => rfl, fun hne => absurd hs hne⟩
  | message _ hm hf hl _ _ hst =>
    rw [hm]
    exact ⟨f.server.pending, (hl ▸ hd).snoc hf, nofun, fun _ => left_of_frameRead hst⟩
  | waiting _ hm _ _ hl =>
    rw [hm, Option.toList_none, append_nil]
    exact ⟨left, hd, fun _ => rfl, fun _ => hl⟩

theorem FetchStep.wf (hs : f.status ≠ .error) : f.server.maxMsgSize = maxMsgSize ∧ f.server.Wf := by
  cases h with
  | failed he => exact absurd he hs
  | message _ _ _ _ hm hwf => exact ⟨hm, hwf⟩
  | waiting _ _ hm hwf => exact ⟨hm, hwf⟩

theorem FetchStep.not_holdsFrame
    (hss : f.status ≠ .error) (hp : f.server.prepare = false) : ¬f.server.HoldsFrame := by
  unfold HoldsFrame
  cases h with
  | failed he => exact absurd he hss
  | message _ _ _ _ _ hwf hs hh =>
    have hen : f.server.bufferPos = f.server.buffer.length := by
      unfold prepare at hp
      rw [hh] at hp
      simpa using hp
    have hnl : f.server.pending = [] := drop_eq_nil_of_le hen.ge
    rw [hs, hnl]
    rintro ⟨frame, msg, hf, hpr⟩
    exact isFrame_ne_nil hf (prefix_nil.mp hpr)
  | waiting _ _ hm hwf hl _ hst =>
    unfold Left at hl
    cases hs : f.server.state with
    | frameRead =>
      rw [hs] at hl
      rw [hm, ← hl]
      exact hst
    | messageRead =>
      rw [hs] at hl
      obtain ⟨digits, hcn, hn, rfl⟩ := hl
      rw [startsFrame_header hcn, hn, ← hm] at hst
      exact fun hc => hst ⟨hc, (hwf.fits hs).1⟩

end FetchStep
end FramedServer

/-! ### Every run -/

/-- A server with the bytes that were read, those that are still to be read, and the messages that
were returned. -/
structure FramedReading where
  server : FramedServer
  unread : Bytes
  received : Bytes := []
  delivered : List Bytes := []

structure FetchOp where
  mayRead : Bool
  read : ReadResult

namespace FramedReading

variable {s : FramedReading} {maxMsgSize : ℕ} {stream : Bytes}

def fetched (s : FramedReading) (op : FetchOp) : Fetched FramedServer :=
  s.server.fetch s.unread op.mayRead op.read

def apply (s : FramedReading) (op : FetchOp) : FramedReading :=
  let f := s.fetched op
  ⟨f.server, f.unread, s.received ++ s.unread.take (s.unread.length - f.unread.length),
    s.delivered ++ f.msg.toList⟩

def system (maxMsgSize : ℕ) (stream : Bytes) : System FramedReading FetchOp where
  init s := s = ⟨{ maxMsgSize }, stream, [], []⟩
  step s op s' := op.read.Working ∧ (s.fetched op).status ≠ .error ∧ s' = s.apply op

/-- What was read is decoded up to what is left. -/
structure Decoded (maxMsgSize : ℕ) (stream : Bytes) (s : FramedReading) : Prop where
  stream_eq : s.received ++ s.unread = stream
  maxMsgSize_eq : s.server.maxMsgSize = maxMsgSize
  wf : s.server.Wf
  decodes : ∃ left, s.server.Left left ∧ Decodes (IsFrame maxMsgSize) s.received s.delivered left

theorem Decoded.fetch_step (h : Decoded maxMsgSize stream s) (hsz : 0 < maxMsgSize) {op : FetchOp}
    (hrd : op.read.Working) : ∃ left, (s.apply op).received ++ (s.apply op).unread = stream ∧
      Decodes (IsFrame maxMsgSize) (s.apply op).received s.delivered left ∧
      FramedServer.FetchStep maxMsgSize left (s.fetched op) := by
  obtain ⟨hs, hm, hwf, left, hl, hd⟩ := h
  obtain ⟨data, hdt, hst⟩ :=
    FramedServer.fetch_step (hm ▸ hsz) hwf hl s.unread op.mayRead hrd
  have hr : (s.apply op).received = s.received ++ data := by
    change s.received ++ s.unread.take (s.unread.length - (s.fetched op).unread.length) = _
    have hln : s.unread.length - (s.fetched op).unread.length = data.length := by
      rw [hdt]
      simp [fetched]
    rw [hln, hdt, take_left]
  refine ⟨left ++ data, ?_, ?_, hm ▸ hst⟩
  · rw [hr, append_assoc, ← hs]
    exact congrArg _ hdt.symm
  · rw [hr]
    exact hd.append data

theorem Decoded.apply (h : Decoded maxMsgSize stream s) (hsz : 0 < maxMsgSize) {op : FetchOp}
    (hr : op.read.Working) (hs : (s.fetched op).status ≠ .error) :
    Decoded maxMsgSize stream (s.apply op) := by
  obtain ⟨left, hst, hd, hsp⟩ := h.fetch_step hsz hr
  obtain ⟨after, ha, -, hl⟩ := hsp.decodes hd
  obtain ⟨hm, hwf⟩ := hsp.wf hs
  exact ⟨hst, hm, hwf, after, hl hs, ha⟩

theorem decoded_of_reachable (hsz : 0 < maxMsgSize) (h : (system maxMsgSize stream).Reachable s) :
    Decoded maxMsgSize stream s := by
  apply h.invariant
  · rintro s rfl
    exact ⟨rfl, rfl, ⟨le_rfl, Nat.zero_le _, nofun⟩, [], rfl, .nil⟩
  · rintro s op s' hs ⟨hr, hst, rfl⟩
    exact hs.apply hsz hr hst

/-- For every message size, stream, and run of calls before the first error, with any reads: the
next call fails exactly if an undecodable header is next; the returned messages are those of the
decoding of the stream, and all of them once the call fails or the stream is read and nothing is
returned; if nothing is returned, there is no complete frame in what was read; if the caller
waits for input, there is none in the buffer; and while the stream is not at its end, a call whose
read gives something fails, returns a message or takes bytes off the stream. -/
theorem fetch_decodes (hsize : 0 < maxMsgSize) (h : (system maxMsgSize stream).Reachable s)
    (op : FetchOp) (hread : op.read.Working) : ((s.fetched op).status = .error ↔ ∃ left,
        Decodes (IsFrame maxMsgSize) (s.apply op).received s.delivered left ∧
          BadHeader maxMsgSize left) ∧
      (∃ messages rest, Decodes (IsFrame maxMsgSize) stream messages rest ∧
        ¬StartsFrame (IsFrame maxMsgSize) rest ∧ (s.apply op).delivered <+: messages ∧
        ((s.fetched op).status = .error ∨ (s.fetched op).msg = none ∧ (s.apply op).unread = [] →
          (s.apply op).delivered = messages)) ∧
      ((s.fetched op).status ≠ .error → (s.fetched op).msg = none → ∃ left,
        Decodes (IsFrame maxMsgSize) (s.apply op).received (s.apply op).delivered left ∧
          ¬StartsFrame (IsFrame maxMsgSize) left) ∧
      ((s.fetched op).status ≠ .error → (s.apply op).server.prepare = false →
        ¬(s.apply op).server.HoldsFrame) ∧
      ∀ n, 0 < n → s.unread ≠ [] → (s.fetched ⟨true, .got n⟩).status = .error ∨
        (s.fetched ⟨true, .got n⟩).msg.isSome ∨
        (s.apply ⟨true, .got n⟩).unread.length < s.unread.length := by
  have hdec := decoded_of_reachable hsize h
  obtain ⟨left, hst, hd, hs⟩ := hdec.fetch_step hsize hread
  have hF := isFrame_prefixFree maxMsgSize
  obtain ⟨after, ha, hsm, -⟩ := hs.decodes hd
  refine ⟨⟨fun hf => ⟨left, hd, hs.error_iff.mp hf⟩, ?_⟩, ?_, ?_, hs.not_holdsFrame, ?_⟩
  · rintro ⟨left', hd', hb⟩
    exact hs.error_iff.mpr (hd.rest_unique hF hd' ▸ hb)
  · obtain ⟨messages, rest, hal, he⟩ := exists_decoding (@isFrame_ne_nil maxMsgSize) stream
    have hw := ha.append (s.apply op).unread
    rw [hst] at hw
    obtain ⟨more, rfl, hm⟩ := hw.continues hF hal he
    refine ⟨_, rest, hal, he, prefix_append _ _, fun hl => ?_⟩
    have hsp : ¬StartsFrame (IsFrame maxMsgSize) (after ++ (s.apply op).unread) := by
      rcases hl with hf | ⟨hms, hu⟩
      · rw [hsm (hs.msg_of_error hf)]
        exact (hs.error_iff.mp hf).undecodable _
      · rw [hsm hms, hu, append_nil]
        exact hs.not_startsFrame hms
    rw [hm.eq_nil hsp, append_nil]
    rfl
  · intro _ hms
    exact ⟨after, ha, hsm hms ▸ hs.not_startsFrame hms⟩
  · intro n hn hu
    obtain ⟨left', hl, -⟩ := hdec.decodes
    exact FramedServer.fetch_progress hu hn (hdec.maxMsgSize_eq ▸ hsize) hdec.wf hl

/-- A frame of three bytes and one of none, of which the first read gives the header and one byte
of the message. -/
def cutFrames : Bytes := [0x33, 0x20, 7, 8, 9, 0x30, 0x20]

def cutFrame : FramedReading :=
  FramedReading.apply ⟨{ maxMsgSize := 5 }, cutFrames, [], []⟩ ⟨true, .got 3⟩

/-- The next two calls return both messages, which are all there are. -/
theorem fetch_decodes_cutFrame : cutFrame.delivered = [] ∧ cutFrame.unread = [8, 9, 0x30, 0x20] ∧
    ((cutFrame.apply ⟨true, .got 9⟩).apply ⟨true, .again⟩).delivered = [[7, 8, 9], []] ∧
    (∃ rest, Decodes (IsFrame 5) cutFrames [[7, 8, 9], []] rest ∧
      ¬StartsFrame (IsFrame 5) rest) ∧
    ((cutFrame.fetched ⟨true, .got 9⟩).status = .error ∨
      (cutFrame.fetched ⟨true, .got 9⟩).msg.isSome ∨
      (cutFrame.apply ⟨true, .got 9⟩).unread.length < cutFrame.unread.length) := by
  let first : FramedReading := ⟨{ maxMsgSize := 5 }, cutFrames, [], []⟩
  let second := cutFrame.apply ⟨true, .got 9⟩
  let third := second.apply ⟨true, .again⟩
  have h₀ : (system 5 cutFrames).Reachable first := .init rfl
  have h₁ : (system 5 cutFrames).Reachable cutFrame :=
    .step (a := (⟨true, .got 3⟩ : FetchOp)) h₀ ⟨show 0 < 3 by decide, by decide, rfl⟩
  have h₂ : (system 5 cutFrames).Reachable second :=
    .step (a := (⟨true, .got 9⟩ : FetchOp)) h₁ ⟨show 0 < 9 by decide, by decide, rfl⟩
  have h₃ : (system 5 cutFrames).Reachable third :=
    .step (a := (⟨true, .again⟩ : FetchOp)) h₂ ⟨trivial, by decide, rfl⟩
  obtain ⟨-, -, -, -, hp⟩ := fetch_decodes (by decide) h₁ ⟨true, .got 9⟩ (show 0 < 9 by decide)
  obtain ⟨-, ⟨messages, rest, ha, he, -, hall⟩, -⟩ :=
    fetch_decodes (by decide) h₃ ⟨true, .got 1⟩ Nat.one_pos
  obtain rfl := hall (.inr ⟨by decide, by decide⟩)
  exact ⟨by decide, by decide, by decide, ⟨rest, ha, he⟩, hp 9 (by decide) (by decide)⟩

end FramedReading
end SyslogNg.LogProto
