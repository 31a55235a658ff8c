import SyslogNg.LogProto.TextClient

/-!
# The frames on the wire

The header of a message, the message and what is left of it are sent by different calls. What is
on the wire is told by the state of the client: all frames of the consumed messages but what is
left of the last one, and as much of the header of the next message as was accepted.
-/
namespace SyslogNg.LogProto

open List TextClient

/-- The frame of a message, as the protocol has it. -/
def frame (msg : Bytes) : Bytes :=
  frameHeader (min msg.length maxFrameLen) ++ msg.take maxFrameLen

theorem length_frameHeader_le {len : ℕ} (h : len ≤ maxFrameLen) : (frameHeader len).length ≤ 8 := by
  have hlt : len < 10 ^ 7 := by
    unfold maxFrameLen at h
    omega
  have hd := Nat.toDigits_length 10 len 7 (by decide) hlt
  simp only [frameHeader, decimalText, length_append, length_map, length_singleton]
  omega

/-! ### The session -/

/-- A client with the consumed messages and the one that has to be posted again. -/
structure FramedSession where
  client : FramedClient
  consumed : List Bytes := []
  current : Option Bytes := none

inductive FramedOp
  | post (msg : Bytes) (header flushed written : WriteResult)
  | flush (result : WriteResult)

def WriteResult.Working : WriteResult → Prop
  | wrote _ => True
  | error errno => errno = .again

namespace FramedSession

variable {s : FramedSession}

def apply (s : FramedSession) : FramedOp → FramedSession
  | .post msg header flushed written =>
    let posted := s.client.post msg false header flushed written
    if posted.2.2 then ⟨posted.1, s.consumed ++ [msg], none⟩ else ⟨posted.1, s.consumed, some msg⟩
  | .flush result => { s with client := (s.client.flush result).1 }

/-- The messages are not empty, and a message that was not consumed is posted again. -/
def Expected (s : FramedSession) : FramedOp → Prop
  | .post msg header flushed written =>
    msg ≠ [] ∧ (∀ unconsumed, s.current = some unconsumed → msg = unconsumed) ∧
      header.Working ∧ flushed.Working ∧ written.Working
  | .flush result => result.Working

def posted (s : FramedSession) : List Bytes := s.consumed ++ s.current.toList

end FramedSession

def framedSystem : System FramedSession FramedOp where
  init s := ∃ keepOneMessage, s = ⟨{ keepOneMessage }, [], none⟩
  step s op s' := s.Expected op ∧ s' = s.apply op

/-! ### What is on the wire -/

/-- Nothing is left of the message, and the client does not wait for the end of a frame. -/
structure Between (c : TextClient) : Prop where
  partialMsg : c.partialMsg = none
  partialLen : c.partialLen = 0

/-- What is on the wire in each state, for the frames of the consumed messages. -/
inductive OnWire (c : FramedClient) (frames : Bytes) (current : Option Bytes) : Prop
  | frameInit (hstate : c.state = .frameInit) (hbetween : Between c.toTextClient)
      (hwire : c.wire = frames)
  | frameSend {msg} (hstate : c.state = .frameSend) (hbetween : Between c.toTextClient)
      (hcurrent : current = some msg)
      (hbuf : c.frameHdrBuf = frameHeader (min msg.length maxFrameLen))
      (hlen : c.frameHdrLen = c.frameHdrBuf.length) (hpos : c.frameHdrPos ≤ c.frameHdrLen)
      (hwire : c.wire = frames ++ c.frameHdrBuf.take c.frameHdrPos)
  | messageSend (hstate : c.state = .messageSend) (hwf : c.toTextClient.Wf)
      (hlen : c.partialLen ≠ 0) (hwire : c.wire ++ c.unsent = frames)

theorem sendMessage_blocked {c : FramedClient} {frames body : Bytes} (hse : c.state = .messageSend)
    (hwf : c.toTextClient.Wf) (hl : c.partialLen ≠ 0) (hw : c.wire ++ c.unsent = frames)
    {flushed written : WriteResult} (hfl : flushed.Working) (current : Option Bytes) :
    (c.sendMessage body flushed written).2.2 = false ∧
      OnWire (c.sendMessage body flushed written).1 frames current := by
  have hst := postWriter_step hwf body true flushed written
  unfold FramedClient.sendMessage
  generalize c.toTextClient.postWriter body true flushed written = p at hst
  cases hst with
  | failed hf =>
    cases hf with
    | failed _ hr =>
      rw [hr] at hfl
      cases hfl
  | stuck hf hm =>
    obtain ⟨bytes, hu, hs, -⟩ := hf.sent
    refine ⟨rfl, .messageSend ?_ (hf.wf hwf) (hf.partialLen_eq.trans_ne hl) ?_⟩
    · simp [hse]
    · rw [← hw, hu, ← append_assoc, ← hs]
  | reset hf hm =>
    obtain ⟨bytes, hu, hs, -⟩ := hf.sent
    refine ⟨rfl, .frameInit ?_ ⟨hm, rfl⟩ ?_⟩
    · simp
    · rw [← hw, hu, unsent_of_none hm, append_nil]
      exact hs
  | write hf hm hz => exact absurd (hf.partialLen_eq.symm.trans (hz rfl)) hl

theorem sendMessage_first {c : FramedClient} {frames body : Bytes} (hst : c.state = .messageSend)
    (hb : Between c.toTextClient) (hwr : c.wire = frames) (hbd : body ≠ [])
    (hsh : body.length < 2 ^ 31) {flushed written : WriteResult} (hw : written.Working)
    (current : Option Bytes) : (c.sendMessage body flushed written).2.2 = true ∧
      OnWire (c.sendMessage body flushed written).1 (frames ++ body) current := by
  have hs := postWriter_step (.of_none hb.partialMsg) body true flushed written
  unfold FramedClient.sendMessage
  generalize c.toTextClient.postWriter body true flushed written = p at hs
  cases hs with
  | failed hf => cases hf.eq_of_none hb.partialMsg
  | stuck hf hm =>
    cases hf.eq_of_none hb.partialMsg
    simp [hb.partialMsg] at hm
  | reset hf hm hsv =>
    cases hf.eq_of_none hb.partialMsg
    exact absurd hb.partialLen hsv
  | write hf hm hz hwe =>
    cases hf.eq_of_none hb.partialMsg
    cases hwe with
    | failed hr => 
      rw [hr] at hw
      cases hw
    | @kept n hn =>
      refine ⟨rfl, .messageSend ?_ ⟨?_, ?_, ?_⟩ ?_ ?_⟩
      · simp [hst]
      · simp
      · simpa using hn
      · simpa using hsh
      · simpa using hbd
      · simp [unsent, sendPayload, hwr]
    | sent =>
      have hnn : (c.sendPayload body).partialMsg = none := hb.partialMsg
      refine ⟨rfl, .frameInit ?_ ⟨?_, ?_⟩ ?_⟩
      · simp [hnn]
      · simp [hnn]
      · exact (doAck_partialLen _).trans hb.partialLen
      · simp [sendPayload, hwr]

namespace OnWire

variable {c : FramedClient} {frames : Bytes} {current : Option Bytes}

/-- The header of a message that starts a frame, or that was posted before. -/
theorem initFrame {msg : Bytes} (h : OnWire c frames current)
    (hc : ∀ unconsumed, current = some unconsumed → msg = unconsumed)
    (hsn : (c.initFrame (min msg.length maxFrameLen)).state = .frameSend) :
    OnWire (c.initFrame (min msg.length maxFrameLen)) frames (some msg) := by
  have hsh := length_frameHeader_le (Nat.min_le_right msg.length maxFrameLen)
  cases h with
  | frameInit hs hb hw =>
    unfold FramedClient.initFrame
    rw [if_pos hs]
    refine .frameSend rfl hb rfl (take_of_length_le hsh) ?_ (Nat.zero_le _) ?_
    · rw [take_of_length_le hsh]
    · simp [hw]
  | frameSend hs hb hp hbf hl hps hw =>
    have hsm : c.initFrame (min msg.length maxFrameLen) = c := if_neg (by simp [hs])
    cases hc _ hp
    rw [hsm]
    exact .frameSend hs hb rfl hbf hl hps hw
  | messageSend hs =>
    have hsm : c.initFrame (min msg.length maxFrameLen) = c := if_neg (by simp [hs])
    rw [hsm, hs] at hsn
    cases hsn

theorem sendHeader (h : OnWire c frames current) (hs : c.state = .frameSend) (n : ℕ) :
    OnWire (c.sendHeader n) frames current := by
  cases h with
  | frameInit hi => cases hs.symm.trans hi
  | messageSend hm => cases hs.symm.trans hm
  | frameSend _ hb hp hbf hl hps hw =>
    refine .frameSend hs ⟨hb.1, hb.2⟩ hp hbf hl ?_ ?_
    · simp only [FramedClient.sendHeader]
      omega
    · simp only [FramedClient.sendHeader]
      rw [hw, append_assoc, take_add]

theorem of_header {msg : Bytes} (h : OnWire c frames (some msg)) (hs : c.state = .frameSend)
    (hd : c.frameHdrPos = c.frameHdrLen) :
    Between c.toTextClient ∧ c.wire = frames ++ frameHeader (min msg.length maxFrameLen) := by
  cases h with
  | frameInit hi => cases hs.symm.trans hi
  | messageSend hm => cases hs.symm.trans hm
  | frameSend _ hb hp hbf hl _ hw =>
    cases hp
    refine ⟨hb, ?_⟩
    rw [hw, hd, hl, take_length, hbf]

theorem wf (h : OnWire c frames current) : c.toTextClient.Wf := by
  cases h with
  | frameInit _ hb => exact .of_none hb.partialMsg
  | frameSend _ hb => exact .of_none hb.partialMsg
  | messageSend _ hwf => exact hwf

theorem flush (h : OnWire c frames current) (result : WriteResult) :
    OnWire (c.flush result).1 frames current := by
  obtain ⟨f, hst, ho, -⟩ := flush_step h.wf result
  have hw' : (c.flush result).1.wire = f.1.wire := congrArg (fun out => out.1) ho
  have hm' : (c.flush result).1.partialMsg = f.1.partialMsg :=
    congrArg (fun out => out.2.1) ho
  have hl' : (c.flush result).1.partialLen = f.1.partialLen :=
    congrArg (fun out => out.2.2.1) ho
  have hps' : (c.flush result).1.partialPos = f.1.partialPos :=
    congrArg (fun out => out.2.2.2) ho
  have hi : Between c.toTextClient → Between (c.flush result).1.toTextClient ∧
      (c.flush result).1.wire = c.wire := by
    intro hb
    cases hst.eq_of_none hb.partialMsg
    exact ⟨⟨hm'.trans hb.partialMsg, hl'.trans hb.partialLen⟩, hw'⟩
  cases h with
  | frameInit hs hb hw =>
    exact .frameInit hs (hi hb).1 ((hi hb).2.trans hw)
  | frameSend hs hb hp hbf hl hps hw =>
    exact .frameSend hs (hi hb).1 hp hbf hl hps ((hi hb).2.trans hw)
  | messageSend hs hwf hl hw =>
    obtain ⟨bytes, hu, hsn, -⟩ := hst.sent
    have hwf' := hst.wf hwf
    refine .messageSend hs ⟨?_, ?_, ?_⟩ ?_ ?_
    · intro msg hm
      exact hl'.trans (hwf'.len (hm'.symm.trans hm))
    · intro msg hm
      exact hps'.trans_le (hwf'.pos_le (hm'.symm.trans hm))
    · intro msg hm
      exact hwf'.short (hm'.symm.trans hm)
    · exact (hl'.trans hst.partialLen_eq).trans_ne hl
    · have hsm : (c.flush result).1.unsent = f.1.unsent := by
        unfold unsent
        rw [hm', hps']
      rw [hsm, hw', hsn, append_assoc, ← hu, hw]

/-- Nothing of a frame is left once a flush succeeds and no header was started. -/
theorem wire_of_flush (h : OnWire c frames none) {result : WriteResult}
    (hs : (c.flush result).2 = .success) : (c.flush result).1.wire = frames := by
  obtain ⟨f, hst, ho, hd⟩ := flush_step h.wf result
  have hw' : (c.flush result).1.wire = f.1.wire := congrArg Prod.fst ho
  obtain ⟨bytes, hu, hsn, -⟩ := hst.sent
  have hn : f.1.partialMsg = none := by
    apply hd
    unfold FramedClient.flush at hs
    dsimp only at hs
    split at hs
    · cases hs
    · exact hs
  have ha : f.1.wire = c.wire ++ c.unsent := by
    rw [hu, unsent_of_none hn, append_nil, hsn]
  rw [hw', ha]
  cases h with
  | frameInit _ hb hw =>
    rw [unsent_of_none hb.partialMsg, append_nil, hw]
  | frameSend _ _ hp => cases hp
  | messageSend _ _ _ hw => exact hw

/-- The wire never runs ahead of the frame of the message that is posted. -/
theorem wire_prefix (h : OnWire c frames current) :
    c.wire <+: frames ++ current.toList.flatMap frame := by
  cases h with
  | frameInit _ _ hw =>
    rw [hw]
    exact prefix_append _ _
  | @frameSend msg _ _ hp hb _ _ hw =>
    rw [hw, hp, hb]
    simp only [Option.toList_some, flatMap_singleton]
    exact (prefix_append_right_inj _).mpr (.trans ⟨_, take_append_drop _ _⟩ (prefix_append _ _))
  | messageSend _ _ _ hw =>
    rw [← hw, append_assoc]
    exact prefix_append _ _

end OnWire

/-! ### Every run -/

namespace FramedSession

variable {s : FramedSession}

theorem onWire_apply (h : OnWire s.client (s.consumed.flatMap frame) s.current) {op : FramedOp}
    (hok : s.Expected op) :
    OnWire (s.apply op).client ((s.apply op).consumed.flatMap frame) (s.apply op).current := by
  cases op with
  | flush result => exact h.flush result
  | post msg header flushed written =>
    obtain ⟨hne, hcr, hh, hf, hw⟩ := hok
    have hl : (msg.take maxFrameLen).length = min msg.length maxFrameLen := by
      rw [length_take, Nat.min_comm]
    have hst := s.client.post_step msg false header flushed written
    unfold FramedSession.apply
    dsimp only
    generalize s.client.post msg false header flushed written = next at hst
    cases hst with
    | blocked hs =>
      rw [hl] at hs ⊢
      exact h.initFrame hcr hs
    | failed hr he =>
      rw [hr] at hh
      exact absurd hh he
    | cut hs =>
      rw [hl] at hs ⊢
      exact (h.initFrame hcr hs).sendHeader hs _
    | @header n hs hd =>
      rw [hl] at hs hd ⊢
      obtain ⟨hb, hwr⟩ :=
        ((h.initFrame hcr hs).sendHeader hs n).of_header hs hd
      have hbd : msg.take maxFrameLen ≠ [] := by
        simp [maxFrameLen, hne]
      have hsh : (msg.take maxFrameLen).length < 2 ^ 31 := by
        rw [hl]
        exact (Nat.min_le_right _ _).trans_lt (by decide)
      let c : FramedClient :=
        { (s.client.initFrame (min msg.length maxFrameLen)).sendHeader n
          with state := .messageSend }
      have hc : Between c.toTextClient := hb
      obtain ⟨hcn, hon⟩ : (c.sendMessage (msg.take maxFrameLen) flushed written).2.2 = true ∧
          OnWire (c.sendMessage (msg.take maxFrameLen) flushed written).1 _ none :=
        sendMessage_first rfl hc hwr hbd hsh hw none
      rw [hcn, if_pos rfl, flatMap_append, flatMap_singleton, frame, ← append_assoc]
      exact hon
    | message hs =>
      cases h with
      | frameInit hi => cases hs.symm.trans hi
      | frameSend hsn => cases hs.symm.trans hsn
      | messageSend _ hwf hsv hwr =>
        obtain ⟨hcn, hon⟩ :=
          sendMessage_blocked hs hwf hsv hwr hf (some msg)
        rw [hcn]
        exact hon

theorem onWire_of_reachable (h : framedSystem.Reachable s) :
    OnWire s.client (s.consumed.flatMap frame) s.current := by
  apply h.invariant
  · rintro s ⟨keepOneMessage, rfl⟩
    exact .frameInit rfl ⟨rfl, rfl⟩ rfl
  · rintro s op s' hs ⟨hok, rfl⟩
    exact onWire_apply hs hok

/-- In every run the wire holds a part of the frames of the posted messages, from their start;
and all of them after a flush that succeeds, if all messages are consumed. -/
theorem wire_frames (h : framedSystem.Reachable s) : s.client.wire <+: s.posted.flatMap frame ∧
      ∀ result : WriteResult, s.Expected (.flush result) → s.current = none →
        (s.client.flush result).2 = .success →
        (s.client.flush result).1.wire = s.posted.flatMap frame := by
  have hon := onWire_of_reachable h
  refine ⟨?_, fun result _ hc hs => ?_⟩
  · rw [posted, flatMap_append]
    exact hon.wire_prefix
  · rw [hc] at hon
    rw [hon.wire_of_flush hs, posted, hc, Option.toList_none, append_nil]

/-- The header and the message are both cut, and the message is finished by a flush. -/
def cutTwice : FramedSession :=
  [FramedOp.post [7, 8] (.wrote 1) (.wrote 0) (.wrote 0),
    .post [7, 8] (.wrote 1) (.wrote 0) (.wrote 1)].foldl FramedSession.apply
    ⟨{ keepOneMessage := false }, [], none⟩

theorem cutTwice_reachable : framedSystem.Reachable cutTwice := by
  have ha : Along FramedSession.apply Expected ⟨{ keepOneMessage := false }, [], none⟩
      [.post [7, 8] (.wrote 1) (.wrote 0) (.wrote 0),
        .post [7, 8] (.wrote 1) (.wrote 0) (.wrote 1)] := by
    refine ⟨⟨by simp, nofun, trivial, trivial, trivial⟩, ⟨by simp, ?_, trivial, trivial, trivial⟩,
      trivial⟩
    rintro msg ⟨⟩
    rfl
  have hr := ha.run (M := framedSystem) fun _ _ hok => ⟨hok, rfl⟩
  exact System.Reachable.trans_run (.init ⟨false, rfl⟩) hr

theorem wire_frames_cutTwice : (cutTwice.client.flush (.wrote 1)).1.wire = [0x32, 0x20, 7, 8] :=
  (wire_frames cutTwice_reachable).2 (.wrote 1) trivial (by decide) (by decide)

end FramedSession
end SyslogNg.LogProto
