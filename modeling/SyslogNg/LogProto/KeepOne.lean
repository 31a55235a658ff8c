import SyslogNg.LogProto.TextClient

/-!
# Acknowledgements with `keep_one_message`

The acknowledgement of the last consumed message is withheld until nothing is left of it. A
client accepts a message only if nothing is left of the earlier ones, so one is enough.
-/
namespace SyslogNg.LogProto

open List TextClient

/-- How many of the messages were accepted up to their last byte. -/
def completed (payload : Bytes) (messages : List Bytes) : ℕ :=
  (List.range messages.length).countP fun k => (messages.take (k + 1)).flatten.isPrefixOf payload

namespace TextClient

variable {c : TextClient} {consumed : List Bytes}

/-- All consumed messages are sent or left, and while something is left of the last one, its
acknowledgement is withheld. -/
structure KeepsOne (c : TextClient) (consumed : List Bytes) : Prop where
  wf : c.Wf
  keepOne : c.keepOneMessage = true
  total : c.acked + c.pendingAckCount = consumed.length
  pending_le : c.pendingAckCount ≤ 1
  sent : c.payload ++ c.unsent = consumed.flatten
  last : ∀ {msg}, c.partialMsg = some msg →
    c.pendingAckCount = 1 ∧ ∃ earlier, consumed = earlier ++ [msg]

namespace KeepsOne

variable (h : KeepsOne c consumed)
include h

theorem flushStep {result : WriteResult} {f : TextClient × Status}
    (hs : FlushStep c result f) : KeepsOne f.1 consumed := by
  obtain ⟨bytes, hu, -, hp⟩ := hs.sent
  have hsn : f.1.payload ++ f.1.unsent = consumed.flatten := by
    rw [hp, append_assoc, ← hu, h.sent]
  have hwf := hs.wf h.wf
  cases hs with
  | idle | blocked | failed => exact h
  | cut hm hn => exact { h with wf := hwf, sent := hsn }
  | finished hm => exact { h with wf := hwf, sent := hsn, last := nofun }

theorem doAck_of_sent {c' : TextClient} {msg : Bytes} (hwf : c'.Wf)
    (hkp : c'.keepOneMessage = c.keepOneMessage)
    (hp : c'.pendingAckCount = c.pendingAckCount) (ha : c'.acked = c.acked)
    (hs : c'.payload ++ c'.unsent = (consumed ++ [msg]).flatten)
    (hl : ∀ {kept}, c'.partialMsg = some kept → kept = msg) :
    KeepsOne c'.doAck (consumed ++ [msg]) := by
  have ht := h.total
  have hle := h.pending_le
  have hk : c'.keepOneMessage = true := hkp.trans h.keepOne
  unfold doAck
  by_cases hn : c'.pendingAckCount < 1
  · rw [if_pos ⟨hk, hn⟩]
    have hz : c'.pendingAckCount = 0 := by omega
    refine ⟨{ hwf with }, hk, ?_, ?_, hs, fun hm => ⟨?_, consumed, ?_⟩⟩
    · simp only [length_append, length_singleton]
      omega
    · simp [hz]
    · simp [hz]
    · rw [hl hm]
  · rw [if_neg fun hb => hn hb.2]
    refine ⟨{ hwf with }, hk, ?_, ?_, hs, fun hm => ⟨?_, consumed, ?_⟩⟩
    · simp only [length_append, length_singleton]
      omega
    · change c'.pendingAckCount ≤ 1
      omega
    · change c'.pendingAckCount = 1
      omega
    · rw [hl hm]

theorem writeStep (hnn : c.partialMsg = none) {msg : Bytes}
    (hm : msg.length < 2 ^ 31) {result : WriteResult} {p : Posted}
    (hst : WriteStep c msg result p) :
    KeepsOne p.client (consumed ++ if p.consumed then [msg] else []) := by
  have hs := h.sent
  rw [unsent_of_none hnn, append_nil] at hs
  cases hst with
  | failed => exact (append_nil consumed).symm ▸ h
  | @kept n hn =>
    refine h.doAck_of_sent ⟨?_, ?_, ?_⟩ rfl rfl rfl ?_ fun hk => (Option.some.inj hk).symm
    · rintro kept ⟨⟩
      rfl
    · rintro kept ⟨⟩
      exact hn
    · rintro kept ⟨⟩
      exact hm
    · simp only [unsent, sendPayload]
      rw [append_assoc, take_append_drop, hs, flatten_append, flatten_singleton]
  | sent =>
    have hnn' : (c.sendPayload msg).partialMsg = none := hnn
    refine h.doAck_of_sent (.of_none hnn') rfl rfl rfl ?_ fun hk =>
      absurd (hnn'.symm.trans hk) (by simp)
    simp only [unsent, sendPayload, hnn]
    rw [append_nil, hs, flatten_append, flatten_singleton]

theorem postStep {msg : Bytes} (hm : msg.length < 2 ^ 31)
    {syslogProto : Bool} {flushed written : WriteResult} {p : Posted}
    (hst : PostStep c msg syslogProto flushed written p) :
    KeepsOne p.client (consumed ++ if p.consumed then [msg] else []) := by
  cases hst with
  | failed hfl =>
    rw [if_neg (by simp), append_nil]
    exact h.flushStep hfl
  | stuck hfl =>
    rw [if_neg (by simp), append_nil]
    exact h.flushStep hfl
  | reset hfl hn =>
    rw [if_neg (by simp), append_nil]
    have hf := h.flushStep hfl
    have hs := hf.sent
    rw [unsent_of_none hn] at hs
    refine { hf with wf := .of_none hn, sent := ?_ }
    simp only [hn]
    exact hs
  | write hfl hn _ hw => exact (h.flushStep hfl).writeStep hn hm hw

theorem doPendingAcks (hn : c.partialMsg = none) : KeepsOne c.doPendingAcks consumed := by
  unfold TextClient.doPendingAcks
  split
  · refine ⟨{ h.wf with }, h.keepOne, h.total, Nat.zero_le 1, h.sent, ?_⟩
    exact fun hk => absurd (hn.symm.trans hk) (by simp)
  · exact h

theorem flush (result : WriteResult) : KeepsOne (c.flush result).1 consumed := by
  have hf := h.flushStep (flushBuffer_step h.wf result)
  unfold TextClient.flush
  dsimp only
  split
  · exact hf
  · split
    case isTrue hn => exact hf.doPendingAcks (Option.isNone_iff_eq_none.mp hn)
    case isFalse => exact hf

theorem toWire (wire : Bytes) : KeepsOne { c with wire := wire } consumed :=
  ⟨{ h.wf with }, h.keepOne, h.total, h.pending_le, h.sent, h.last⟩

/-- Nothing of an acknowledged message is left. -/
theorem acked_prefix : (consumed.take c.acked).flatten <+: c.payload := by
  have hs := h.sent
  cases hm : c.partialMsg with
  | none =>
    rw [unsent_of_none hm, append_nil] at hs
    rw [hs]
    have hp := take_prefix c.acked consumed
    exact hp.flatten
  | some msg =>
    obtain ⟨hp, earlier, rfl⟩ := h.last hm
    have ht := h.total
    have ha : c.acked = earlier.length := by
      rw [length_append, length_singleton] at ht
      omega
    have hc : c.payload ++ msg.drop c.partialPos =
        earlier.flatten ++ msg.take c.partialPos ++ msg.drop c.partialPos := by
      rw [append_assoc, take_append_drop, ← unsent_of_some hm, hs,
        flatten_append, flatten_singleton]
    rw [ha, take_left]
    exact ⟨_, (append_cancel_right hc).symm⟩

theorem acked_le_completed : c.acked ≤ completed c.payload consumed := by
  have ht := h.total
  have ha : (List.range c.acked).countP
      (fun k => (consumed.take (k + 1)).flatten.isPrefixOf c.payload) = c.acked := by
    rw [countP_eq_length.mpr, length_range]
    intro k hk
    have hle : k + 1 ≤ c.acked := mem_range.mp hk
    exact isPrefixOf_iff_prefix.mpr ((take_prefix_take_left hle).flatten.trans h.acked_prefix)
  have hs : (List.range c.acked).Sublist (List.range consumed.length) :=
    range_sublist.mpr (by omega)
  exact ha.ge.trans (hs.countP_le)

end KeepsOne
end TextClient

/-! ### Both kinds of clients -/

inductive Client
  | text (c : TextClient)
  | framed (c : FramedClient)

inductive ClientOp
  | post (msg : Bytes) (header flushed written : WriteResult)
  | flush (result : WriteResult)

namespace Client

def base : Client → TextClient
  | text c => c
  | framed c => c.toTextClient

def body : Client → Bytes → Bytes
  | text _, msg => msg
  | framed _, msg => msg.take maxFrameLen

def apply : Client → ClientOp → Client × Bool
  | text c, .post msg _ flushed written =>
    let posted := c.post msg flushed written
    (text posted.client, posted.consumed)
  | framed c, .post msg header flushed written =>
    let posted := c.post msg false header flushed written
    (framed posted.1, posted.2.2)
  | text c, .flush result => (text (c.flush result).1, false)
  | framed c, .flush result => (framed (c.flush result).1, false)

end Client

structure Session where
  client : Client
  consumed : List Bytes := []

def Session.apply (s : Session) (op : ClientOp) : Session :=
  match op with
  | .flush result => { s with client := (s.client.apply (.flush result)).1 }
  | .post msg header flushed written =>
    let next := s.client.apply (.post msg header flushed written)
    ⟨next.1, s.consumed ++ if next.2 then [s.client.body msg] else []⟩

def keepOneSystem : System Session ClientOp where
  init s := s = ⟨.text { keepOneMessage := true }, []⟩ ∨
    s = ⟨.framed { keepOneMessage := true }, []⟩
  step s op s' := s' = s.apply op

/-- No text message has 2 GiB. -/
def ShortMessage (s : Session) : ClientOp → Prop
  | .post msg .. => (s.client.body msg).length < 2 ^ 31
  | .flush _ => True

theorem framedStep_keepsOne {c : FramedClient} {consumed : List Bytes}
    (h : c.toTextClient.KeepsOne consumed) {msg : Bytes} (hm : msg.length < 2 ^ 31)
    {header flushed written : WriteResult} {next : FramedClient × Status × Bool}
    (hst : FramedClient.FramedStep c msg false header flushed written next) :
    next.1.toTextClient.KeepsOne (consumed ++ if next.2.2 then [msg] else []) := by
  have hi : (c.initFrame msg.length).toTextClient = c.toTextClient := by
    unfold FramedClient.initFrame
    split <;> rfl
  cases hst with
  | blocked | failed =>
    rw [if_neg (by simp), append_nil, hi]
    exact h
  | cut =>
    rw [if_neg (by simp), append_nil]
    exact (hi ▸ h).toWire _
  | header =>
    have hs := (hi ▸ h : (c.initFrame msg.length).toTextClient.KeepsOne consumed)
    exact (hs.toWire _).postStep hm (postWriter_step (hs.toWire _).wf msg true _ _)
  | message =>
    exact h.postStep hm (postWriter_step h.wf msg true flushed written)

theorem Session.apply_keepsOne {s : Session} (h : s.client.base.KeepsOne s.consumed) {op : ClientOp}
    (hok : ShortMessage s op) : (s.apply op).client.base.KeepsOne (s.apply op).consumed := by
  obtain ⟨client, consumed⟩ := s
  cases op with
  | flush result =>
    cases client with
    | text c => exact TextClient.KeepsOne.flush h result
    | framed c => exact TextClient.KeepsOne.flush h result
  | post msg header flushed written =>
    cases client with
    | text c =>
      exact h.postStep hok (postWriter_step h.wf msg false flushed written)
    | framed c =>
      exact framedStep_keepsOne h hok (c.post_step msg false header flushed written)

theorem keepsOne_of_reachable {s : Session}
    (h : (keepOneSystem.restrict ShortMessage).Reachable s) :
    s.client.base.KeepsOne s.consumed := by
  apply h.invariant
  · rintro s (rfl | rfl)
    · exact ⟨.of_none rfl, rfl, rfl, Nat.zero_le 1, rfl, nofun⟩
    · exact ⟨.of_none rfl, rfl, rfl, Nat.zero_le 1, rfl, nofun⟩
  · rintro s op s' hs ⟨hok, rfl⟩
    exact Session.apply_keepsOne hs hok

/-- In every run in which no text message has 2 GiB: the acknowledged messages were accepted as a
whole, at most one acknowledgement is withheld, and a message that was not accepted as a whole is
among those that are not acknowledged. -/
theorem acked_only_completed {s : Session} (h : (keepOneSystem.restrict ShortMessage).Reachable s) :
    s.client.base.acked ≤ completed s.client.base.payload s.consumed ∧
      s.client.base.acked + s.client.base.pendingAckCount = s.consumed.length ∧
      s.client.base.pendingAckCount ≤ 1 ∧
      ∀ k < s.consumed.length, ¬(s.consumed.take (k + 1)).flatten <+: s.client.base.payload →
        s.client.base.acked ≤ k := by
  have hs := keepsOne_of_reachable h
  refine ⟨hs.acked_le_completed, hs.total, hs.pending_le, fun k _ hn => ?_⟩
  by_contra hacked
  have hle : k + 1 ≤ s.client.base.acked := by omega
  exact hn ((take_prefix_take_left hle).flatten.trans hs.acked_prefix)

/-- A message is sent in two parts, and acknowledged by the second. -/
def twoParts : Session :=
  [ClientOp.post [1, 2] (.wrote 0) (.wrote 0) (.wrote 1), .flush (.wrote 1)].foldl Session.apply
    ⟨.text { keepOneMessage := true }, []⟩

theorem twoParts_reachable : (keepOneSystem.restrict ShortMessage).Reachable twoParts := by
  have ha : Along Session.apply ShortMessage ⟨.text { keepOneMessage := true }, []⟩
      [.post [1, 2] (.wrote 0) (.wrote 0) (.wrote 1), .flush (.wrote 1)] := by
    refine ⟨?_, trivial, trivial⟩
    change 2 < 2 ^ 31
    decide
  exact ha.reachable (fun _ _ => rfl) (.init (.inl rfl))

theorem acked_only_completed_twoParts :
    twoParts.client.base.acked = 1 ∧ 1 ≤ completed twoParts.client.base.payload twoParts.consumed :=
  ⟨by decide, (acked_only_completed twoParts_reachable).1⟩

/-- A client that keeps a message of which nothing was accepted. -/
def keeping (msg : Bytes) : TextClient :=
  { keepOneMessage := true, pendingAckCount := 1, partialMsg := some msg, partialLen := msg.length }

theorem flushBuffer_of_gint_zero {c : TextClient} {msg : Bytes} (hm : c.partialMsg = some msg)
    (hz : Int.bmod (c.partialLen - c.partialPos) (2 ^ 32) = 0) :
    c.flushBuffer (.wrote 0) = ({ c with partialMsg := none }, .success) := by
  unfold flushBuffer
  rw [hm]
  rw [hz]
  simp [sendPayload]

/-- A message of 4 GiB has the length 0 as a `gint`, so a write of no byte is a write of all. -/
theorem flush_huge {msg : Bytes} (hl : msg.length = 2 ^ 32) : (keeping msg).flush (.wrote 0) =
      ({ keepOneMessage := true, acked := 1, partialLen := msg.length }, .success) := by
  have hz : Int.bmod ((keeping msg).partialLen - (keeping msg).partialPos) (2 ^ 32) = 0 := by
    have hs : (keeping msg).partialLen = 2 ^ 32 := hl
    have hp : (keeping msg).partialPos = 0 := rfl
    rw [hs, hp]
    decide
  unfold TextClient.flush
  rw [flushBuffer_of_gint_zero rfl hz]
  rfl

/-- A text message of 4 GiB is acknowledged though no byte of it was accepted. -/
theorem huge_acked_unsent : let msg : Bytes := List.replicate (2 ^ 32) 0
    let s := [ClientOp.post msg (.wrote 0) (.wrote 0) (.error .again), .flush (.wrote 0)].foldl
      Session.apply ⟨.text { keepOneMessage := true }, []⟩
    keepOneSystem.Reachable s ∧ s.client.base.acked = 1 ∧ s.client.base.payload = [] ∧
      completed s.client.base.payload s.consumed = 0 := by
  intro msg s
  have hl : msg.length = 2 ^ 32 := length_replicate
  have hs : s = ⟨.text { keepOneMessage := true, acked := 1, partialLen := msg.length },
    [msg]⟩ := by
    change Session.mk (.text ((keeping msg).flush (.wrote 0)).1) [msg] = _
    rw [flush_huge hl]
  refine ⟨System.Reachable.trans_run (.init (.inl rfl)) (.of_foldl (fun _ _ => rfl) _ _), ?_⟩
  rw [hs]
  refine ⟨rfl, rfl, ?_⟩
  have hne : msg ≠ [] := by
    intro hn
    rw [hn] at hl
    cases hl
  unfold completed
  simp [Client.base, hne]

end SyslogNg.LogProto
