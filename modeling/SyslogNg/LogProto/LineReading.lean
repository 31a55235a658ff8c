import SyslogNg.LogProto.Lines

/-!
# Runs of the text server

A stream is read by calls of `log_proto_buffered_server_fetch`. The returned messages are its
lines, however it is cut into reads. The caller waits for input when no end of a line is stored;
an empty line that follows a line is then left in the buffer.
-/
namespace SyslogNg.LogProto

open Framing List

/-- A server with the bytes that were read, those that are still to be read, and the messages that
were returned. -/
structure LineReading where
  server : TextServer
  unread : Bytes
  received : Bytes := []
  delivered : List Bytes := []
  deriving DecidableEq

structure LineOp where
  reads : List ReadResult
  bookmarked : Bool := true

def LineOp.Working (op : LineOp) : Prop := ∀ r ∈ op.reads, r.Working

/-- The first read gives some bytes, or the end of the stream. -/
def LineOp.Reads (op : LineOp) : Prop := ∃ n reads, op.reads = .got n :: reads

def lastLine (rest : Bytes) : List Bytes := if rest = [] then [] else [rest]

namespace LineReading

variable {s : LineReading} {options : TextServerOptions} {stream : Bytes} {op : LineOp}

def start (options : TextServerOptions) (stream : Bytes) : LineReading :=
  ⟨{ options, bufferSize := options.maxMsgSize }, stream, [], []⟩

def fetched (s : LineReading) (op : LineOp) : Fetched TextServer :=
  (s.server.fetch s.unread op.reads op.bookmarked).1

def apply (s : LineReading) (op : LineOp) : LineReading :=
  let f := s.fetched op
  ⟨f.server, f.unread, s.received ++ s.unread.take (s.unread.length - f.unread.length),
    s.delivered ++ f.msg.toList⟩

def system (options : TextServerOptions) (stream : Bytes) : System LineReading LineOp where
  init s := s = start options stream
  step s op s' := op.Working ∧ s' = s.apply op

/-- The lines before what is left, while the stream is read. -/
structure Open (options : TextServerOptions) (s : LineReading) : Prop where
  status : s.server.status = .success
  options_eq : s.server.options = options
  ready : s.server.Ready s.received.length
  decodes : Decodes (IsLine options.maxMsgSize) s.received s.delivered s.server.pending

/-- All lines and the rest, after the end of the stream. -/
structure Ended (options : TextServerOptions) (s : LineReading) : Prop where
  status : s.server.status = .eof
  ignoreEof : options.ignoreEof = false
  unread : s.unread = []
  decodes : ∃ messages rest, Decodes (IsLine options.maxMsgSize) s.received messages rest ∧
    ¬StartsFrame (IsLine options.maxMsgSize) rest ∧ s.delivered = messages ++ lastLine rest

section

variable (h : Open options s) (hsize : 0 < options.maxMsgSize) (hop : op.Working)
include h hsize hop

theorem Open.fetch_step :
    ∃ left, (s.apply op).received ++ (s.apply op).unread = s.received ++ s.unread ∧
      Decodes (IsLine options.maxMsgSize) (s.apply op).received s.delivered left ∧
      s.server.ReadStep left (s.apply op).received.length (s.fetched op) := by
  have ho := h.options_eq
  have hm : s.server.maxMsgSize = options.maxMsgSize := congrArg _ ho
  obtain ⟨data, hd, hs⟩ := TextServer.fetch_step (hm ▸ hsize) h.ready.started h.status
    s.unread hop op.bookmarked
  have hr : (s.apply op).received = s.received ++ data := by
    change s.received ++ s.unread.take (s.unread.length - (s.fetched op).unread.length) = _
    have hl : s.unread.length - (s.fetched op).unread.length = data.length := by
      rw [hd]
      simp [fetched]
    rw [hl, hd, take_left]
  refine ⟨s.server.pending ++ data, ?_, ?_, ?_⟩
  · rw [hr, append_assoc]
    exact congrArg _ hd.symm
  · rw [hr]
    exact h.decodes.append data
  · rw [hr, length_append]
    exact hs

theorem Open.apply : (s.apply op).received ++ (s.apply op).unread = s.received ++ s.unread ∧
      (Open options (s.apply op) ∨ Ended options (s.apply op)) := by
  obtain ⟨left, hsr, hdc, hsp⟩ := h.fetch_step hsize hop
  have hmx : s.server.maxMsgSize = options.maxMsgSize := congrArg _ h.options_eq
  have hd : (s.apply op).delivered = s.delivered ++ (s.fetched op).msg.toList := rfl
  refine ⟨hsr, ?_⟩
  cases hsp with
  | line _ hm hln hl hr hsm hs _ =>
    rw [hmx] at hln
    refine .inl ⟨hs, hsm.options.trans h.options_eq, hr, ?_⟩
    rw [hd, hm]
    exact (hl ▸ hdc).snoc hln
  | waiting _ hm hl _ hr hsm hs =>
    refine .inl ⟨hs, hsm.options.trans h.options_eq, hr, ?_⟩
    rw [hd, hm, Option.toList_none, append_nil]
    exact hl ▸ hdc
  | finished hu hn hst hs _ hm _ _ _ =>
    rw [hmx] at hst
    refine .inr ⟨hs, h.options_eq ▸ hn, hu, s.delivered, left, hdc, hst, ?_⟩
    rw [hd, hm, lastLine]
    split <;> rfl

end

/-- After the end the status is returned. -/
theorem Ended.fetched (h : Ended options s) (op : LineOp) :
    (s.fetched op).server.status = .eof ∧ (s.fetched op).unread = s.unread ∧
      (s.fetched op).msg = none := by
  have hs : s.server.started.status = .eof := s.server.started_same.2.trans h.status
  have hm : s.server.started.fetchMessage s.unread op.reads =
      ⟨s.server.started, s.unread, .eof, none⟩ := by
    unfold TextServer.fetchMessage
    rw [if_pos (by simp [hs]), hs]
  unfold LineReading.fetched TextServer.fetch
  rw [hm]
  exact ⟨rfl, rfl, rfl⟩

theorem Ended.apply (h : Ended options s) :
    (s.apply op).received ++ (s.apply op).unread = s.received ++ s.unread ∧
      Ended options (s.apply op) := by
  obtain ⟨hs, hu, hm⟩ := h.fetched op
  have hr : (s.apply op).received = s.received := by
    change s.received ++ s.unread.take (s.unread.length - (s.fetched op).unread.length) = _
    rw [hu, Nat.sub_self, take_zero, append_nil]
  have hd : (s.apply op).delivered = s.delivered := by
    change s.delivered ++ (s.fetched op).msg.toList = _
    rw [hm, Option.toList_none, append_nil]
  obtain ⟨messages, rest, hdc, he, ha⟩ := h.decodes
  refine ⟨?_, hs, h.ignoreEof, hu.trans h.unread, messages, rest, ?_, he, hd.trans ha⟩
  · rw [hr]
    exact congrArg _ hu
  · rw [hr]
    exact hdc

theorem Ended.foldl (h : Ended options s) (ops : List LineOp) :
    Ended options (ops.foldl LineReading.apply s) := by
  induction ops generalizing s with
  | nil => exact h
  | cons op ops ih => exact ih h.apply.2

theorem open_or_ended (hsize : 0 < options.maxMsgSize) (h : (system options stream).Reachable s) :
    s.received ++ s.unread = stream ∧ (Open options s ∨ Ended options s) := by
  apply h.invariant
  · rintro s rfl
    refine ⟨rfl, .inl ⟨rfl, rfl, ⟨rfl, le_rfl, Nat.zero_le _, fun hne => absurd rfl hne, ?_⟩, .nil⟩⟩
    exact fun _ => ⟨rfl, rfl⟩
  · rintro s op s' ⟨hst, hs⟩ ⟨hop, rfl⟩
    rcases hs with hs | hs
    · exact ⟨(hs.apply hsize hop).1.trans hst, (hs.apply hsize hop).2⟩
    · exact ⟨hs.apply.1.trans hst, .inr hs.apply.2⟩

/-! ### Progress -/

/-- A byte is read, and taken from the buffer. -/
def work (s : LineReading) : ℕ := 2 * s.unread.length + s.server.pending.length

section

variable (hsize : 0 < options.maxMsgSize) (heof : options.ignoreEof = false)
include hsize heof

theorem Open.progress (h : Open options s) (hop : op.Working) (hr : op.Reads) :
    Ended options (s.apply op) ∨ Open options (s.apply op) ∧ (s.apply op).work < s.work := by
  obtain ⟨n, reads, hn⟩ := hr
  have hm : s.server.maxMsgSize = options.maxMsgSize := congrArg _ h.options_eq
  have hg := TextServer.fetch_got h.status (h.options_eq ▸ heof) s.unread n reads op.bookmarked
  rw [← hn] at hg
  obtain ⟨data, hd, hs⟩ := TextServer.fetch_step (hm ▸ hsize) h.ready.started h.status
    s.unread hop op.bookmarked
  have hl := congrArg length hd
  rw [length_append] at hl
  rcases (h.apply hsize hop).2 with ho | he
  · refine .inr ⟨ho, ?_⟩
    change 2 * (s.fetched op).unread.length + (s.fetched op).server.pending.length < s.work
    unfold work fetched
    cases hs with
    | line _ _ hln hlf =>
      have hp := length_pos_of_ne_nil (isLine_ne_nil (hm ▸ hsize) hln)
      have hlf' := congrArg length hlf
      rw [length_append, length_append] at hlf'
      omega
    | waiting _ hmsg hlf _ _ _ hst =>
      have hlf' := congrArg length hlf
      rw [length_append] at hlf'
      rcases hg with hg | hg | hg
      · rw [hmsg] at hg
        cases hg
      · exact absurd hst hg
      · omega
    | finished _ _ _ hst =>
      have hso : (s.apply op).server.status = .success := ho.status
      cases hst.symm.trans hso
  · exact .inl he

theorem Open.ended_foldl (h : Open options s) {ops : List LineOp}
    (hops : ∀ op ∈ ops, op.Working ∧ op.Reads) (hl : s.work < ops.length) :
    Ended options (ops.foldl LineReading.apply s) := by
  induction ops generalizing s with
  | nil => exact absurd hl (Nat.not_lt_zero _)
  | cons op ops ih =>
    obtain ⟨hop, hr⟩ := hops op mem_cons_self
    rcases h.progress hsize heof hop hr with he | ⟨ho, hw⟩
    · exact he.foldl ops
    · refine ih ho (fun op hop => hops op (mem_cons_of_mem _ hop)) ?_
      rw [length_cons] at hl
      omega

end

theorem reachable_foldl (h : (system options stream).Reachable s) {ops : List LineOp}
    (ho : ∀ op ∈ ops, op.Working) : (system options stream).Reachable (ops.foldl apply s) := by
  induction ops generalizing s with
  | nil => exact h
  | cons op ops ih =>
    exact ih (h.step ⟨ho op mem_cons_self, rfl⟩) fun op hop => ho op (mem_cons_of_mem _ hop)

/-- What was returned, for the decoding of the stream. -/
theorem delivered_of_decodes (hsize : 0 < options.maxMsgSize) {messages : List Bytes}
    {rest : Bytes} (hd : Decodes (IsLine options.maxMsgSize) stream messages rest)
    (hs : ¬StartsFrame (IsLine options.maxMsgSize) rest)
    (h : (system options stream).Reachable s) : s.delivered <+: messages ++ lastLine rest ∧
      (s.server.status = .eof → s.delivered = messages ++ lastLine rest) := by
  obtain ⟨rfl, ho | he⟩ := open_or_ended hsize h
  · obtain ⟨more, rfl, -⟩ := (ho.decodes.append s.unread).continues isLine_prefixFree hd hs
    refine ⟨(prefix_append _ _).trans (prefix_append _ _), fun hef => ?_⟩
    cases ho.status.symm.trans hef
  · obtain ⟨messages', rest', hd', hs', ha⟩ := he.decodes
    rw [he.unread, append_nil] at hd
    obtain ⟨more, rfl, hm⟩ := hd'.continues isLine_prefixFree hd hs
    obtain rfl := hm.eq_nil hs'
    rw [append_nil] at hd ⊢
    obtain rfl := hd'.rest_unique isLine_prefixFree hd
    exact ⟨ha ▸ prefix_rfl, fun _ => ha⟩

/-- For every message size and stream, and however it is cut into reads: the returned messages are
lines of the stream in their order, and all of them with the rest once its end was read, which it
is after enough calls that read. -/
theorem delivered_lines (hsize : 0 < options.maxMsgSize) (h : (system options stream).Reachable s) :
    ∃ messages rest, Decodes (IsLine options.maxMsgSize) stream messages rest ∧
      ¬StartsFrame (IsLine options.maxMsgSize) rest ∧ s.delivered <+: messages ++ lastLine rest ∧
      (s.server.status = .eof → s.delivered = messages ++ lastLine rest) ∧
      (options.ignoreEof = false → ∀ ops : List LineOp, (∀ op ∈ ops, op.Working ∧ op.Reads) →
        2 * stream.length < ops.length → (ops.foldl apply s).server.status = .eof ∧
          (ops.foldl apply s).delivered = messages ++ lastLine rest) := by
  obtain ⟨messages, rest, hd, hs⟩ := exists_decoding (fun hf => isLine_ne_nil hsize hf) stream
  obtain ⟨hp, hall⟩ := delivered_of_decodes hsize hd hs h
  refine ⟨messages, rest, hd, hs, hp, hall, fun heof ops hops hl => ?_⟩
  obtain ⟨hst, ho⟩ := open_or_ended hsize h
  have hr := reachable_foldl h fun op hop => (hops op hop).1
  have he : Ended options (ops.foldl apply s) := by
    rcases ho with ho | he
    · refine ho.ended_foldl hsize heof hops ?_
      have hsf := ho.decodes.suffix.length_le
      have hle := congrArg length hst
      rw [length_append] at hle
      unfold work
      omega
    · exact he.foldl ops
  exact ⟨he.status, (delivered_of_decodes hsize hd hs hr).2 he.status⟩

def after (options : TextServerOptions) (stream : Bytes) (ops : List LineOp) : LineReading :=
  ops.foldl apply (start options stream)

theorem reachable_after {ops : List LineOp} (ho : ∀ op ∈ ops, op.Working) :
    (system options stream).Reachable (after options stream ops) :=
  reachable_foldl (.init rfl) ho

/-- A line, a piece without an end, and the rest, of which the first bytes come one by one. -/
def cutLines : LineReading :=
  after { maxMsgSize := 3 } [0x61, 0x0d, 0x0a, 0x62, 0x63, 0x64, 0x65]
    [⟨[.got 1, .got 1, .again], true⟩, ⟨[.got 9], true⟩, ⟨[.got 9], false⟩,
      ⟨[.got 9, .got 9], true⟩]

theorem delivered_lines_cutLines : cutLines.delivered = [[0x61], [0x62, 0x63, 0x64], [0x65]] ∧
      ∃ messages rest, Decodes (IsLine 3) [0x61, 0x0d, 0x0a, 0x62, 0x63, 0x64, 0x65] messages rest ∧
        ¬StartsFrame (IsLine 3) rest ∧ cutLines.delivered = messages ++ lastLine rest ∧
        ∀ ops : List LineOp, (∀ op ∈ ops, op.Working ∧ op.Reads) → 14 < ops.length →
          (ops.foldl apply (start { maxMsgSize := 3 }
            [0x61, 0x0d, 0x0a, 0x62, 0x63, 0x64, 0x65])).delivered = cutLines.delivered := by
  have hsize : 0 < ({ maxMsgSize := 3 } : TextServerOptions).maxMsgSize := by decide
  have hr : (system { maxMsgSize := 3 }
      [0x61, 0x0d, 0x0a, 0x62, 0x63, 0x64, 0x65]).Reachable cutLines :=
    reachable_after (by simp [LineOp.Working, ReadResult.Working])
  obtain ⟨messages, rest, ha, he, -, hd, -⟩ := delivered_lines hsize hr
  obtain ⟨messages', rest', ha', he', -, -, hall⟩ := delivered_lines hsize
    (.init rfl : (system { maxMsgSize := 3 } [0x61, 0x0d, 0x0a, 0x62, 0x63, 0x64, 0x65]).Reachable
      (start { maxMsgSize := 3 } [0x61, 0x0d, 0x0a, 0x62, 0x63, 0x64, 0x65]))
  refine ⟨by decide, messages, rest, ha, he, hd (by decide), fun ops hops hl => ?_⟩
  rw [(hall rfl ops hops hl).2]
  exact ((delivered_of_decodes hsize ha' he' hr).2 (by decide)).symm

/-! ### Lines that are left in the buffer -/

/-- No empty line follows a line. -/
def NoEmptyLine (stream : Bytes) : Prop :=
  ∀ line t b rest, stream = line ++ t :: b :: rest → ¬(isEom t = true ∧ isEom b = true)

/-- For every stream in which no NL or NUL follows another one, and however it is cut into reads:
if the caller waits for input after a message was returned, no complete line is in the buffer. -/
theorem no_line_stalled (hsize : 0 < options.maxMsgSize) (hstream : NoEmptyLine stream)
    (h : (system options stream).Reachable s) (hop : op.Working)
    (hmsg : (s.fetched op).msg.isSome) (hwait : (s.apply op).server.prepare = false) :
    ∀ b ∈ (s.apply op).server.pending, isEom b = false := by
  obtain ⟨ha, hs⟩ := open_or_ended hsize h
  rcases hs with hs | hs
  · obtain ⟨left, hw, hd, hsp⟩ := hs.fetch_step hsize hop
    cases hsp with
    | line _ _ _ _ _ _ _ hst =>
      have hwait' : (s.fetched op).server.prepare = false := hwait
      have hn : (s.fetched op).server.bufferCachedEol = 0 := by
        simpa [TextServer.prepare] using hwait'
      rcases hst hn with hc | ⟨line, t, b, rest, hl, ht, hb⟩
      · exact hc
      · obtain ⟨before, hbf⟩ := hd.suffix
        refine absurd ⟨ht, hb⟩ (hstream (before ++ line) t b (rest ++ (s.apply op).unread) ?_)
        rw [← ha, ← hw, ← hbf, hl]
        simp
    | waiting _ hn => simp [hn] at hmsg
    | finished _ _ _ _ hp =>
      change ∀ b ∈ (s.fetched op).server.pending, isEom b = false
      rw [hp]
      simp
  · rw [(hs.fetched op).2.2] at hmsg
    cases hmsg

def lineAndRest : LineReading := start { maxMsgSize := 9 } [0x61, 0x0a, 0x62]

def readAll : LineOp := ⟨[.got 9], true⟩

theorem readAll_working : readAll.Working := by simp [readAll, LineOp.Working, ReadResult.Working]

theorem no_line_stalled_lineAndRest : (lineAndRest.apply readAll).server.pending = [0x62] ∧
      ∀ b ∈ (lineAndRest.apply readAll).server.pending, isEom b = false := by
  have hsize : 0 < ({ maxMsgSize := 9 } : TextServerOptions).maxMsgSize := by decide
  have hs : NoEmptyLine [0x61, 0x0a, 0x62] := by
    rintro line t b rest heq ⟨ht, hb⟩
    rcases line with _ | ⟨x, _ | ⟨y, line⟩⟩ <;> simp at heq
    · obtain ⟨rfl, -⟩ := heq
      exact absurd ht (by decide)
    · obtain ⟨-, -, rfl, -⟩ := heq
      exact absurd hb (by decide)
    · have hl := congrArg List.length heq.2.2
      simp only [length_append, length_cons, length_nil] at hl
      omega
  exact ⟨by decide, no_line_stalled hsize hs (.init rfl) readAll_working (by decide) (by decide)⟩

/-- An empty line follows a line: it is complete, but the caller waits for input. -/
theorem empty_line_stalled : let s := start { maxMsgSize := 9 } [0x61, 0x0a, 0x0a]
    (system { maxMsgSize := 9 } [0x61, 0x0a, 0x0a]).Reachable s ∧ readAll.Working ∧
      (s.fetched readAll).msg = some [0x61] ∧ (s.apply readAll).server.prepare = false ∧
      (s.apply readAll).server.pending = [0x0a] ∧ isEom 0x0a = true :=
  ⟨.init rfl, readAll_working, by decide, by decide, by decide, by decide⟩

end LineReading
end SyslogNg.LogProto
