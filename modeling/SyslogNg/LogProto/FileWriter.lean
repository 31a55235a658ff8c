import SyslogNg.LogProto.TextClient

/-!
# The file writer

`log_proto_file_writer_*` in `modules/basic-proto/basic-proto.c`. Messages are collected and
written with one `writev`. What a short `writev` leaves is copied to one partial buffer, and that
is written before another message is taken.
-/
namespace SyslogNg.LogProto

open List

def gint (n : ℤ) : ℤ := Int.bmod n (2 ^ 32)

structure FileWriter where
  bufSize : ℕ
  /-- The first `buf_count` chunks. -/
  buffer : List Bytes := []
  sumLen : ℤ := 0
  partialBuf : Option Bytes := none
  partialLen : ℕ := 0
  partialPos : ℕ := 0
  file : Bytes := []
  acked : ℕ := 0
  deriving DecidableEq

def iovMax : ℕ := 1024

def FileWriter.new (flushLines : ℕ) : FileWriter :=
  { bufSize := min (if flushLines = 0 then 1 else flushLines) iovMax }

/-- What is left after `rc` bytes: the loop looks for the chunk that was cut, with the length of
the chunks before it, and the rest of it is copied with the chunks that follow. -/
def cutChunks (rc : ℕ) : ℕ → List Bytes → Bytes
  | _, [] => []
  | before, chunk :: rest =>
    let sum := before + chunk.length
    if rc > sum then cutChunks rc sum rest
    else chunk.drop (chunk.length - (sum - rc)) ++ rest.flatten

namespace FileWriter

variable (w : FileWriter)

def flush (result : WriteResult) : FileWriter × Status :=
  if w.buffer = [] then (w, .success)
  else
    match result with
    | .error errno =>
      if errno ≠ .intr then ({ w with buffer := w.buffer.dropLast }, .error) else (w, .success)
    | .wrote n =>
      let rc := min n w.buffer.flatten.length
      let written :=
        { w with file := w.file ++ w.buffer.flatten.take rc, buffer := [], sumLen := 0 }
      if gint rc ≠ w.sumLen then
        let rest := cutChunks rc 0 w.buffer
        -- g_malloc(0) is NULL
        ({ written with
            partialBuf := if rest = [] then none else some rest
            partialLen := rest.length
            partialPos := 0 }, .success)
      else (written, .success)

/-- The partial buffer is written, and no message is taken. -/
def writePartial (data : Bytes) (result : WriteResult) : FileWriter × Status :=
  match result with
  | .error errno => (w, if errno = .other then .error else .success)
  | .wrote n =>
    let len := gint (w.partialLen - w.partialPos)
    let rc := min n len.toNat
    let written := { w with file := w.file ++ (data.drop w.partialPos).take rc }
    if rc ≠ len then ({ written with partialPos := w.partialPos + rc }, .success)
    else ({ written with partialBuf := none }, .success)

/-- The new message is registered, and the buffer is written once it is full. -/
def register (msg : Bytes) (result : WriteResult) : FileWriter × Status × Bool :=
  let w := { w with buffer := w.buffer ++ [msg], sumLen := gint (w.sumLen + msg.length) }
  let flushed := if w.buffer.length = w.bufSize then w.flush result else (w, .success)
  ({ flushed.1 with acked := flushed.1.acked + 1 }, flushed.2, decide (flushed.2 = .success))

/-- `log_proto_file_writer_post`: the writer, the status and whether the message was consumed. The
results are those of the `writev` of a full buffer, of the write of the partial buffer, and of the
`writev` with the new message. -/
def post (msg : Bytes) (first written last : WriteResult) : FileWriter × Status × Bool :=
  let flushed := if w.buffer.length ≥ w.bufSize then w.flush first else (w, .success)
  if w.buffer.length ≥ w.bufSize ∧
      (flushed.2 ≠ .success ∨ flushed.1.buffer.length ≥ flushed.1.bufSize) then
    (flushed.1, flushed.2, false)
  else
    match flushed.1.partialBuf with
    | some data =>
      let next := flushed.1.writePartial data written
      (next.1, next.2, false)
    | none => flushed.1.register msg last

end FileWriter

/-! ### What is in the file -/

theorem cutChunks_eq {rc before : ℕ} {chunks : List Bytes} (hb : before ≤ rc)
    (hrc : rc ≤ before + chunks.flatten.length) :
    cutChunks rc before chunks = chunks.flatten.drop (rc - before) := by
  -- The bytes before the current chunk are always written.
  induction chunks generalizing before with
  | nil => simp [cutChunks]
  | cons chunk rest ih =>
    rw [flatten_cons] at hrc ⊢
    rw [length_append] at hrc
    unfold cutChunks
    by_cases hn : rc > before + chunk.length
    · have hc : chunk.drop (rc - before) = [] := drop_eq_nil_of_le (by omega)
      rw [if_pos hn, ih hn.le (by omega), drop_append, hc, nil_append, Nat.sub_sub]
    · rw [if_neg hn, drop_append_of_le_length (by omega)]
      congr 2
      omega

/-- No error, except `EINTR`. -/
def WriteResult.NoError : WriteResult → Prop
  | wrote _ => True
  | error errno => errno = .intr

namespace FileWriter

variable {w : FileWriter}

def unwritten (w : FileWriter) : Bytes :=
  match w.partialBuf with
  | none => []
  | some data => data.drop w.partialPos

/-- What is in the file, what is left in the partial buffer and what is collected. -/
def bytes (w : FileWriter) : Bytes := w.file ++ w.unwritten ++ w.buffer.flatten

/-- The lengths are right and fit into a `gint`, and messages are collected only while there is no
partial buffer. -/
structure Sized (w : FileWriter) : Prop where
  sumLen : w.sumLen = w.buffer.flatten.length
  buffer_lt : w.buffer.flatten.length < 2 ^ 31
  partialLen : ∀ {data}, w.partialBuf = some data → w.partialLen = data.length
  pos_le : ∀ {data}, w.partialBuf = some data → w.partialPos ≤ data.length
  partial_lt : ∀ {data}, w.partialBuf = some data → data.length < 2 ^ 31
  alone : w.partialBuf.isSome → w.buffer = []

theorem gint_of_lt {n : ℕ} (h : n < 2 ^ 31) : gint n = n := by
  unfold gint
  rw [Int.bmod_eq_of_le] <;> omega

theorem Sized.of_none (hn : w.partialBuf = none) (hs : w.sumLen = w.buffer.flatten.length)
    (hlt : w.buffer.flatten.length < 2 ^ 31) : w.Sized := by
  refine ⟨hs, hlt, ?_, ?_, ?_, ?_⟩ <;> simp [hn]

theorem Sized.partialBuf_of_ne (h : w.Sized) (hne : w.buffer ≠ []) : w.partialBuf = none := by
  by_contra hsome
  exact hne (h.alone (Option.isSome_iff_ne_none.mpr hsome))

theorem flush_intact (h : w.Sized) {result : WriteResult} (hr : result.NoError) :
    (w.flush result).2 = .success ∧ (w.flush result).1.Sized ∧
      (w.flush result).1.bytes = w.bytes ∧ (w.flush result).1.acked = w.acked := by
  unfold flush
  by_cases he : w.buffer = []
  · rw [if_pos he]
    exact ⟨rfl, h, rfl, rfl⟩
  rw [if_neg he]
  have hn := h.partialBuf_of_ne he
  cases result with
  | error errno =>
    cases hr
    exact ⟨rfl, h, rfl, rfl⟩
  | wrote n =>
    dsimp only
    have hrc := Nat.min_le_right n w.buffer.flatten.length
    generalize min n w.buffer.flatten.length = rc at hrc
    rw [h.sumLen, gint_of_lt (hrc.trans_lt h.buffer_lt), cutChunks_eq (Nat.zero_le _) (by omega),
      Nat.sub_zero]
    by_cases hc : rc = w.buffer.flatten.length
    · rw [if_neg (not_not.mpr (congrArg Nat.cast hc))]
      refine ⟨rfl, .of_none hn rfl (Nat.two_pow_pos 31), ?_, rfl⟩
      simp only [bytes, unwritten, hn]
      rw [hc]
      simp
    · rw [if_pos (mt Nat.cast_injective.eq_iff.mp hc)]
      have hrs : w.buffer.flatten.drop rc ≠ [] := by
        rw [Ne, drop_eq_nil_iff]
        omega
      rw [if_neg hrs]
      refine ⟨rfl, ⟨rfl, Nat.two_pow_pos 31, ?_, ?_, ?_, fun _ => rfl⟩, ?_, rfl⟩
      · rintro data ⟨⟩
        rfl
      · rintro data ⟨⟩
        exact Nat.zero_le _
      · rintro data ⟨⟩
        rw [length_drop]
        exact (Nat.sub_le _ _).trans_lt h.buffer_lt
      · simp only [bytes, unwritten, hn, drop_zero, flatten_nil, append_nil]
        rw [append_assoc, take_append_drop]

theorem writePartial_intact (h : w.Sized) {data : Bytes} (hd : w.partialBuf = some data)
    (result : WriteResult) :
    (w.writePartial data result).1.Sized ∧ (w.writePartial data result).1.bytes = w.bytes ∧
      (w.writePartial data result).1.acked = w.acked := by
  unfold writePartial
  cases result with
  | error errno => exact ⟨h, rfl, rfl⟩
  | wrote n =>
    have hp := h.pos_le hd
    have hlt := h.partial_lt hd
    have hl : gint (w.partialLen - w.partialPos) = ((data.length - w.partialPos : ℕ) : ℤ) := by
      rw [h.partialLen hd, ← Nat.cast_sub hp, gint_of_lt (by omega)]
    dsimp only
    rw [hl, Int.toNat_natCast]
    by_cases hc : n < data.length - w.partialPos
    · rw [Nat.min_eq_left hc.le, if_pos (by omega)]
      refine ⟨{ h with pos_le := ?_ }, ?_, rfl⟩
      · intro data' hd'
        cases hd.symm.trans hd'
        change w.partialPos + n ≤ data.length
        omega
      · simp only [bytes, unwritten, hd]
        rw [append_assoc w.file, ← drop_drop, take_append_drop]
    · rw [Nat.min_eq_right (by omega), if_neg (by simp), take_of_length_le (by simp)]
      refine ⟨.of_none rfl h.sumLen h.buffer_lt, ?_, rfl⟩
      simp only [bytes, unwritten, hd, append_nil]

/-- Messages are taken as long as their bytes fit. -/
theorem register_intact (h : w.Sized) (hn : w.partialBuf = none) {msg : Bytes}
    (hft : w.buffer.flatten.length + msg.length < 2 ^ 31) {result : WriteResult}
    (hr : result.NoError) : (w.register msg result).2.2 = true ∧
      (w.register msg result).1.Sized ∧ (w.register msg result).1.bytes = w.bytes ++ msg ∧
      (w.register msg result).1.acked = w.acked + 1 := by
  let taken : FileWriter :=
    { w with buffer := w.buffer ++ [msg], sumLen := gint (w.sumLen + msg.length) }
  have hf : taken.buffer.flatten = w.buffer.flatten ++ msg := by simp [taken]
  have hb : taken.bytes = w.bytes ++ msg := by
    change w.file ++ w.unwritten ++ taken.buffer.flatten = _
    rw [hf, ← append_assoc]
    rfl
  have ht : taken.Sized := by
    have hn' : taken.partialBuf = none := hn
    apply Sized.of_none hn'
    · change gint (w.sumLen + msg.length) = _
      rw [hf, length_append, h.sumLen, ← Nat.cast_add, gint_of_lt hft]
    · rw [hf, length_append]
      exact hft
  unfold register
  dsimp only
  split
  · obtain ⟨hs, hsz, hsm, ha⟩ := flush_intact ht hr
    refine ⟨decide_eq_true hs, { hsz with }, hsm.trans hb, congrArg (· + 1) ha⟩
  · exact ⟨rfl, { ht with }, hb, rfl⟩

theorem flush_buffer_sublist (w : FileWriter) (result : WriteResult) :
    (w.flush result).1.buffer.Sublist w.buffer := by
  unfold flush
  split
  · exact List.Sublist.refl _
  · cases result with
    | error errno =>
      dsimp only
      split
      · exact dropLast_sublist _
      · exact List.Sublist.refl _
    | wrote n =>
      dsimp only
      split <;> exact nil_sublist _

/-- What a post adds to the bytes. -/
theorem post_intact (h : w.Sized) {msg : Bytes}
    (hft : w.buffer.flatten.length + msg.length < 2 ^ 31) {first last : WriteResult}
    (hfr : first.NoError) (hl : last.NoError) (written : WriteResult) :
    (w.post msg first written last).1.Sized ∧ (w.post msg first written last).1.bytes =
        w.bytes ++ (if (w.post msg first written last).2.2 then msg else []) ∧
      (w.post msg first written last).1.acked =
        w.acked + (if (w.post msg first written last).2.2 then 1 else 0) := by
  obtain ⟨f, hf, hs, hb, ha, hln⟩ :
      ∃ f : FileWriter × Status,
        (if w.buffer.length ≥ w.bufSize then w.flush first else (w, .success)) = f ∧
        f.1.Sized ∧ f.1.bytes = w.bytes ∧ f.1.acked = w.acked ∧
        f.1.buffer.flatten.length ≤ w.buffer.flatten.length := by
    refine ⟨_, rfl, ?_⟩
    split
    · obtain ⟨-, hs, hb, ha⟩ := flush_intact h hfr
      exact ⟨hs, hb, ha, (w.flush_buffer_sublist first).flatten.length_le⟩
    · exact ⟨h, rfl, rfl, le_rfl⟩
  unfold post
  dsimp only
  rw [hf]
  split
  · exact ⟨hs, by simpa using hb, by simpa using ha⟩
  · cases hd : f.1.partialBuf with
    | some data =>
      obtain ⟨hs', hb', ha'⟩ := writePartial_intact hs hd written
      refine ⟨hs', ?_, ?_⟩
      · simpa using hb'.trans hb
      · simpa using ha'.trans ha
    | none =>
      have hft' : f.1.buffer.flatten.length + msg.length < 2 ^ 31 := by omega
      obtain ⟨hc, hs', hb', ha'⟩ :=
        register_intact hs hd hft' hl
      refine ⟨hs', ?_, ?_⟩
      · rw [hb', hc, if_pos rfl, hb]
      · rw [ha', hc, if_pos rfl, ha]

end FileWriter

/-! ### Every run -/

/-- A writer with the messages that it reported as consumed. -/
structure FileSession where
  writer : FileWriter
  consumed : List Bytes := []
  deriving DecidableEq

inductive FileOp
  | post (msg : Bytes) (first written last : WriteResult)
  | flush (result : WriteResult)

def FileSession.apply (s : FileSession) : FileOp → FileSession
  | .post msg first written last =>
    let posted := s.writer.post msg first written last
    ⟨posted.1, s.consumed ++ if posted.2.2 then [msg] else []⟩
  | .flush result => { s with writer := (s.writer.flush result).1 }

def fileSystem : System FileSession FileOp where
  init s := ∃ flushLines, s = ⟨.new flushLines, []⟩
  step s op s' := s' = s.apply op

/-- No `writev` fails except with `EINTR`, and less than 2 GiB are collected. -/
def Undisturbed (s : FileSession) : FileOp → Prop
  | .post msg first _ last =>
    first.NoError ∧ last.NoError ∧ s.writer.buffer.flatten.length + msg.length < 2 ^ 31
  | .flush result => result.NoError

/-- The file, the partial buffer and the collected messages are the consumed messages in their
order, and these are acknowledged. -/
structure FileSession.Complete (s : FileSession) : Prop where
  content : s.writer.bytes = s.consumed.flatten
  acked : s.writer.acked = s.consumed.length

theorem FileSession.apply_complete {s : FileSession} (hs : s.writer.Sized) (h : s.Complete)
    {op : FileOp} (hok : Undisturbed s op) : (s.apply op).writer.Sized ∧ (s.apply op).Complete := by
  cases op with
  | flush result =>
    obtain ⟨-, hs', hb, ha⟩ := FileWriter.flush_intact hs hok
    exact ⟨hs', hb.trans h.content, ha.trans h.acked⟩
  | post msg first written last =>
    obtain ⟨hf, hl, hft⟩ := hok
    obtain ⟨hs', hb, ha⟩ := FileWriter.post_intact hs hft hf hl written
    refine ⟨hs', ?_, ?_⟩
    · refine hb.trans ?_
      rw [h.content]
      change _ = (s.consumed ++ _).flatten
      split <;> simp
    · refine ha.trans ?_
      rw [h.acked]
      change _ = (s.consumed ++ _).length
      split <;> simp

/-- In every run in which no `writev` fails except with `EINTR` and less than 2 GiB are collected:
the file, the partial buffer and the collected messages are the consumed messages. -/
theorem file_complete {s : FileSession} (h : (fileSystem.restrict Undisturbed).Reachable s) :
    s.Complete := by
  have hb : s.writer.Sized ∧ s.Complete := by
    apply h.invariant
    · rintro s ⟨flushLines, rfl⟩
      exact ⟨.of_none rfl rfl (Nat.two_pow_pos 31), rfl, rfl⟩
    · rintro s op s' ⟨hs, hc⟩ ⟨hok, rfl⟩
      exact FileSession.apply_complete hs hc hok
  exact hb.2

def shortWritev : FileSession :=
  [FileOp.post [1, 2] (.wrote 0) (.wrote 0) (.wrote 0),
    .post [3, 4] (.wrote 0) (.wrote 0) (.wrote 3)].foldl FileSession.apply ⟨.new 2, []⟩

theorem file_complete_shortWritev :
    shortWritev.writer.file = [1, 2, 3] ∧ shortWritev.writer.unwritten = [4] ∧
      shortWritev.Complete := by
  have ha : Along FileSession.apply Undisturbed ⟨.new 2, []⟩
      [.post [1, 2] (.wrote 0) (.wrote 0) (.wrote 0),
        .post [3, 4] (.wrote 0) (.wrote 0) (.wrote 3)] :=
    ⟨⟨trivial, trivial, by decide⟩, ⟨trivial, trivial, by decide⟩, trivial⟩
  exact ⟨by decide, by decide, file_complete
    (ha.reachable (fun _ _ => rfl) (.init ⟨2, rfl⟩))⟩

/-- A flush whose `writev` fails drops a consumed message, and a post whose `writev` fails
acknowledges a message that it does not consume. -/
theorem failed_writev_incomplete :
    let lost := [FileOp.post [1] (.wrote 0) (.wrote 0) (.wrote 0), .flush (.error .other)].foldl
      FileSession.apply ⟨.new 2, []⟩
    let twice := [FileOp.post [1] (.wrote 0) (.wrote 0) (.error .other)].foldl
      FileSession.apply ⟨.new 1, []⟩
    (fileSystem.Reachable lost ∧ lost.consumed = [[1]] ∧ lost.writer.bytes = []) ∧
      (fileSystem.Reachable twice ∧ twice.consumed = [] ∧ twice.writer.acked = 1) := by
  intro lost twice
  have hr : ∀ {flushLines ops}, fileSystem.Reachable
      (List.foldl FileSession.apply ⟨.new flushLines, []⟩ ops) := fun {flushLines ops} =>
    System.Reachable.trans_run (.init ⟨flushLines, rfl⟩) (.of_foldl (fun _ _ => rfl) _ ops)
  exact ⟨⟨hr, by decide, by decide⟩, ⟨hr, by decide, by decide⟩⟩

end SyslogNg.LogProto
