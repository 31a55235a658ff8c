import SyslogNg.LogProto.TextServer

/-!
# The lines of a stream

However the stream is cut into reads, the server returns its lines: up to a NL or NUL, in pieces of
`max_msg_size` bytes if there is none, and the rest at the end of the stream.
-/
namespace SyslogNg.LogProto

open Framing List

/-! ### The format -/

/-- A line with the byte that ends it, or as many bytes as a message can have. -/
inductive IsLine (maxMsgSize : ℕ) : Bytes → Bytes → Prop
  | line {line t} (hline : ∀ b ∈ line, isEom b = false) (ht : isEom t = true)
      (hlen : line.length < maxMsgSize) :
      IsLine maxMsgSize (line ++ [t]) (line.rdropWhile isLineEnd)
  | piece {f} (hf : ∀ b ∈ f, isEom b = false) (hlen : f.length = maxMsgSize) : IsLine maxMsgSize f f

variable {maxMsgSize : ℕ}

theorem findIdx?_line {line c : Bytes} {t : UInt8} (hl : ∀ b ∈ line, isEom b = false)
    (ht : isEom t = true) : (line ++ t :: c).findIdx? isEom = some line.length := by
  rw [List.findIdx?_append, List.findIdx?_eq_none_iff.mpr hl, List.findIdx?_cons, if_pos ht]
  simp

variable {bytes : Bytes}

theorem split_of_findIdx? {i : ℕ} (h : bytes.findIdx? isEom = some i) :
    ∃ t, bytes = bytes.take i ++ t :: bytes.drop (i + 1) ∧ (∀ b ∈ bytes.take i, isEom b = false) ∧
      isEom t = true ∧ (bytes.take i).length = i := by
  obtain ⟨hi, ht, hbf⟩ := List.findIdx?_eq_some_iff_getElem.mp h
  refine ⟨bytes[i], ?_, ?_, ht, length_take_of_le hi.le⟩
  · rw [← drop_eq_getElem_cons hi, take_append_drop]
  · intro b hb
    obtain ⟨j, hj, rfl⟩ := mem_take_iff_getElem.mp hb
    simpa using hbf j (by omega)

theorem isLine_prefixFree : PrefixFree (IsLine maxMsgSize) := by
  have hm : ∀ {line f c c' : Bytes} {t : UInt8}, isEom t = true → line.length < maxMsgSize →
      (∀ b ∈ f, isEom b = false) → f.length = maxMsgSize → line ++ [t] ++ c = f ++ c' → False := by
    intro line f c c' t ht hlt hf hln heq
    have hmm : t ∈ f := by
      have hp : line ++ [t] <+: f :=
        prefix_of_prefix_length_le ⟨c, heq⟩ (prefix_append f c') (by simp; omega)
      exact hp.subset (by simp)
    rw [hf t hmm] at ht
    cases ht
  intro f m f' m' c c' h h' heq
  cases h with
  | line hl ht hln =>
    cases h' with
    | line hl' ht' hln' =>
      rw [append_assoc, append_assoc, singleton_append, singleton_append] at heq
      have hi := congrArg (List.findIdx? isEom) heq
      rw [findIdx?_line hl ht, findIdx?_line hl' ht'] at hi
      obtain ⟨rfl, htl⟩ := append_inj heq (Option.some.inj hi)
      rw [head_eq_of_cons_eq htl]
      exact ⟨rfl, rfl⟩
    | piece hf' hln' => exact absurd heq (hm ht hln hf' hln')
  | piece hf hln =>
    cases h' with
    | line hl' ht' hln' => exact absurd heq.symm (hm ht' hln' hf hln)
    | piece hf' hln' =>
      obtain ⟨rfl, -⟩ := append_inj heq (hln.trans hln'.symm)
      exact ⟨rfl, rfl⟩

theorem isLine_ne_nil (hsize : 0 < maxMsgSize) {f m : Bytes} (h : IsLine maxMsgSize f m) :
    f ≠ [] := by
  cases h with
  | line => simp
  | piece _ hl =>
    rintro rfl
    exact hsize.ne hl

theorem isLine_of_findIdx? {i : ℕ} (h : bytes.findIdx? isEom = some i) (hi : i < maxMsgSize) :
    IsLine maxMsgSize (bytes.take (i + 1)) ((bytes.take i).rdropWhile isLineEnd) := by
  obtain ⟨t, hs, hl, ht, hln⟩ := split_of_findIdx? h
  have htk : bytes.take (i + 1) = bytes.take i ++ [t] := by
    conv_lhs => rw [hs]
    rw [take_append]
    simp [hln]
  rw [htk]
  exact .line hl ht (hln.trans_lt hi)

/-- Fewer bytes than a message can have, and no NL or NUL. -/
theorem not_startsFrame_isLine (h : bytes.findIdx? isEom = none)
    (hl : bytes.length < maxMsgSize) : ¬StartsFrame (IsLine maxMsgSize) bytes := by
  rintro ⟨f, m, hf, c, rfl⟩
  cases hf with
  | line _ ht =>
    rename_i line t _ _
    have hm := List.findIdx?_eq_none_iff.mp h t (by simp)
    rw [ht] at hm
    cases hm
  | piece _ hl' =>
    rw [length_append] at hl
    omega

theorem startsFrame_of_length (hl : maxMsgSize ≤ bytes.length) :
    StartsFrame (IsLine maxMsgSize) bytes := by
  cases hid : (bytes.take maxMsgSize).findIdx? isEom with
  | some i =>
    have hi : i < maxMsgSize := by
      obtain ⟨hi, -⟩ := List.findIdx?_eq_some_iff_getElem.mp hid
      exact hi.trans_le (length_take_le _ _)
    have hl := take_prefix maxMsgSize bytes
    exact ⟨_, _, isLine_of_findIdx? hid hi, .trans ⟨_, take_append_drop _ _⟩ hl⟩
  | none =>
    exact ⟨_, _, .piece (List.findIdx?_eq_none_iff.mp hid) (length_take_of_le hl),
      take_prefix _ _⟩

/-! ### The steps of the server -/

namespace TextServer

variable {s : TextServer} {read : ℕ}

/-- The positions, that the stored end of the next line is right, and, if positions are tracked,
where the buffer is in the stream of which `read` bytes were read. -/
structure Ready (s : TextServer) (read : ℕ) : Prop where
  size : s.bufferSize = s.maxMsgSize
  pos_le : s.pos ≤ s.buffer.length
  end_le : s.buffer.length ≤ s.bufferSize
  eol : s.bufferCachedEol ≠ 0 →
    s.pos < s.bufferCachedEol ∧ s.pending.findIdx? isEom = some (s.bufferCachedEol - s.pos)
  tracked : s.options.posTracking = true → s.position.rawBufferSize = s.buffer.length ∧
    s.position.rawStreamPos + s.buffer.length = read

/-- What fetches do not change, apart from the status. -/
structure SameServer (s s' : TextServer) : Prop where
  options : s'.options = s.options
  saved : s'.saved = s.saved
  fileInode : s'.fileInode = s.fileInode
  fileSize : s'.fileSize = s.fileSize

theorem SameServer.refl {s : TextServer} : SameServer s s := ⟨rfl, rfl, rfl, rfl⟩

theorem SameServer.trans {s s' s'' : TextServer} (h : SameServer s s') (h' : SameServer s' s'') :
    SameServer s s'' :=
  ⟨h'.1.trans h.1, h'.2.trans h.2, h'.3.trans h.3, h'.4.trans h.4⟩

theorem SameServer.maxMsgSize_eq {s s' : TextServer} (h : SameServer s s') :
    s'.maxMsgSize = s.maxMsgSize :=
  congrArg TextServerOptions.maxMsgSize h.options

theorem length_pending (s : TextServer) : s.pending.length = s.buffer.length - s.pos :=
  length_drop

theorem findEol_eq (s : TextServer) (pos : ℕ) :
    s.findEol pos = ((s.buffer.drop pos).findIdx? isEom).map (· + pos) := by
  unfold findEol
  rw [findEom_eq]

theorem splitBuffer_pos (s : TextServer) : s.splitBuffer.pos = 0 := by
  unfold splitBuffer
  split <;> rfl

theorem splitBuffer_pending (s : TextServer) : s.splitBuffer.pending = s.pending := by
  rw [pending, splitBuffer_pos]
  rfl

theorem clear_pos (s : TextServer) : s.clear.pos = 0 := by
  unfold clear
  split <;> rfl

theorem clear_pending (s : TextServer) : s.clear.pending = [] := drop_nil

/-- What is taken from a buffer that is not empty: a line, or the line is moved to the front. -/
inductive TakeStep (s : TextServer) (read : ℕ) : TextServer × Option Bytes → Prop
  | line {next f msg} (hline : IsLine s.maxMsgSize f msg) (hpending : s.pending = f ++ next.pending)
      (hready : next.Ready read) (hsame : SameServer s next) (hstatus : next.status = s.status)
      (hstall : next.bufferCachedEol = 0 → (∀ b ∈ next.pending, isEom b = false) ∨
        ∃ line t b rest, s.pending = line ++ t :: b :: rest ∧ isEom t = true ∧ isEom b = true) :
      TakeStep s read (next, some msg)
  | waiting {next} (hpending : next.pending = s.pending) (hpos : next.pos = 0)
      (hstarts : ¬StartsFrame (IsLine s.maxMsgSize) s.pending) (hready : next.Ready read)
      (hsame : SameServer s next) (hstatus : next.status = s.status) : TakeStep s read (next, none)

/-- The end of the next line that is stored: none if the next line is empty. -/
def nextEol (s : TextServer) (pos : ℕ) : ℕ :=
  match (s.buffer.drop pos).findIdx? isEom with
  | some i => if 0 < i then i + pos else 0
  | none => 0

theorem takeLine_eq (hz : s.bufferCachedEol = 0) (eol : ℕ) :
    s.takeLine eol = ({ s.moveTo (eol + 1) with bufferCachedEol := s.nextEol (eol + 1) },
      (s.pending.take (eol - s.pos)).rdropWhile isLineEnd) := by
  have hf : (s.moveTo (eol + 1)).findEol (s.moveTo (eol + 1)).pos =
      ((s.buffer.drop (eol + 1)).findIdx? isEom).map (· + (eol + 1)) := findEol_eq _ _
  unfold takeLine nextEol
  dsimp only
  rw [hf]
  cases hid : (s.buffer.drop (eol + 1)).findIdx? isEom with
  | none =>
    split
    · rfl
    · have hs : s.moveTo (eol + 1) = { s.moveTo (eol + 1) with bufferCachedEol := 0 } := by
        rw [← hz]
        rfl
      rw [← hs]
  | some i =>
    have hlt : eol + 1 < s.buffer.length := by
      obtain ⟨hi, -⟩ := List.findIdx?_eq_some_iff_getElem.mp hid
      rw [length_drop] at hi
      omega
    have hm : (s.moveTo (eol + 1)).buffer.length ≠ (s.moveTo (eol + 1)).pos := hlt.ne'
    rw [if_pos hm]
    simp only [Option.map_some]
    have hif : i + (eol + 1) > (s.moveTo (eol + 1)).pos ↔ 0 < i := by
      change i + (eol + 1) > eol + 1 ↔ 0 < i
      omega
    by_cases hi : 0 < i
    · rw [if_pos (hif.mpr hi), if_pos hi]
    · rw [if_neg (mt hif.mp hi), if_neg hi]

section

variable (h : s.Ready read)
include h

theorem takeLine_step (hz : s.bufferCachedEol = 0) {eol i : ℕ}
    (he : eol = i + s.pos) (hid : s.pending.findIdx? isEom = some i) :
    TakeStep s read ((s.takeLine eol).1, some (s.takeLine eol).2) := by
  obtain ⟨t, hs, -, ht, -⟩ := split_of_findIdx? hid
  have hen := h.end_le
  have hsize := h.size
  have hp := s.length_pending
  have hi : i < s.pending.length := by
    obtain ⟨hi, -⟩ := List.findIdx?_eq_some_iff_getElem.mp hid
    exact hi
  have hd : s.pending.drop (i + 1) = s.buffer.drop (eol + 1) := by
    rw [pending, drop_drop]
    congr 1
    omega
  have hf : IsLine s.maxMsgSize (s.pending.take (i + 1))
      ((s.pending.take (eol - s.pos)).rdropWhile isLineEnd) := by
    rw [he, Nat.add_sub_cancel]
    exact isLine_of_findIdx? hid (by omega)
  rw [takeLine_eq hz]
  refine .line hf ?_ ⟨hsize, ?_, hen, ?_, h.tracked⟩ ⟨rfl, rfl, rfl, rfl⟩ rfl ?_
  · change s.pending = _ ++ s.buffer.drop (eol + 1)
    rw [← hd, take_append_drop]
  · change eol + 1 ≤ s.buffer.length
    omega
  · change s.nextEol (eol + 1) ≠ 0 → eol + 1 < s.nextEol (eol + 1) ∧
      (s.buffer.drop (eol + 1)).findIdx? isEom = some (s.nextEol (eol + 1) - (eol + 1))
    unfold nextEol
    cases (s.buffer.drop (eol + 1)).findIdx? isEom with
    | none => exact fun hne => absurd rfl hne
    | some j =>
      dsimp only
      split
      · exact fun _ => ⟨by omega, by rw [Nat.add_sub_cancel]⟩
      · exact fun hne => absurd rfl hne
  · -- Nothing is stored if there is no end of a line, or if the next byte is one.
    unfold nextEol
    cases hn : (s.buffer.drop (eol + 1)).findIdx? isEom with
    | none => exact fun _ => .inl (List.findIdx?_eq_none_iff.mp hn)
    | some j =>
      dsimp only
      split
      · intro hne
        omega
      case isFalse hj =>
        obtain rfl : j = 0 := by omega
        obtain ⟨b, hb, -, hbm, -⟩ := split_of_findIdx? hn
        refine fun _ => .inr ⟨s.pending.take i, t, b, (s.buffer.drop (eol + 1)).drop (0 + 1), ?_,
          ht, hbm⟩
        rw [take_zero, nil_append] at hb
        rw [← hb, ← hd]
        exact hs

/-- The stored end is the one that would be found. -/
theorem Ready.eol_eq : (if s.bufferCachedEol ≠ 0 then some s.bufferCachedEol else s.findEol s.pos) =
      (s.pending.findIdx? isEom).map (· + s.pos) := by
  split
  case isTrue hne =>
    obtain ⟨hlt, hi⟩ := h.eol hne
    rw [hi, Option.map_some, Nat.sub_add_cancel hlt.le]
  case isFalse => exact s.findEol_eq s.pos

theorem Ready.splitBuffer (hz : s.bufferCachedEol = 0) : s.splitBuffer.Ready read := by
  have he := h.end_le
  have hpl := s.length_pending
  refine ⟨h.size, ?_, ?_, fun hne => absurd hz hne, fun ht => ?_⟩
  · rw [s.splitBuffer_pos]
    exact Nat.zero_le _
  · change s.pending.length ≤ s.bufferSize
    omega
  · obtain ⟨hrw, hr⟩ := h.tracked ht
    have hp : s.splitBuffer.position =
        ⟨0, s.position.rawStreamPos + (s.position.rawBufferSize - s.pending.length),
          s.pending.length⟩ := if_pos ht
    rw [hp]
    refine ⟨rfl, ?_⟩
    change s.position.rawStreamPos + (s.position.rawBufferSize - s.pending.length) +
      s.pending.length = read
    omega

theorem Ready.clear (hz : s.bufferCachedEol = 0) : s.clear.Ready read := by
  refine ⟨h.size, ?_, Nat.zero_le _, fun hne => absurd hz hne, fun ht => ?_⟩
  · rw [s.clear_pos]
    exact Nat.zero_le _
  · obtain ⟨hrw, hr⟩ := h.tracked ht
    have hp : s.clear.position =
        ⟨0, s.position.rawStreamPos + s.position.rawBufferSize, 0⟩ := if_pos ht
    rw [hp]
    refine ⟨rfl, ?_⟩
    change s.position.rawStreamPos + s.position.rawBufferSize + 0 = read
    omega

theorem Ready.eol_of_empty (he : s.pending = []) : s.bufferCachedEol = 0 := by
  by_contra hne
  obtain ⟨-, hi⟩ := h.eol hne
  rw [he] at hi
  cases hi

theorem takeMessage_step : TakeStep s read s.takeMessage := by
  let s₀ : TextServer := { s with bufferCachedEol := 0 }
  have h₀ : s₀.Ready read := ⟨h.size, h.pos_le, h.end_le, fun hne => absurd rfl hne, h.tracked⟩
  have hpl := s.length_pending
  unfold takeMessage
  rw [h.eol_eq]
  cases hi : s.pending.findIdx? isEom with
  | some i =>
    have hsp := takeLine_step h₀ rfl rfl hi
    cases hsp with
    | line hl hp hr hsm hs hst =>
      exact .line hl hp hr { hsm with } hs hst
  | none =>
    simp only [Option.map_none]
    split
    case isTrue hf =>
      have hln : s.pending.length = s.maxMsgSize := by
        have he := h.end_le
        have hsize := h.size
        have hf' : s.maxMsgSize ≤ s.pending.length := hf
        omega
      have hn : (s₀.moveTo s.buffer.length).pending = [] := drop_length
      refine .line (.piece (List.findIdx?_eq_none_iff.mp hi) hln) ?_
        ⟨h.size, le_rfl, h.end_le, fun hne => absurd rfl hne, h.tracked⟩ ⟨rfl, rfl, rfl, rfl⟩ rfl ?_
      · change s.pending = s.pending ++ (s₀.moveTo s.buffer.length).pending
        rw [hn, append_nil]
      · rw [hn]
        exact fun _ => .inl (by simp)
    case isFalse hsh =>
      have hlt : s.pending.length < s.maxMsgSize := not_le.mp hsh
      refine .waiting s₀.splitBuffer_pending s₀.splitBuffer_pos (not_startsFrame_isLine hi hlt)
        (h₀.splitBuffer rfl) ⟨rfl, rfl, rfl, rfl⟩ rfl

theorem Ready.eol_of_waiting
    (hs : ¬StartsFrame (IsLine s.maxMsgSize) s.pending) : s.bufferCachedEol = 0 := by
  by_contra hne
  obtain ⟨-, hid⟩ := h.eol hne
  obtain ⟨hi, -⟩ := List.findIdx?_eq_some_iff_getElem.mp hid
  have he := h.end_le
  have hsize := h.size
  have hp := s.length_pending
  exact hs ⟨_, _, isLine_of_findIdx? hid (by omega), take_prefix _ _⟩

end

theorem fetchFromBuf_step (hsize : 0 < s.maxMsgSize) (h : s.Ready read) :
    TakeStep s read (s.fetchFromBuf false) := by
  unfold fetchFromBuf
  split
  case isTrue he =>
    have hn : s.pending = [] := length_eq_zero_iff.mp (s.length_pending.trans he)
    refine .waiting (s.clear_pending.trans hn.symm) s.clear_pos ?_
      (h.clear (h.eol_of_empty hn)) ⟨rfl, rfl, rfl, rfl⟩ rfl
    rw [hn]
    exact not_startsFrame_isLine rfl hsize
  case isFalse => exact takeMessage_step h

/-- What the rest of the stream is returned as. -/
theorem finish_spec (h : s.Ready read) (hz : s.bufferCachedEol = 0) (unread : Bytes)
    (status : Status) :
    (s.finish unread status).unread = unread ∧ (s.finish unread status).server.status = status ∧
      (s.finish unread status).server.pending = [] ∧
      (s.finish unread status).msg = (if s.pending = [] then none else some s.pending) ∧
      (s.finish unread status).status = (if s.pending = [] then status else .success) ∧
      (s.finish unread status).server.Ready read ∧
      SameServer s (s.finish unread status).server := by
  let ended : TextServer := { s with status := status }
  have hen : ended.Ready read := { h with }
  unfold finish fetchFromBuf
  by_cases he : s.buffer.length - s.pos = 0
  · have hn : s.pending = [] := length_eq_zero_iff.mp (s.length_pending.trans he)
    rw [if_pos he, if_pos hn, if_pos hn]
    exact ⟨rfl, rfl, ended.clear_pending, rfl, rfl, hen.clear hz, ⟨rfl, rfl, rfl, rfl⟩⟩
  · have hne : s.pending ≠ [] := by
      intro hn
      rw [← s.length_pending, hn] at he
      exact he rfl
    rw [if_neg he, if_neg hne, if_neg hne]
    exact ⟨rfl, rfl, drop_length, rfl, rfl,
      ⟨h.size, le_rfl, h.end_le, fun hc => absurd hz hc, h.tracked⟩, ⟨rfl, rfl, rfl, rfl⟩⟩

/-- What a fetch returns, for the bytes that are left with those that were read. -/
inductive ReadStep (s : TextServer) (left : Bytes) (read : ℕ) (f : Fetched TextServer) : Prop
  | line {frame msg} (hstatus : f.status = .success) (hmsg : f.msg = some msg)
      (hline : IsLine s.maxMsgSize frame msg) (hleft : left = frame ++ f.server.pending)
      (hready : f.server.Ready read) (hsame : SameServer s f.server)
      (hserver : f.server.status = .success)
      (hstall : f.server.bufferCachedEol = 0 → (∀ b ∈ f.server.pending, isEom b = false) ∨
        ∃ line t b rest, left = line ++ t :: b :: rest ∧ isEom t = true ∧ isEom b = true)
  | waiting (hstatus : f.status = .success) (hmsg : f.msg = none) (hleft : f.server.pending = left)
      (hstarts : ¬StartsFrame (IsLine s.maxMsgSize) left) (hready : f.server.Ready read)
      (hsame : SameServer s f.server) (hserver : f.server.status = .success)
  | finished (hunread : f.unread = []) (heof : s.options.ignoreEof = false)
      (hstarts : ¬StartsFrame (IsLine s.maxMsgSize) left) (hserver : f.server.status = .eof)
      (hpending : f.server.pending = []) (hmsg : f.msg = if left = [] then none else some left)
      (hstatus : f.status = if left = [] then .eof else .success) (hready : f.server.Ready read)
      (hsame : SameServer s f.server)

variable {f : Fetched TextServer} {reads : List ReadResult}

theorem ReadStep.of_same {s' : TextServer} {left : Bytes}
    (h : ReadStep s' left read f) (hs : SameServer s s') : ReadStep s left read f := by
  have hmx := hs.maxMsgSize_eq
  have he : s'.options.ignoreEof = s.options.ignoreEof :=
    congrArg TextServerOptions.ignoreEof hs.options
  cases h with
  | line hst hm hln hl hr hs' hserver hsl =>
    exact .line hst hm (hmx ▸ hln) hl hr (hs.trans hs') hserver hsl
  | waiting hst hm hl hss hr hs' hserver =>
    exact .waiting hst hm hl (hmx ▸ hss) hr (hs.trans hs') hserver
  | finished hu hn hss hserver hp hm hst hr hs' =>
    exact .finished hu (he ▸ hn) (hmx ▸ hss) hserver hp hm hst hr
      (hs.trans hs')

/-- While a line is not complete, there is room for a byte. -/
theorem Ready.room (h : s.Ready read) (hps : s.pos = 0)
    (hs : ¬StartsFrame (IsLine s.maxMsgSize) s.pending) : s.buffer.length < s.bufferSize := by
  have hlt : s.pending.length < s.maxMsgSize := not_le.mp (mt startsFrame_of_length hs)
  have hpl := s.length_pending
  have hm := h.size
  omega

theorem readLoop_step (hsize : 0 < s.maxMsgSize) (h : s.Ready read) (hps : s.pos = 0)
    (hs : ¬StartsFrame (IsLine s.maxMsgSize) s.pending) (hserver : s.status = .success)
    (unread : Bytes) (hre : ∀ r ∈ reads, r.Working) :
    ∃ data, unread = data ++ (readLoop s unread reads).unread ∧
      ReadStep s (s.pending ++ data) (read + data.length) (readLoop s unread reads) := by
  have hw : ReadStep s (s.pending ++ []) (read + ([] : Bytes).length)
      ⟨s, unread, .success, none⟩ := by
    rw [append_nil]
    exact .waiting rfl rfl rfl hs h .refl hserver
  induction reads generalizing s read unread with
  | nil => exact ⟨[], rfl, hw⟩
  | cons r reads ih =>
    cases r with
    | again => exact ⟨[], rfl, hw⟩
    | error => exact absurd (hre _ mem_cons_self) id
    | got n =>
      have hn : 0 < n := hre _ mem_cons_self
      have hz := h.eol_of_waiting hs
      have hrm := h.room hps hs
      unfold readLoop
      dsimp only
      split
      case isTrue hnn =>
        -- There was room for a byte, so the stream ends here.
        have hu : unread = [] := by
          rcases take_eq_nil_iff.mp hnn with hz | hnl
          · omega
          · exact hnl
        split
        · exact ⟨[], rfl, hw⟩
        case isFalse he =>
          obtain ⟨hrt, hst, hp, hms, hrs, hrd, hsm⟩ :=
            finish_spec h hz unread .eof
          refine ⟨[], hrt.symm, ?_⟩
          rw [append_nil]
          exact .finished (hrt.trans hu) (Bool.not_eq_true _ ▸ he) hs hst hp
            hms hrs hrd hsm
      case isFalse hso =>
        generalize hd : unread.take (min n (s.bufferSize - s.buffer.length)) = data
        have hsl : unread = data ++ unread.drop data.length := by
          rw [← hd]
          exact (prefix_iff_eq_append.mp ⟨_, take_append_drop _ _⟩).symm
        have hln : data.length ≤ s.bufferSize - s.buffer.length := by
          rw [← hd, length_take]
          omega
        set next : TextServer :=
          { s with
            buffer := s.buffer ++ data
            position := { s.position with
              rawBufferSize := s.position.rawBufferSize + data.length } }
        have hnx : next.pending = s.pending ++ data := drop_append_of_le_length h.pos_le
        have hrd : next.Ready (read + data.length) := by
          refine ⟨h.size, ?_, ?_, fun hne => absurd hz hne, fun ht => ?_⟩
          · rw [length_append]
            exact h.pos_le.trans (Nat.le_add_right _ _)
          · change (s.buffer ++ data).length ≤ s.bufferSize
            rw [length_append]
            omega
          · obtain ⟨hrw, hra⟩ := h.tracked ht
            change s.position.rawBufferSize + data.length = (s.buffer ++ data).length ∧
              s.position.rawStreamPos + (s.buffer ++ data).length = read + data.length
            rw [length_append]
            omega
        have hsp : TakeStep next (read + data.length) (next.fetchFromBuf false) :=
          fetchFromBuf_step hsize hrd
        have hf : SameServer s next := ⟨rfl, rfl, rfl, rfl⟩
        generalize next.fetchFromBuf false = taken at hsp ⊢
        cases hsp with
        | line hl hp hrd' hsm hst hsa =>
          rw [hnx] at hp hsa
          exact ⟨data, hsl, .line rfl rfl hl hp hrd' (hf.trans hsm) (hst.trans hserver) hsa⟩
        | @waiting next' hp hps' hs' hrd' hsm hst =>
          have hm := (hf.trans hsm).maxMsgSize_eq
          have hserver' := hst.trans hserver
          rw [← hp, ← hm] at hs'
          obtain ⟨data', hd', hsp'⟩ := ih (hm ▸ hsize) hrd' hps' hs' hserver'
            (unread.drop data.length) (fun r hr => hre r (mem_cons_of_mem _ hr))
            (.waiting rfl rfl (append_nil _).symm (by rwa [append_nil]) hrd' .refl hserver')
          refine ⟨data ++ data', ?_, ?_⟩
          · rw [append_assoc, ← hd', ← hsl]
          · rw [length_append, ← Nat.add_assoc, ← append_assoc, ← hnx, ← hp]
            exact hsp'.of_same (hf.trans hsm)

/-! ### Progress -/

theorem unread_finish (s : TextServer) (unread : Bytes) (status : Status) :
    (s.finish unread status).unread = unread := by
  unfold finish
  dsimp only
  split <;> rfl

theorem status_finish (s : TextServer) (unread : Bytes) (status : Status) :
    (s.finish unread status).server.status = status := by
  simp only [finish, fetchFromBuf, if_true]
  split_ifs <;> rfl

theorem length_unread_readLoop_le (s : TextServer) (unread : Bytes) (reads : List ReadResult) :
    (readLoop s unread reads).unread.length ≤ unread.length := by
  induction reads generalizing s unread with
  | nil => exact le_rfl
  | cons r reads ih =>
    cases r with
    | again => exact le_rfl
    | error => exact (congrArg length (unread_finish ..)).le
    | got n =>
      unfold readLoop
      dsimp only
      split
      · split
        · exact le_rfl
        · exact (congrArg length (unread_finish ..)).le
      · have hd : ∀ k, (unread.drop k).length ≤ unread.length := by simp
        split
        · exact hd _
        · exact (ih _ _).trans (hd _)

/-- A read gives bytes that are not read yet, or the stream is at its end. -/
theorem readLoop_got {n : ℕ} {unread : Bytes} (heof : s.options.ignoreEof = false) :
    (readLoop s unread (.got n :: reads)).server.status = .eof ∨
      (readLoop s unread (.got n :: reads)).unread.length < unread.length := by
  unfold readLoop
  dsimp only
  split
  case isTrue =>
    rw [if_neg (by simp [heof])]
    exact .inl (status_finish ..)
  case isFalse hne =>
    have hlt : ∀ data : Bytes, data ≠ [] → data <+: unread →
        (unread.drop data.length).length < unread.length := by
      intro data hd hp
      have := length_pos_of_ne_nil hd
      have := hp.length_le
      rw [length_drop]
      omega
    have hl := hlt _ hne ⟨_, take_append_drop _ _⟩
    refine .inr ?_
    split
    · exact hl
    · exact (length_unread_readLoop_le ..).trans_lt hl

theorem started_pending (s : TextServer) : s.started.pending = s.pending := by
  unfold started
  split <;> rfl

theorem started_same (s : TextServer) : SameServer s s.started ∧ s.started.status = s.status := by
  unfold started
  split
  · exact ⟨⟨rfl, rfl, rfl, rfl⟩, rfl⟩
  · exact ⟨.refl, rfl⟩

theorem Ready.started (h : s.Ready read) : s.started.Ready read := by
  unfold TextServer.started
  split
  · exact ⟨h.size, h.pos_le, h.end_le, fun hne => absurd rfl hne, h.tracked⟩
  · exact h

theorem fetchMessage_step (hsize : 0 < s.maxMsgSize) (h : s.Ready read)
    (hserver : s.status = .success) (unread : Bytes) (hre : ∀ r ∈ reads, r.Working) :
    ∃ data, unread = data ++ (s.fetchMessage unread reads).unread ∧
      ReadStep s (s.pending ++ data) (read + data.length) (s.fetchMessage unread reads) := by
  unfold fetchMessage
  rw [if_neg (not_not.mpr hserver)]
  have hsp := fetchFromBuf_step hsize h
  generalize s.fetchFromBuf false = taken at hsp
  cases hsp with
  | line hl hp hr hsm hs hsl =>
    refine ⟨[], rfl, ?_⟩
    rw [append_nil]
    exact .line rfl rfl hl hp hr hsm (hs.trans hserver) hsl
  | @waiting next hp hps hst hr hsm hs =>
    rw [← hp, ← hsm.maxMsgSize_eq] at hst
    obtain ⟨data, hd, hrd⟩ := readLoop_step (hsm.maxMsgSize_eq ▸ hsize) hr hps hst
      (hs.trans hserver) unread hre
    rw [hp] at hrd
    exact ⟨data, hd, hrd.of_same hsm⟩

theorem options_fetchFromBuf (s : TextServer) (flushTheRest : Bool) :
    (s.fetchFromBuf flushTheRest).1.options = s.options := by
  unfold fetchFromBuf
  split_ifs
  · rfl
  · rfl
  · unfold takeMessage
    dsimp only
    split
    · unfold takeLine
      dsimp only
      split_ifs
      · split <;> rfl
      · rfl
    · split_ifs <;> rfl

theorem fetchMessage_got (hserver : s.status = .success) (heof : s.options.ignoreEof = false)
    (unread : Bytes) (n : ℕ) (reads : List ReadResult) :
    (s.fetchMessage unread (.got n :: reads)).msg.isSome ∨
      (s.fetchMessage unread (.got n :: reads)).server.status = .eof ∨
      (s.fetchMessage unread (.got n :: reads)).unread.length < unread.length := by
  unfold fetchMessage
  rw [if_neg (not_not.mpr hserver)]
  have ho := s.options_fetchFromBuf false
  dsimp only
  split
  · exact .inl rfl
  · exact .inr (readLoop_got (ho ▸ heof))

theorem updatePos_pending (s : TextServer) : s.updatePos.pending = s.pending := by
  unfold updatePos
  split
  case isTrue he => rw [clear_pending, pending, he, drop_length]
  case isFalse => rfl

theorem updatePos_same (s : TextServer) : SameServer s s.updatePos ∧
    s.updatePos.status = s.status ∧ s.updatePos.bufferCachedEol = s.bufferCachedEol := by
  unfold updatePos
  split
  · exact ⟨⟨rfl, rfl, rfl, rfl⟩, rfl, rfl⟩
  · exact ⟨.refl, rfl, rfl⟩

theorem Ready.updatePos (h : s.Ready read) : s.updatePos.Ready read := by
  unfold TextServer.updatePos
  split
  case isTrue he =>
    have hn : s.pending = [] := by rw [pending, he, drop_length]
    exact h.clear (h.eol_of_empty hn)
  case isFalse => exact h

theorem ReadStep.updatePos {left : Bytes} (h : ReadStep s left read f) :
    ReadStep s left read { f with server := f.server.updatePos } := by
  obtain ⟨hsm', hs', he'⟩ := f.server.updatePos_same
  have hp' := f.server.updatePos_pending
  cases h with
  | line hs hm hln hl hr hsm hserver hsl =>
    refine .line hs hm hln (hp' ▸ hl) hr.updatePos (hsm.trans hsm')
      (hs'.trans hserver) ?_
    rw [he', hp']
    exact hsl
  | waiting hs hm hl hst hr hsm hserver =>
    exact .waiting hs hm (hp'.trans hl) hst hr.updatePos
      (hsm.trans hsm') (hs'.trans hserver)
  | finished hu hn hst hserver hp hm hs hr hsm =>
    exact .finished hu hn hst (hs'.trans hserver) (hp'.trans hp) hm
      hs hr.updatePos (hsm.trans hsm')

theorem ReadStep.setStatus {left : Bytes} (h : ReadStep s left read f) (hne : f.status ≠ .success) :
    ReadStep s left read { f with server := { f.server with status := f.status } } := by
  cases h with
  | line hs => exact absurd hs hne
  | waiting hs => exact absurd hs hne
  | finished hu hn hst hserver hp hm hs hr hsm =>
    have he : f.status = .eof := by
      rw [hs]
      split
      · rfl
      case isFalse hl => exact absurd (hs.trans (if_neg hl)) hne
    exact .finished hu hn hst he hp hm hs
      { hr with }
      { hsm with }

/-- A call that starts with a read returns a message, ends, or takes bytes off the stream. -/
theorem fetch_got (hserver : s.status = .success) (heof : s.options.ignoreEof = false)
    (unread : Bytes) (n : ℕ) (reads : List ReadResult) (bookmarked : Bool) :
    (s.fetch unread (.got n :: reads) bookmarked).1.msg.isSome ∨
      (s.fetch unread (.got n :: reads) bookmarked).1.server.status ≠ .success ∨
      (s.fetch unread (.got n :: reads) bookmarked).1.unread.length < unread.length := by
  obtain ⟨hs, hss⟩ := s.started_same
  have hf := fetchMessage_got (hss.trans hserver) (hs.options ▸ heof) unread n reads
  unfold fetch
  dsimp only
  split
  case isTrue hne => exact .inr (.inl hne)
  case isFalse =>
    split
    · refine hf.imp_right (Or.imp_left fun he => ?_)
      rw [(updatePos_same _).2.1, he]
      nofun
    · refine hf.imp_right (Or.imp_left fun he => ?_)
      rw [he]
      nofun

section

variable (hsize : 0 < s.maxMsgSize) (h : s.started.Ready read) (hserver : s.status = .success)
include hsize h hserver

/-- A bookmark holds the position before it is set to the start of an empty buffer. -/
theorem fetch_step (unread : Bytes) (hr : ∀ r ∈ reads, r.Working) (bookmarked : Bool) :
    ∃ data, unread = data ++ (s.fetch unread reads bookmarked).1.unread ∧
      ReadStep s (s.pending ++ data) (read + data.length) (s.fetch unread reads bookmarked).1 := by
  obtain ⟨hs, hss⟩ := s.started_same
  obtain ⟨data, hd, hst⟩ := fetchMessage_step (hs.maxMsgSize_eq ▸ hsize) h
    (hss.trans hserver) unread hr
  rw [s.started_pending] at hst
  refine ⟨data, ?_⟩
  unfold fetch
  dsimp only
  split
  case isTrue hne => exact ⟨hd, (hst.of_same hs).setStatus hne⟩
  case isFalse =>
    split
    · exact ⟨hd, (hst.of_same hs).updatePos⟩
    · exact ⟨hd, hst.of_same hs⟩

/-- The bookmark of a message is the position behind it. -/
theorem fetch_bookmark (ht : s.options.posTracking = true) {unread : Bytes}
    (hrd : ∀ r ∈ reads, r.Working) {bookmarked : Bool}
    {p : BufferPosition} (hp : (s.fetch unread reads bookmarked).2 = some p) :
    (s.fetch unread reads bookmarked).1.msg.isSome ∧ p.bufferPos ≤ p.rawBufferSize ∧
      p.rawBufferSize ≤ s.maxMsgSize ∧
      ∃ data, unread = data ++ (s.fetch unread reads bookmarked).1.unread ∧
        p.rawStreamPos + p.rawBufferSize = read + data.length ∧
        p.rawStreamPos + p.bufferPos + (s.fetch unread reads bookmarked).1.server.pending.length =
          read + data.length := by
  obtain ⟨hs, hst⟩ := s.started_same
  obtain ⟨data, hd, hsp⟩ := fetchMessage_step (hs.maxMsgSize_eq ▸ hsize) h
    (hst.trans hserver) unread hrd
  unfold fetch at hp ⊢
  generalize s.started.fetchMessage unread reads = f at hsp hd hp ⊢
  dsimp only at hp ⊢
  split at hp
  · cases hp
  case isFalse hn =>
    split at hp
    case isFalse => cases hp
    case isTrue hm =>
      obtain rfl := Option.some.inj hp
      rw [if_neg hn, if_pos hm]
      obtain ⟨hr, hs'⟩ : f.server.Ready (read + data.length) ∧ SameServer s f.server := by
        cases hsp with
        | line _ _ _ _ hr hs' => exact ⟨hr, hs.trans hs'⟩
        | waiting _ _ _ _ hr hs' => exact ⟨hr, hs.trans hs'⟩
        | finished _ _ _ _ _ _ _ hr hs' => exact ⟨hr, hs.trans hs'⟩
      obtain ⟨hrw, hre⟩ := hr.tracked (hs'.options ▸ ht)
      have hps : f.server.position.bufferPos ≤ f.server.buffer.length := hr.pos_le
      have he := hr.end_le
      have hmx := hr.size
      rw [hs'.maxMsgSize_eq] at hmx
      have hl : f.server.updatePos.pending.length =
          f.server.buffer.length - f.server.position.bufferPos := by
        rw [f.server.updatePos_pending, f.server.length_pending]
      exact ⟨hm.2, by omega, by omega, data, hd, by omega, by dsimp only; omega⟩

end

end TextServer
end SyslogNg.LogProto
