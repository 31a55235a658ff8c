import SyslogNg.LogProto.Lines

/-!
# Files that are read again after a restart

The position of a message is filled into its bookmark and saved once the message is confirmed.
`log_proto_buffered_server_apply_state` in `modules/basic-proto/basic-proto.c` goes back to the
saved position in the next run: it reads what was in the buffer again and skips what was returned
of it.
-/
namespace SyslogNg.LogProto

open Framing List TextServer

def int32 (n : ℕ) : ℤ := (BitVec.ofNat 32 n).toInt

namespace TextServer

variable (s : TextServer)

/-! ### The model -/

/-- The state is not usable: the file is read from its start. With the server comes the offset in
the file. -/
def rewound : TextServer × ℕ :=
  ({ s with
      buffer := []
      bufferCachedEol := 0
      position := {}
      saved := { s.saved with rawStreamPos := 0, rawBufferSize := 0 } }, 0)

/-- The buffer holds what was read again. -/
def reload (data : Bytes) : TextServer × ℕ :=
  let smaller := s.pos > data.length ∨ int32 s.bufferCachedEol > int32 data.length
  ({ s with
      buffer := data
      bufferCachedEol := if smaller then 0 else s.bufferCachedEol
      position := ⟨if smaller then 0 else s.pos, s.position.rawStreamPos, data.length⟩ },
    s.position.rawStreamPos + data.length)

/-- What was in the buffer is read again; less is accepted if it is behind the position. -/
def reread (unread : Bytes) : ReadResult → TextServer × ℕ
  | .got n =>
    let data := unread.take (min n s.position.rawBufferSize)
    if data.length = s.position.rawBufferSize ∨ data.length > s.pos then s.reload data
    else s.rewound
  | .again => s.rewound
  | .error => s.rewound

/-- The position in the file is found, if the state is that of the file. -/
def seek (inode : ℕ) (file : Bytes) (read : ReadResult) : TextServer × ℕ :=
  if s.fileInode ≠ 0 ∧ s.fileInode = inode ∧ s.fileSize ≤ file.length ∧
      s.position.rawStreamPos ≤ file.length then
    if s.position.rawBufferSize = 0 then
      ({ s with
          buffer := []
          position := ⟨0, s.position.rawStreamPos + s.position.rawBufferSize, 0⟩ },
        s.position.rawStreamPos + s.position.rawBufferSize)
    else if s.position.rawBufferSize > s.bufferSize then s.rewound
    else s.reread (file.drop s.position.rawStreamPos) read
  else s.rewound

/-- `log_proto_buffered_server_apply_state` with a new buffer. In a new run the saved position is
used, and the end of the next line is not known. -/
def applyState (newRun : Bool) (inode : ℕ) (file : Bytes) (read : ReadResult) : TextServer × ℕ :=
  let stored : TextServer :=
    { s with
      bufferSize := max s.bufferSize s.maxMsgSize
      buffer := []
      bufferCachedEol := if newRun then 0 else s.bufferCachedEol
      position := if newRun then s.saved else s.position }
  let found := stored.seek inode file read
  ({ found.1 with
      fileInode := inode
      fileSize := file.length
      bufferCachedEol :=
        if newRun ∧ found.1.buffer ≠ [] ∧ found.1.bufferCachedEol = 0 then eolUnknown
        else found.1.bufferCachedEol },
    found.2)

/-! ### A buffer that is read again -/

variable {s} {inode n : ℕ} {file : Bytes}

theorem int32_of_lt (h : n < 2 ^ 31) : int32 n = n := by
  unfold int32
  rw [BitVec.toInt_eq_toNat_of_lt] <;> simp <;> omega

section

variable (hinode : s.fileInode = inode) (hne : inode ≠ 0) (hsize : s.fileSize ≤ file.length)
include hinode hne hsize

theorem seek_eq
    (hp : s.pos ≤ s.position.rawBufferSize) (hf : s.position.rawBufferSize ≤ s.bufferSize)
    (hi : s.bufferSize < 2 ^ 31)
    (hen : s.position.rawStreamPos + s.position.rawBufferSize ≤ file.length)
    (hz : s.bufferCachedEol = 0) {read : ReadResult} (hr : s.position.rawBufferSize = 0 ∨
      ∃ n, read = .got n ∧ (s.position.rawBufferSize ≤ n ∨ s.pos < n)) :
    ∃ data, data <+: file.drop s.position.rawStreamPos ∧ s.pos ≤ data.length ∧
      data.length ≤ s.position.rawBufferSize ∧ s.seek inode file read =
        ({ s with buffer := data, position := ⟨s.pos, s.position.rawStreamPos, data.length⟩ },
          s.position.rawStreamPos + data.length) := by
  have hs : s.fileInode ≠ 0 ∧ s.fileInode = inode ∧ s.fileSize ≤ file.length ∧
      s.position.rawStreamPos ≤ file.length := ⟨hinode ▸ hne, hinode, hsize, by omega⟩
  by_cases he : s.position.rawBufferSize = 0
  · have hst : s.pos = 0 := by omega
    refine ⟨[], nil_prefix, by rw [hst]; exact le_rfl, Nat.zero_le _, ?_⟩
    unfold seek
    rw [if_pos hs, he, hst]
    rfl
  · obtain ⟨n, rfl, hn⟩ := hr.resolve_left he
    have hl : ((file.drop s.position.rawStreamPos).take
        (min n s.position.rawBufferSize)).length = min n s.position.rawBufferSize := by
      rw [length_take, length_drop]
      omega
    have hk : ¬(s.pos > min n s.position.rawBufferSize ∨
        int32 s.bufferCachedEol > int32 (min n s.position.rawBufferSize)) := by
      rw [int32_of_lt (by omega), int32_of_lt (by omega)]
      omega
    refine ⟨_, take_prefix (min n s.position.rawBufferSize) _, by omega, by omega, ?_⟩
    unfold seek reread reload
    rw [if_pos hs, if_neg he, if_neg (by omega)]
    dsimp only
    rw [hl, if_pos (by omega), if_neg hk, if_neg hk]

/-- The state of a new run: the buffer is a part of the file, and the position is the saved one. -/
theorem applyState_eq (hp : s.saved.bufferPos ≤ s.saved.rawBufferSize)
    (hf : s.saved.rawBufferSize ≤ s.maxMsgSize) (hb : s.bufferSize = s.maxMsgSize)
    (hi : s.maxMsgSize < 2 ^ 31) (he : s.saved.rawStreamPos + s.saved.rawBufferSize ≤ file.length)
    {read : ReadResult} (hr : s.saved.rawBufferSize = 0 ∨
      ∃ n, read = .got n ∧ (s.saved.rawBufferSize ≤ n ∨ s.saved.bufferPos < n)) :
    ∃ data, data <+: file.drop s.saved.rawStreamPos ∧ s.saved.bufferPos ≤ data.length ∧
      data.length ≤ s.saved.rawBufferSize ∧ s.applyState true inode file read = ({ s with
            buffer := data
            bufferCachedEol := if data = [] then 0 else eolUnknown
            position := ⟨s.saved.bufferPos, s.saved.rawStreamPos, data.length⟩
            fileInode := inode
            fileSize := file.length }, s.saved.rawStreamPos + data.length) := by
  let stored : TextServer :=
    { s with
      bufferSize := max s.bufferSize s.maxMsgSize
      buffer := []
      bufferCachedEol := 0
      position := s.saved }
  have hs : stored.bufferSize = s.bufferSize := max_eq_left hb.ge
  obtain ⟨data, hd, hbh, hl, hsk⟩ := seek_eq (s := stored) hinode hne hsize hp
    (hf.trans (hs.trans hb).ge) ((hs.trans hb).trans_lt hi) he rfl hr
  refine ⟨data, hd, hbh, hl, ?_⟩
  have ha : s.applyState true inode file read =
      ({ (stored.seek inode file read).1 with
          fileInode := inode
          fileSize := file.length
          bufferCachedEol :=
            if true ∧ (stored.seek inode file read).1.buffer ≠ [] ∧
              (stored.seek inode file read).1.bufferCachedEol = 0 then eolUnknown
            else (stored.seek inode file read).1.bufferCachedEol },
        (stored.seek inode file read).2) := rfl
  have hu : (if true ∧ data ≠ [] ∧ stored.bufferCachedEol = 0 then eolUnknown
      else stored.bufferCachedEol) = if data = [] then 0 else eolUnknown := by
    by_cases hn : data = []
    · rw [if_neg (fun h => h.2.1 hn), if_pos hn]
    · rw [if_pos ⟨rfl, hn, rfl⟩, if_neg hn]
  rw [ha, hsk]
  rw [hu, hs]

end

end TextServer

/-! ### The messages of a file -/

/-- A line or a piece that is a message; a server that cannot hold a byte has none. -/
def IsMessage (maxMsgSize : ℕ) (f m : Bytes) : Prop := f ≠ [] ∧ IsLine maxMsgSize f m

theorem isMessage_eq {maxMsgSize : ℕ} (hsize : 0 < maxMsgSize) :
    IsMessage maxMsgSize = IsLine maxMsgSize := by
  funext f m
  exact propext ⟨fun h => h.2, fun h => ⟨isLine_ne_nil hsize h, h⟩⟩

theorem not_isMessage_zero {f m : Bytes} : ¬IsMessage 0 f m := by
  rintro ⟨hne, h⟩
  cases h with
  | line _ _ hl => exact Nat.not_lt_zero _ hl
  | piece _ hl => exact hne (length_eq_zero_iff.mp hl)

/-- The position is behind the first `k` messages of the file, in a buffer that was read from it. -/
structure Marks (maxMsgSize : ℕ) (file : Bytes) (k : ℕ) (p : BufferPosition) : Prop where
  pos_le : p.bufferPos ≤ p.rawBufferSize
  size_le : p.rawBufferSize ≤ maxMsgSize
  end_le : p.rawStreamPos + p.rawBufferSize ≤ file.length
  decodes : ∃ messages, messages.length = k ∧
    Decodes (IsLine maxMsgSize) (file.take (p.rawStreamPos + p.bufferPos)) messages []

theorem Marks.append {maxMsgSize k : ℕ} {file : Bytes} {p : BufferPosition}
    (h : Marks maxMsgSize file k p) (data : Bytes) : Marks maxMsgSize (file ++ data) k p := by
  have hp := h.pos_le
  have he := h.end_le
  refine ⟨hp, h.size_le, ?_, ?_⟩
  · rw [length_append]
    omega
  · rw [take_append_of_le_length (by omega)]
    exact h.decodes

/-! ### Every run -/

/-- A file and the process that reads it. The messages that it returned follow the first `skipped`
ones; `confirmed` is the number of messages up to the bookmark that was saved last. -/
structure FileReading where
  server : TextServer
  inode : ℕ
  file : Bytes
  offset : ℕ := 0
  delivered : List Bytes := []
  bookmarks : List (ℕ × BufferPosition) := []
  skipped : ℕ := 0
  confirmed : ℕ := 0
  deriving DecidableEq

inductive FileReadingOp
  | fetch (reads : List ReadResult) (bookmarked : Bool)
  | save (i : ℕ)
  | grow (data : Bytes)
  | restart (read : ReadResult)

def FileReadingOp.Working : FileReadingOp → Prop
  | .fetch reads _ => ∀ r ∈ reads, r.Working
  | .restart read => read.Working
  | _ => True

namespace FileReading

/-- A file source: positions are tracked, and the end of the file is not the end of the stream. -/
def fileOptions (maxMsgSize address : ℕ) : TextServerOptions :=
  { maxMsgSize, address, posTracking := true, ignoreEof := true }

def start (options : TextServerOptions) (inode : ℕ) (file : Bytes) : FileReading :=
  let opened := { options, bufferSize := 0 : TextServer }.applyState false inode file .again
  { server := opened.1, inode, file, offset := opened.2 }

def fetched (s : FileReading) (reads : List ReadResult) (bookmarked : Bool) :
    Fetched TextServer × Option BufferPosition :=
  s.server.fetch (s.file.drop s.offset) reads bookmarked

def apply (s : FileReading) : FileReadingOp → FileReading
  | .fetch reads bookmarked =>
    let f := s.fetched reads bookmarked
    let delivered := s.delivered ++ f.1.msg.toList
    { s with
      server := f.1.server
      offset := s.file.length - f.1.unread.length
      delivered
      bookmarks := s.bookmarks ++ (f.2.map fun p => (s.skipped + delivered.length, p)).toList }
  | .save i =>
    -- `log_proto_file_reader_ack_data_save_state`
    match s.bookmarks[i]? with
    | some mark => { s with server := { s.server with saved := mark.2 }, confirmed := mark.1 }
    | none => s
  | .grow data => { s with file := s.file ++ data }
  | .restart read =>
    let opened := { s.server with status := .success }.applyState true s.inode s.file read
    { s with
      server := opened.1
      offset := opened.2
      delivered := []
      bookmarks := []
      skipped := s.confirmed }

def system (options : TextServerOptions) (inode : ℕ) : System FileReading FileReadingOp where
  init s := ∃ file, s = start options inode file
  step s op s' := op.Working ∧ s' = s.apply op

/-- At a restart the inode is not 0, and what was in the buffer is read at once, or a part of it
that is behind the position. -/
def Rereads (s : FileReading) : FileReadingOp → Prop
  | .restart read => s.inode ≠ 0 ∧ (s.server.saved.rawBufferSize = 0 ∨
      ∃ n, read = .got n ∧ (s.server.saved.rawBufferSize ≤ n ∨ s.server.saved.bufferPos < n))
  | _ => True

variable {s : FileReading} {options : TextServerOptions} {inode : ℕ} {reads : List ReadResult}

/-- Where the server is in the file, and what its bookmarks mark. -/
structure Consistent (options : TextServerOptions) (inode : ℕ) (s : FileReading) : Prop where
  status : s.server.status = .success
  options_eq : s.server.options = options
  inode_eq : s.inode = inode ∧ s.server.fileInode = inode
  fileSize : s.server.fileSize ≤ s.file.length
  ready : s.server.started.Ready s.offset
  offset_le : s.offset ≤ s.file.length
  decodes : ∃ earlier : List Bytes, earlier.length = s.skipped ∧
    Decodes (IsLine options.maxMsgSize) (s.file.take s.offset) (earlier ++ s.delivered)
      s.server.pending
  bookmarks : ∀ mark ∈ s.bookmarks, Marks options.maxMsgSize s.file mark.1 mark.2
  saved : Marks options.maxMsgSize s.file s.confirmed s.server.saved

section

variable (h : Consistent options inode s)
include h

theorem Consistent.grow (data : Bytes) : Consistent options inode (s.apply (.grow data)) := by
  refine ⟨h.status, h.options_eq, h.inode_eq, ?_, h.ready, ?_, ?_, ?_, h.saved.append data⟩
  · exact h.fileSize.trans (by simp [apply])
  · exact h.offset_le.trans (by simp [apply])
  · change ∃ earlier : List Bytes, _ ∧ Decodes _ ((s.file ++ data).take s.offset) _ _
    rw [take_append_of_le_length h.offset_le]
    exact h.decodes
  · exact fun mark hm => (h.bookmarks mark hm).append data

theorem Consistent.save (i : ℕ) : Consistent options inode (s.apply (.save i)) := by
  unfold FileReading.apply
  cases hm : s.bookmarks[i]? with
  | none => simpa only [hm] using h
  | some mark =>
    simp only [hm]
    have hr : ({ s.server with saved := mark.2 } : TextServer).started.Ready s.offset := by
      have hr := h.ready
      unfold started at hr ⊢
      split at hr <;> rename_i he
      · rw [if_pos he]
        exact { hr with }
      · rw [if_neg he]
        exact { hr with }
    exact ⟨h.status, h.options_eq, h.inode_eq, h.fileSize, hr, h.offset_le, h.decodes,
      h.bookmarks, h.bookmarks mark (mem_of_getElem? hm)⟩

theorem Consistent.fetch_step (hsize : 0 < options.maxMsgSize)
    (hreads : ∀ r ∈ reads, r.Working) (bookmarked : Bool) :
    ∃ data, s.file.drop s.offset = data ++ (s.fetched reads bookmarked).1.unread ∧
      s.file.length - (s.fetched reads bookmarked).1.unread.length = s.offset + data.length ∧
      s.file.take (s.offset + data.length) = s.file.take s.offset ++ data ∧
      s.server.ReadStep (s.server.pending ++ data) (s.offset + data.length)
        (s.fetched reads bookmarked).1 := by
  have hm : s.server.maxMsgSize = options.maxMsgSize := congrArg _ h.options_eq
  obtain ⟨data, hd, hs⟩ := TextServer.fetch_step (hm ▸ hsize) h.ready h.status
    (s.file.drop s.offset) hreads bookmarked
  have hl := congrArg List.length hd
  rw [length_drop, length_append] at hl
  refine ⟨data, hd, ?_, ?_, hs⟩
  · have hle := h.offset_le
    change _ - (s.server.fetch _ reads bookmarked).1.unread.length = _
    omega
  · rw [take_add, hd, take_left]

/-- The state of the server after a call, and the messages before what is left. -/
theorem Consistent.fetched_decodes (heof : options.ignoreEof = true) {earlier : List Bytes}
    (hd : Decodes (IsLine options.maxMsgSize) (s.file.take s.offset) (earlier ++ s.delivered)
      s.server.pending) {data : Bytes} {f : Fetched TextServer}
    (hst : s.server.ReadStep (s.server.pending ++ data) (s.offset + data.length) f) :
    f.server.status = .success ∧ f.server.Ready (s.offset + data.length) ∧
      TextServer.SameServer s.server f.server ∧
      Decodes (IsLine options.maxMsgSize) (s.file.take s.offset ++ data)
        (earlier ++ (s.delivered ++ f.msg.toList)) f.server.pending := by
  have hmx : s.server.maxMsgSize = options.maxMsgSize := congrArg _ h.options_eq
  have ha := hd.append data
  rw [← append_assoc]
  cases hst with
  | line _ hm hln hl hr hsm hs _ =>
    rw [hmx] at hln
    rw [hm]
    exact ⟨hs, hr, hsm, (hl ▸ ha).snoc hln⟩
  | waiting _ hm hl _ hr hsm hs =>
    rw [hm, Option.toList_none, append_nil]
    exact ⟨hs, hr, hsm, hl ▸ ha⟩
  | finished _ hn =>
    rw [h.options_eq, heof] at hn
    cases hn

theorem Consistent.fetch (hsize : 0 < options.maxMsgSize)
    (ht : options.posTracking = true) (heof : options.ignoreEof = true)
    (hreads : ∀ r ∈ reads, r.Working) (bookmarked : Bool) :
    Consistent options inode (s.apply (.fetch reads bookmarked)) := by
  have hmx : s.server.maxMsgSize = options.maxMsgSize := congrArg _ h.options_eq
  obtain ⟨data, hd, ho, htk, hsp⟩ := h.fetch_step hsize hreads bookmarked
  obtain ⟨earlier, he, hdc⟩ := h.decodes
  obtain ⟨hst, hr, hs, ha⟩ := h.fetched_decodes heof hdc hsp
  rw [← htk] at ha
  have ho' : (s.apply (.fetch reads bookmarked)).offset = s.offset + data.length := ho
  have hle : s.offset + data.length ≤ s.file.length := by
    rw [← ho]
    exact Nat.sub_le _ _
  refine ⟨hst, hs.options.trans h.options_eq, ⟨h.inode_eq.1, hs.fileInode.trans h.inode_eq.2⟩,
    hs.fileSize ▸ h.fileSize, ?_, ?_, ⟨earlier, he, ?_⟩, ?_, hs.saved ▸ h.saved⟩
  · rw [ho']
    exact hr.started
  · exact ho'.trans_le hle
  · rw [ho']
    exact ha
  · intro mark hm
    rcases mem_append.mp hm with hm | hm
    · exact h.bookmarks mark hm
    · -- What is left of the buffer is behind the position in the bookmark.
      obtain ⟨p, hp, rfl⟩ := Option.map_eq_some_iff.mp (Option.mem_toList.mp hm)
      obtain ⟨-, hps, hf, data', hd', hen, hb⟩ :=
        fetch_bookmark (hmx ▸ hsize) h.ready h.status (h.options_eq ▸ ht) hreads hp
      obtain rfl : data = data' := append_cancel_right (hd.symm.trans hd')
      refine ⟨hps, hmx ▸ hf, hen ▸ hle,
        earlier ++ (s.delivered ++ (s.fetched reads bookmarked).1.msg.toList), ?_, ?_⟩
      · rw [length_append, he]
      · obtain ⟨done, hdn, hms⟩ := ha.split
        have hl := congrArg List.length hdn
        rw [length_take, length_append] at hl
        have hbf : s.file.take (p.rawStreamPos + p.bufferPos) = done := by
          have hpr := congrArg (List.take (p.rawStreamPos + p.bufferPos)) hdn
          rw [take_take, min_eq_left (by omega), take_left' ?_] at hpr
          · exact hpr
          · change _ + (s.fetched reads bookmarked).1.server.pending.length = _ at hb
            omega
        exact hbf ▸ hms

theorem Consistent.restart (hi : options.maxMsgSize < 2 ^ 31)
    {read : ReadResult} (hrd : s.Rereads (.restart read)) :
    Consistent options inode (s.apply (.restart read)) := by
  have hmx : s.server.maxMsgSize = options.maxMsgSize := congrArg _ h.options_eq
  have hb : s.server.bufferSize = s.server.maxMsgSize := by
    have hsize := h.ready.size
    unfold started at hsize
    split at hsize <;> exact hsize
  have hps := h.saved.pos_le
  have he := h.saved.end_le
  have hf := h.saved.size_le
  obtain ⟨data, hdt, hbh, hl, ha⟩ : ∃ data, data <+: s.file.drop s.server.saved.rawStreamPos ∧
      s.server.saved.bufferPos ≤ data.length ∧ data.length ≤ s.server.saved.rawBufferSize ∧ _ :=
    applyState_eq (s := { s.server with status := .success })
      (h.inode_eq.2.trans h.inode_eq.1.symm) hrd.1 h.fileSize hps (hmx ▸ hf) hb
      (hmx ▸ hi) he hrd.2
  obtain ⟨messages, hc, hd⟩ := h.saved.decodes
  have hod : s.apply (.restart read) = { s with
      server := { s.server with
        status := .success
        buffer := data
        bufferCachedEol := if data = [] then 0 else eolUnknown
        position := ⟨s.server.saved.bufferPos, s.server.saved.rawStreamPos, data.length⟩
        fileInode := s.inode
        fileSize := s.file.length }
      offset := s.server.saved.rawStreamPos + data.length
      delivered := []
      bookmarks := []
      skipped := s.confirmed } := by
    unfold FileReading.apply
    dsimp only
    rw [ha]
  rw [hod]
  refine ⟨rfl, h.options_eq, ⟨h.inode_eq.1, h.inode_eq.1⟩, le_rfl, ?_, ?_, ⟨messages, hc, ?_⟩,
    fun _ hm => absurd hm not_mem_nil, h.saved⟩
  · -- The end of the next line is searched again.
    have hr : ∀ t : TextServer, t.options = options → t.bufferSize = options.maxMsgSize →
        t.buffer = data →
        t.position = ⟨s.server.saved.bufferPos, s.server.saved.rawStreamPos, data.length⟩ →
        t.bufferCachedEol = 0 → t.Ready (s.server.saved.rawStreamPos + data.length) := by
      intro t ho hsize hbf hp hel
      refine ⟨?_, ?_, ?_, fun hne => absurd hel hne, fun _ => ?_⟩
      · rw [hsize, maxMsgSize, ho]
      · rw [pos, hp, hbf]
        exact hbh
      · rw [hbf, hsize]
        exact hl.trans hf
      · rw [hp, hbf]
        exact ⟨rfl, rfl⟩
    unfold started
    split
    · exact hr _ h.options_eq (hb.trans hmx) rfl rfl rfl
    case isFalse hk =>
      refine hr _ h.options_eq (hb.trans hmx) rfl rfl ?_
      split
      · rfl
      case isFalse hne => exact absurd (if_neg hne) hk
  · change s.server.saved.rawStreamPos + data.length ≤ s.file.length
    omega
  · change Decodes _ (s.file.take (s.server.saved.rawStreamPos + data.length)) (messages ++ [])
      (data.drop s.server.saved.bufferPos)
    have ht : data.drop s.server.saved.bufferPos = (s.file.drop (s.server.saved.rawStreamPos +
        s.server.saved.bufferPos)).take (data.length - s.server.saved.bufferPos) := by
      conv_lhs => rw [prefix_iff_eq_take.mp hdt]
      rw [drop_take, drop_drop]
    have hs : s.server.saved.rawStreamPos + data.length = s.server.saved.rawStreamPos +
        s.server.saved.bufferPos + (data.length - s.server.saved.bufferPos) := by omega
    rw [hs, take_add, ht, append_nil]
    exact hd.append _

end

theorem start_consistent (options : TextServerOptions) (inode : ℕ) (file : Bytes) :
    Consistent options inode (start options inode file) := by
  have hm : Marks options.maxMsgSize file 0 {} :=
    ⟨le_rfl, Nat.zero_le _, Nat.zero_le _, [], rfl, .nil⟩
  refine ⟨rfl, rfl, ⟨rfl, rfl⟩, le_rfl, ?_, Nat.zero_le _, ⟨[], rfl, .nil⟩,
    fun _ hmr => absurd hmr not_mem_nil, hm⟩
  refine TextServer.Ready.started ⟨?_, le_rfl, Nat.zero_le _, fun hne => absurd rfl hne, ?_⟩
  · exact Nat.zero_max _
  · exact fun _ => ⟨rfl, rfl⟩

theorem consistent_of_reachable (hsize : 0 < options.maxMsgSize)
    (hi : options.maxMsgSize < 2 ^ 31) (ht : options.posTracking = true)
    (heof : options.ignoreEof = true) (h : ((system options inode).restrict Rereads).Reachable s) :
    Consistent options inode s := by
  apply h.invariant
  · rintro s ⟨file, rfl⟩
    exact start_consistent options inode file
  · rintro s op s' hs ⟨hok, hop, rfl⟩
    cases op with
    | fetch reads bookmarked => exact hs.fetch hsize ht heof hop bookmarked
    | save i => exact hs.save i
    | grow data => exact hs.grow data
    | restart read => exact hs.restart hi hok

/-- Without space for a byte nothing is read. -/
structure Idle (options : TextServerOptions) (s : FileReading) : Prop where
  options_eq : s.server.options = options
  status : s.server.status = .success
  bufferSize : s.server.bufferSize = 0
  buffer : s.server.buffer = []
  delivered : s.delivered = []
  bookmarks : s.bookmarks = []
  skipped : s.skipped = 0 ∧ s.confirmed = 0
  saved : s.server.saved.rawBufferSize = 0

section

variable (h : Idle options s) (heof : options.ignoreEof = true) (hreads : ∀ r ∈ reads, r.Working)
  (bookmarked : Bool)
include h heof hreads bookmarked

/-- A call then only takes the empty buffer back to its start. -/
theorem Idle.fetched : s.fetched reads bookmarked =
      (⟨s.server.started.clear, s.file.drop s.offset, .success, none⟩, none) := by
  obtain ⟨ho, hs, hsize, hb⟩ : s.server.started.options = options ∧
      s.server.started.status = .success ∧ s.server.started.bufferSize = 0 ∧
      s.server.started.buffer = [] := by
    unfold started
    split <;> exact ⟨h.options_eq, h.status, h.bufferSize, h.buffer⟩
  have hl : s.server.started.clear.readLoop (s.file.drop s.offset) reads =
      ⟨s.server.started.clear, s.file.drop s.offset, .success, none⟩ := by
    cases reads with
    | nil => rfl
    | cons r reads =>
      cases r with
      | again => rfl
      | error => exact absurd (hreads _ mem_cons_self) id
      | got n =>
        have hf : s.server.started.clear.bufferSize = 0 := hsize
        have hi : s.server.started.clear.options.ignoreEof = true := ho ▸ heof
        simp only [readLoop, hf, hi, Nat.zero_sub, Nat.min_zero, take_zero, if_true]
  have hm : s.server.started.fetchMessage (s.file.drop s.offset) reads =
      ⟨s.server.started.clear, s.file.drop s.offset, .success, none⟩ := by
    have hbf : s.server.started.fetchFromBuf false = (s.server.started.clear, none) := by
      unfold fetchFromBuf
      rw [if_pos (by rw [hb]; exact Nat.zero_sub _)]
    unfold fetchMessage
    rw [if_neg (not_not.mpr hs), hbf]
    exact hl
  unfold FileReading.fetched fetch
  rw [hm]
  simp

theorem Idle.fetch : Idle options (s.apply (.fetch reads bookmarked)) := by
  have hf := h.fetched heof hreads bookmarked
  have hs : (s.apply (.fetch reads bookmarked)).server = s.server.started.clear :=
    congrArg (fun f => f.1.server) hf
  have hd : (s.apply (.fetch reads bookmarked)).delivered = s.delivered ++ [] := by
    change s.delivered ++ (s.fetched reads bookmarked).1.msg.toList = _
    rw [hf]
    rfl
  have hb : (s.apply (.fetch reads bookmarked)).bookmarks = s.bookmarks ++ [] := by
    change s.bookmarks ++ (Option.map _ (s.fetched reads bookmarked).2).toList = _
    rw [hf]
    rfl
  obtain ⟨hsm, hst⟩ := s.server.started_same
  have hsize : s.server.started.bufferSize = s.server.bufferSize := by
    unfold started
    split <;> rfl
  refine ⟨?_, ?_, ?_, ?_, hd.trans (by rw [h.delivered]; rfl),
    hb.trans (by rw [h.bookmarks]; rfl), h.skipped, ?_⟩ <;> rw [hs]
  · exact hsm.options.trans h.options_eq
  · exact hst.trans h.status
  · exact hsize.trans h.bufferSize
  · rfl
  · exact (congrArg BufferPosition.rawBufferSize hsm.saved).trans h.saved

end

theorem seek_of_empty {t : TextServer} (he : t.position.rawBufferSize = 0)
    (hs : t.saved.rawBufferSize = 0) (inode : ℕ) (file : Bytes) (read : ReadResult) :
    (t.seek inode file read).1.options = t.options ∧ (t.seek inode file read).1.status = t.status ∧
      (t.seek inode file read).1.bufferSize = t.bufferSize ∧
      (t.seek inode file read).1.buffer = [] ∧
      (t.seek inode file read).1.saved.rawBufferSize = 0 := by
  unfold seek
  split
  · exact ⟨rfl, rfl, rfl, rfl, hs⟩
  · exact ⟨rfl, rfl, rfl, rfl, rfl⟩

/-- There is nothing to read again. -/
theorem Idle.restart (h : Idle options s) (hz : options.maxMsgSize = 0) (read : ReadResult) :
    Idle options (s.apply (.restart read)) := by
  let stored : TextServer :=
    { s.server with
      status := .success
      bufferSize := max s.server.bufferSize s.server.maxMsgSize
      buffer := []
      bufferCachedEol := 0
      position := s.server.saved }
  have hm : max s.server.bufferSize s.server.maxMsgSize = 0 := by
    rw [h.bufferSize, maxMsgSize, h.options_eq, hz, max_self]
  obtain ⟨ho, hs, hsize, hb, hsv⟩ :=
    seek_of_empty (t := stored) h.saved h.saved s.inode s.file read
  exact ⟨ho.trans h.options_eq, hs, hsize.trans hm, hb, rfl, rfl, ⟨h.skipped.2, h.skipped.2⟩, hsv⟩

theorem idle_of_reachable (hz : options.maxMsgSize = 0) (heof : options.ignoreEof = true)
    (h : (system options inode).Reachable s) : Idle options s := by
  apply h.invariant
  · rintro s ⟨file, rfl⟩
    exact ⟨rfl, rfl, (Nat.zero_max _).trans hz, rfl, rfl, rfl, ⟨rfl, rfl⟩, rfl⟩
  · rintro s op s' hs ⟨hop, rfl⟩
    cases op with
    | fetch reads bookmarked => exact hs.fetch heof hop bookmarked
    | save i =>
      unfold FileReading.apply
      simpa only [hs.bookmarks, List.getElem?_nil] using hs
    | grow data => exact { hs with }
    | restart read => exact hs.restart hz read

/-- The messages of a consistent state are those of the file, without the skipped ones; if a call
that read all of the file returns none, they are complete. -/
theorem Consistent.exact (h : Consistent options inode s) (hsize : 0 < options.maxMsgSize)
    (heof : options.ignoreEof = true) {messages : List Bytes} {rest : Bytes}
    (hal : Decodes (IsLine options.maxMsgSize) s.file messages rest)
    (hen : ¬StartsFrame (IsLine options.maxMsgSize) rest) :
    s.skipped ≤ messages.length ∧ s.delivered <+: messages.drop s.skipped ∧
      ∀ {reads : List ReadResult} {bookmarked : Bool}, (∀ r ∈ reads, r.Working) →
        (s.fetched reads bookmarked).1.msg = none → (s.fetched reads bookmarked).1.unread = [] →
        s.delivered = messages.drop s.skipped := by
  obtain ⟨earlier, he, hd⟩ := h.decodes
  have hf : Decodes (IsLine options.maxMsgSize) s.file (earlier ++ s.delivered)
      (s.server.pending ++ s.file.drop s.offset) := by
    have ha := hd.append (s.file.drop s.offset)
    rwa [take_append_drop] at ha
  obtain ⟨more, rfl, hm⟩ := hf.continues isLine_prefixFree hal hen
  have hdr : (earlier ++ s.delivered ++ more).drop s.skipped = s.delivered ++ more := by
    rw [append_assoc, ← he, drop_left]
  refine ⟨?_, hdr ▸ prefix_append _ _, fun {reads bookmarked} hreads hn hr => ?_⟩
  · rw [append_assoc, length_append, he]
    exact Nat.le_add_right _ _
  · have hmx : s.server.maxMsgSize = options.maxMsgSize := congrArg _ h.options_eq
    obtain ⟨data, hdt, -, -, hst⟩ := h.fetch_step hsize hreads bookmarked
    rw [hr, append_nil] at hdt
    have hs : ¬StartsFrame (IsLine options.maxMsgSize) (s.server.pending ++ data) := by
      cases hst with
      | line _ hms => cases hn.symm.trans hms
      | waiting _ _ _ hs => exact hmx ▸ hs
      | finished _ hnt =>
        rw [h.options_eq, heof] at hnt
        cases hnt
    rw [hdt] at hm
    rw [hdr, hm.eq_nil hs, append_nil]

/-- For every file that only grows, message size and way to cut it into reads, in every run in which
what was in the buffer is read again as far as it is needed: the messages that are fetched after a
restart are those that follow the last confirmed one. These are the messages of the file, as they
are fetched by a run without a restart. -/
theorem restart_exact {maxMsgSize address : ℕ} (hint : maxMsgSize < 2 ^ 31)
    (h : ((system (fileOptions maxMsgSize address) inode).restrict Rereads).Reachable s) :
    ∃ messages rest, Decodes (IsMessage maxMsgSize) s.file messages rest ∧
      ¬StartsFrame (IsMessage maxMsgSize) rest ∧
      (∀ u, ((system (fileOptions maxMsgSize address) inode).restrict Rereads).Reachable u →
        u.file = s.file → u.skipped = 0 → u.delivered <+: messages) ∧
      s.skipped ≤ messages.length ∧ s.delivered <+: messages.drop s.skipped ∧
      ∀ reads bookmarked, (∀ r ∈ reads, r.Working) → (s.fetched reads bookmarked).1.msg = none →
        (s.fetched reads bookmarked).1.unread = [] → s.delivered = messages.drop s.skipped := by
  obtain hz | hsize := Nat.eq_zero_or_pos maxMsgSize
  · have hi := idle_of_reachable hz rfl h.of_restrict
    have hn : ¬StartsFrame (IsMessage maxMsgSize) s.file := by
      rintro ⟨f, m, hf, -⟩
      exact not_isMessage_zero (hz ▸ hf)
    refine ⟨[], s.file, .nil, hn, fun u hu _ _ => ?_, hi.skipped.1.le, ?_, fun _ _ _ _ _ => ?_⟩
    · rw [(idle_of_reachable hz rfl hu.of_restrict).delivered]
    · rw [hi.delivered]
      exact nil_prefix
    · rw [hi.delivered, drop_nil]
  · rw [isMessage_eq hsize]
    obtain ⟨messages, rest, ha, he⟩ :=
      exists_decoding (fun hf => isLine_ne_nil hsize hf) s.file
    have hs := consistent_of_reachable hsize hint rfl rfl h
    obtain ⟨hle, hp, hc⟩ := hs.exact hsize rfl ha he
    refine ⟨messages, rest, ha, he, fun u hu hfl hsk => ?_, hle, hp, fun reads bookmarked => hc⟩
    have hu := consistent_of_reachable hsize hint rfl rfl hu
    have hft := (hu.exact hsize rfl (hfl ▸ ha) he).2.1
    rwa [hsk, drop_zero] at hft

/-- Two lines are read at once, the first is confirmed, and the second is fetched before the
process stops. What was in the buffer is read again up to some byte. -/
def stopped (reread : ReadResult) : List FileReadingOp :=
  [.fetch [.got 9] true, .save 0, .fetch [] true, .restart reread, .fetch [.got 9] true]

def twoLines : FileReading := start (fileOptions 9 0) 1 [0x61, 0x0a, 0x62, 0x0a]

theorem stopped_reachable {n : ℕ} (hn : 0 < n) :
    (system (fileOptions 9 0) 1).Reachable ((stopped (.got n)).foldl apply twoLines) := by
  have ha : Along apply (fun _ op => op.Working) twoLines (stopped (.got n)) := by
    simp [stopped, Along, FileReadingOp.Working, ReadResult.Working, hn]
  have hr := ha.run (M := system (fileOptions 9 0) 1) fun _ _ hop => ⟨hop, rfl⟩
  exact System.Reachable.trans_run (.init ⟨_, rfl⟩) hr

theorem restart_exact_stopped : let s := (stopped (.got 3)).foldl apply twoLines
    s.delivered = [[0x62]] ∧ s.skipped = 1 ∧ ∃ messages rest,
      Decodes (IsMessage 9) [0x61, 0x0a, 0x62, 0x0a] messages rest ∧
        ¬StartsFrame (IsMessage 9) rest ∧ [[0x62]] = messages.drop 1 := by
  intro s
  have ha : Along apply (fun s op => Rereads s op ∧ op.Working) twoLines (stopped (.got 3)) := by
    refine ⟨⟨trivial, ?_⟩, ⟨trivial, trivial⟩, ⟨trivial, ?_⟩, ⟨⟨by decide, .inr ⟨3, rfl, ?_⟩⟩, ?_⟩,
      ⟨trivial, ?_⟩, trivial⟩
    · simp [FileReadingOp.Working, ReadResult.Working]
    · simp [FileReadingOp.Working]
    · exact .inr (by decide)
    · simp [FileReadingOp.Working, ReadResult.Working]
    · simp [FileReadingOp.Working, ReadResult.Working]
  have hrn := ha.run (M := (system (fileOptions 9 0) 1).restrict Rereads)
    fun _ _ hop => ⟨hop.1, hop.2, rfl⟩
  have hr : ((system (fileOptions 9 0) 1).restrict Rereads).Reachable s :=
    System.Reachable.trans_run (.init ⟨_, rfl⟩) hrn
  obtain ⟨messages, rest, hal, he, -, -, -, hc⟩ := restart_exact (by decide) hr
  have hl := hc [] true (by simp) (by decide) (by decide)
  exact ⟨by decide, by decide, messages, rest, hal, he, hl⟩

/-- If less is read again than was returned, the file is read from its start, and the confirmed
message is returned once more. -/
theorem short_reread_repeats : let s := (stopped (.got 2)).foldl apply twoLines
    (system (fileOptions 9 0) 1).Reachable s ∧ s.confirmed = 1 ∧ s.delivered = [[0x61]] ∧
      s.file.take 2 = [0x61, 0x0a] :=
  ⟨stopped_reachable (by decide), by decide, by decide, by decide⟩

end FileReading
end SyslogNg.LogProto
