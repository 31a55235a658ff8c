import SyslogNg.AckTracker.LateTracker

/-!
# A source with a late ack tracker

The source thread requests a bookmark while its window is not empty, tracks the message
it read and takes one from the window; destination threads ack the messages in any order.
An ack sets the flag of its record before it enters the critical section, so the two are
separate steps. Messages are numbered from 0 in the order in which they are tracked.
-/
namespace SyslogNg.AckTracker

open List Option Function RingBuffer

/-- Where the source thread is: `tracked` is between `track_msg` and the decrement of the
window in `log_source_queue`. -/
inductive Phase
  | idle
  | requested
  | tracked
  | freed
  deriving DecidableEq

/-- A critical section that found a contiguous acked range. -/
structure Closing where
  first : ℕ
  length : ℕ
  saved : Option ℕ
  deriving DecidableEq

structure LateSource where
  tracker : LateAckTracker
  windowSize : ℕ
  phase : Phase
  /-- Number of messages tracked so far. -/
  tracked : ℕ
  /-- `msg->ack_record` -/
  ackRecord : ℕ → ℕ
  /-- Type of the ack of a message, once it was called. -/
  ackType : ℕ → Option AckType
  /-- Messages whose ack has left the critical section. -/
  finished : ℕ → Bool
  closings : List Closing
  destroyed : List ℕ

inductive Event
  | request
  | track
  | queue
  | ack (k : ℕ) (type : AckType)
  | process (k : ℕ)
  | free

namespace LateSource

def init (n : ℕ) (tracker : LateAckTracker) : LateSource :=
  ⟨tracker, n, .idle, 0, fun _ => 0, fun _ => none, fun _ => false, [], []⟩

def dropped (s : LateSource) : ℕ := s.tracked - s.tracker.storage.count

def saved (s : LateSource) : List ℕ := s.closings.filterMap Closing.saved

def posted (s : LateSource) : ℕ := if s.phase = .tracked then s.tracked - 1 else s.tracked

/-- The steps the source and the destinations take: bookmarks are requested while the
window is not empty, every posted message is acked once. -/
def Enabled (s : LateSource) : Event → Prop
  | .request => (s.phase = .idle ∨ s.phase = .requested) ∧ 0 < s.windowSize
  | .track => s.phase = .requested
  | .queue => s.phase = .tracked
  | .ack k _ => s.phase ≠ .freed ∧ k < s.posted ∧ s.ackType k = none
  | .process k => s.phase ≠ .freed ∧ s.ackType k ≠ none ∧ s.finished k = false
  | .free => s.phase = .idle ∨ s.phase = .requested

/-- `none` is a failed assertion, a call through a NULL pointer or a record outside the memory of
the ring. The reader fills in the bookmark it was given for the message it reads next. -/
def exec (s : LateSource) : Event → Option LateSource
  | .request =>
    s.tracker.requestBookmark.map fun tracker =>
      match tracker.pending with
      | none => { s with tracker := tracker, phase := .requested }
      | some r =>
        let record : LateAckRecord := ⟨(tracker.storage.buffer r).acked, some s.tracked⟩
        { s with
          tracker := { tracker with storage := tracker.storage.set r record }
          phase := .requested }
  | .track =>
    s.tracker.trackMsg.map fun out =>
      { s with
        tracker := out.2
        phase := .tracked
        tracked := s.tracked + 1
        ackRecord := update s.ackRecord s.tracked out.1 }
  | .queue =>
    if 0 < s.windowSize then some { s with windowSize := s.windowSize - 1, phase := .idle }
    else none
  | .ack k type =>
    some { s with
      tracker := s.tracker.markAcked (s.ackRecord k)
      ackType := update s.ackType k (some type) }
  | .process k =>
    match s.ackType k with
    | none => none
    | some type =>
      (s.tracker.processAck type).map fun out =>
        { s with
          tracker := out.tracker
          windowSize := s.windowSize + out.windowIncrement
          finished := update s.finished k true
          closings := s.closings ++
            if out.rangeLength = 0 then [] else [⟨s.dropped, out.rangeLength, out.saved⟩]
          destroyed := s.destroyed ++ out.destroyed }
  | .free =>
    (dropRange s.tracker.storage s.tracker.storage.count).map fun out =>
      { s with phase := .freed, destroyed := s.destroyed ++ out.1 }

def system (n : ℕ) : System LateSource Event where
  init s := ∃ tracker, LateAckTracker.new n = some tracker ∧ s = init n tracker
  step s e s' := s.Enabled e ∧ s.exec e = some s'

/-- A source with a window of two reads two messages, the later one is acked first. -/
def outOfOrder (later earlier : AckType) : List Event :=
  [.request, .track, .queue, .request, .track, .queue, .ack 1 later, .process 1,
    .ack 0 earlier, .process 0]

def start : LateSource := init 2 ⟨fresh (fun _ => ⟨false, none⟩) recordSize 2, none⟩

theorem init_start : (system 2).init start := ⟨_, rfl, rfl⟩

instance (s : LateSource) : (e : Event) → Decidable (s.Enabled e)
  | .request => inferInstanceAs (Decidable (_ ∧ _))
  | .track => inferInstanceAs (Decidable (_ = _))
  | .queue => inferInstanceAs (Decidable (_ = _))
  | .ack _ _ => inferInstanceAs (Decidable (_ ∧ _))
  | .process _ => inferInstanceAs (Decidable (_ ∧ _))
  | .free => inferInstanceAs (Decidable (_ ∨ _))

def next (s : LateSource) (e : Event) : Option LateSource := if s.Enabled e then s.exec e else none

theorem step_of_next {n : ℕ} (s : LateSource) (e : Event) (s' : LateSource)
    (h : s.next e = some s') : (system n).step s e s' := by
  rw [next, ite_none_right_eq_some] at h
  exact h

/-- The ring holds the records of the last `count` messages, in order; every slot outside
of it is clean. -/
structure RingInv (n : ℕ) (s : LateSource) : Prop where
  wellFormed : s.tracker.storage.WellFormed
  capacity : s.tracker.storage.capacity = n
  count_le : s.tracker.storage.count ≤ s.tracked
  record : ∀ i < s.tracker.storage.count,
    s.ackRecord (s.dropped + i) = s.tracker.storage.slot i
  content : ∀ i < s.tracker.storage.count,
    s.tracker.storage.buffer (s.tracker.storage.slot i) =
      ⟨(s.ackType (s.dropped + i)).isSome, some (s.dropped + i)⟩
  clean : ∀ i, s.tracker.storage.count ≤ i → i < n →
    (s.tracker.storage.buffer (s.tracker.storage.slot i)).acked = false

/-- What the ring has seen: dropped messages are acked, later ones are not posted yet. -/
structure HistoryInv (s : LateSource) : Prop where
  acked : ∀ k < s.dropped, s.ackType k ≠ none
  posted : ∀ k, s.posted ≤ k → s.ackType k = none
  tracked_pos : s.phase = .tracked → 0 < s.tracker.storage.count
  closed : ∀ c ∈ s.closings, c.first + c.length ≤ s.dropped ∧ 0 < c.length ∧
    ∀ k, c.saved = some k → k + 1 = c.first + c.length
  ordered : s.closings.Pairwise fun c d => c.first + c.length ≤ d.first
  destroyed : s.destroyed = List.range (if s.phase = .freed then s.tracked else s.dropped)

/-- The window never promises more room than the ring has. -/
structure WindowInv (n : ℕ) (s : LateSource) : Prop where
  room : s.windowSize + s.tracker.storage.count ≤ if s.phase = .tracked then n + 1 else n
  pending : s.phase = .requested → 0 < s.windowSize ∧
    s.tracker.pending = some s.tracker.storage.tail ∧
    (s.tracker.storage.buffer s.tracker.storage.tail).bookmark = some s.tracked
  queueing : s.phase = .tracked → 0 < s.windowSize

structure Inv (n : ℕ) (s : LateSource) : Prop where
  ring : RingInv n s
  history : HistoryInv s
  window : WindowInv n s

variable {n : ℕ} {s s' : LateSource} {type : AckType} {out : AckOutcome}

theorem RingInv.dropped_add (hr : RingInv n s) : s.dropped + s.tracker.storage.count = s.tracked :=
  Nat.sub_add_cancel hr.count_le

theorem RingInv.slot_ne (hr : RingInv n s) {i j : ℕ} (hi : i < n) (hj : j < n) (hij : i ≠ j) :
    s.tracker.storage.slot i ≠ s.tracker.storage.slot j := by
  intro he
  exact hij (slot_inj (hr.capacity ▸ hi) (hr.capacity ▸ hj) he)

theorem RingInv.count_le_n (hr : RingInv n s) : s.tracker.storage.count ≤ n :=
  hr.capacity ▸ hr.wellFormed.count_le

/-- The critical section drops the longest acked prefix of the ring. -/
structure Processed (s : LateSource) (type : AckType) (out : AckOutcome) : Prop where
  pending : out.tracker.pending = s.tracker.pending
  length_le : out.rangeLength ≤ s.tracker.storage.count
  acked : ∀ i < out.rangeLength, s.ackType (s.dropped + i) ≠ none
  maximal : out.rangeLength < s.tracker.storage.count →
    s.ackType (s.dropped + out.rangeLength) = none
  saved : out.saved = if out.rangeLength = 0 ∨ type = .aborted then none
    else some (s.dropped + out.rangeLength - 1)
  destroyed : out.destroyed = (List.range out.rangeLength).map (s.dropped + ·)
  increment : out.windowIncrement =
    if out.rangeLength = 0 then 0 else if type = .suspended then 1 else out.rangeLength
  wellFormed : out.tracker.storage.WellFormed
  capacity : out.tracker.storage.capacity = s.tracker.storage.capacity
  count : out.tracker.storage.count = s.tracker.storage.count - out.rangeLength
  slot : ∀ i, out.tracker.storage.slot i = s.tracker.storage.slot (out.rangeLength + i)
  emptied : ∀ k < out.rangeLength,
    out.tracker.storage.buffer (s.tracker.storage.slot k) = ⟨false, none⟩
  kept : ∀ j, (∀ k < out.rangeLength, s.tracker.storage.slot k ≠ j) →
    out.tracker.storage.buffer j = s.tracker.storage.buffer j

theorem RingInv.processAck (hr : RingInv n s) (type : AckType) :
    ∃ out, s.tracker.processAck type = some out ∧ Processed s type out := by
  have hwf := hr.wellFormed
  obtain ⟨hle, hal, he⟩ := hwf.getContinualRangeLength_spec LateAckRecord.acked
  unfold LateAckTracker.processAck
  generalize s.tracker.storage.getContinualRangeLength LateAckRecord.acked = r at hle hal he
  have ha : ∀ i < r, s.ackType (s.dropped + i) ≠ none := by
    intro i hi
    have := hal i hi
    rw [hr.content i (by omega)] at this
    exact isSome_iff_ne_none.mp this
  have hm : r < s.tracker.storage.count → s.ackType (s.dropped + r) = none := by
    intro hlt
    have := he hlt
    rw [hr.content r hlt] at this
    exact isNone_iff_eq_none.mp (isSome_eq_false_iff.mp this)
  by_cases h0 : r = 0
  · subst h0
    exact ⟨_, rfl, rfl, Nat.zero_le _, ha, hm, by simp, by simp, by simp, hwf, rfl, by simp,
      fun i => by simp, by simp, fun j _ => rfl⟩
  · obtain ⟨storage, hd, hwf', hcp, hc, hs, hin, ho⟩ := dropRange_spec hwf hle
    have hl : s.tracker.storage.buffer (s.tracker.storage.slot (r - 1)) =
        ⟨true, some (s.dropped + r - 1)⟩ := by
      have hsm := isSome_iff_ne_none.mpr (ha (r - 1) (by omega))
      rw [hr.content (r - 1) (by omega)]
      congr 2
      omega
    rw [if_neg h0, hwf.elementAt_eq (by omega : r - 1 < s.tracker.storage.count), hd]
    simp only [hl]
    refine ⟨_, if_neg (by simp), rfl, hle, ha, hm, ?_, ?_, ?_, hwf', hcp, hc, hs, hin, ho⟩
    · simp [h0]
    · rw [map_eq_flatMap]
      refine flatMap_congr fun k hk => ?_
      rw [mem_range] at hk
      rw [hr.content k (by omega)]
      rfl
    · simp [h0]

/-! ### Steps -/

theorem exec_request (hr : s.exec .request = some s') : ∃ tracker,
    tracker.storage.count = s.tracker.storage.count ∧
      s' = { s with tracker := tracker, phase := .requested } := by
  obtain ⟨tracker, ht, rfl⟩ := map_eq_some_iff.mp hr
  have hs : tracker.storage = s.tracker.storage := by
    rw [LateAckTracker.requestBookmark] at ht
    split at ht
    · cases ht
      rfl
    · rw [ite_none_right_eq_some] at ht
      cases ht.2
      rfl
  split
  · exact ⟨_, by rw [hs], rfl⟩
  · exact ⟨_, by rw [set_count, hs], rfl⟩

theorem init_eq (h0 : 0 < n) (hi : (system n).init s) :
    s = init n ⟨fresh (fun _ => ⟨false, none⟩) recordSize n, none⟩ := by
  obtain ⟨tracker, ht, rfl⟩ := hi
  simp only [LateAckTracker.new, alloc, if_pos h0, map_some, Option.some.injEq] at ht
  rw [← ht]

theorem inv_init (h0 : 0 < n) (hn : recordSize * n < 2 ^ 32) (hi : (system n).init s) :
    Inv n s := by
  obtain rfl := init_eq h0 hi
  have hs : n ≤ 2 ^ 31 := by
    unfold recordSize at hn
    omega
  refine ⟨⟨wellFormed_fresh h0 hs hn, rfl, le_rfl, ?_, ?_, ?_⟩, ⟨?_, ?_, ?_, ?_, ?_, ?_⟩,
    ⟨?_, ?_, ?_⟩⟩ <;> simp [init, dropped, fresh]

theorem Inv.request (h : Inv n s) (hen : s.Enabled .request) :
    ∃ s', s.exec .request = some s' ∧ Inv n s' := by
  obtain ⟨hph, hw⟩ := hen
  have hwf := h.ring.wellFormed
  have hr := h.window.room
  have hnt : s.phase ≠ .tracked := by rcases hph with hp | hp <;> simp [hp]
  rw [if_neg hnt] at hr
  have hlt : s.tracker.storage.count < n := by omega
  have ht := hwf.tailElement_eq (h.ring.capacity ▸ hlt)
  have hne : ∀ i, i < s.tracker.storage.count →
      s.tracker.storage.slot i ≠ s.tracker.storage.slot s.tracker.storage.count :=
    fun i hi => h.ring.slot_ne (by omega) hlt (by omega)
  have hf : s.phase ≠ .freed := by rcases hph with hp | hp <;> simp [hp]
  simp only [exec, LateAckTracker.requestBookmark, ht, if_pos (hwf.inside _)]
  refine ⟨_, rfl, ⟨RingBuffer.WellFormed.set.mpr hwf, h.ring.capacity, h.ring.count_le,
    h.ring.record, ?_, ?_⟩, ⟨h.history.acked, ?_, by simp, h.history.closed, h.history.ordered, ?_⟩,
    ⟨by simpa using hr, fun _ => ⟨hw, ?_, ?_⟩, by simp⟩⟩
  · intro i hi
    exact (set_buffer_of_ne (hne i hi)).trans (h.ring.content i hi)
  · intro i hi hin
    rw [set_slot]
    by_cases hic : i = s.tracker.storage.count
    · subst hic
      rw [set_buffer_self]
      exact h.ring.clean _ le_rfl hin
    · rw [set_buffer_of_ne (h.ring.slot_ne hin hlt hic)]
      exact h.ring.clean i hi hin
  · intro k hk
    refine h.history.posted k ?_
    simpa [posted, hnt] using hk
  · have := h.history.destroyed
    rw [if_neg hf] at this
    simpa [dropped] using this
  · simp [hwf.tail_eq]
  · simp [hwf.tail_eq, set_buffer_self]

theorem Inv.track (h : Inv n s) (hen : s.Enabled .track) :
    ∃ s', s.exec .track = some s' ∧ Inv n s' := by
  have hph : s.phase = .requested := hen
  obtain ⟨hw, hpn, hb⟩ := h.window.pending hph
  have hwf := h.ring.wellFormed
  have hr := h.window.room
  rw [hph, if_neg (by simp)] at hr
  have hlt : s.tracker.storage.count < n := by omega
  obtain ⟨storage, hps, hwf', hbf, hcp, hh, hcn⟩ := hwf.push_eq (h.ring.capacity ▸ hlt)
  have had := h.ring.dropped_add
  have hs : ∀ i, storage.slot i = s.tracker.storage.slot i := by
    intro i
    rw [RingBuffer.slot, hcp, hh, RingBuffer.slot]
  have hd : s.tracked + 1 - storage.count = s.dropped := by omega
  have hpo : s.posted = s.tracked := by simp [posted, hph]
  rw [hwf.tail_eq] at hpn hb
  have hrn : s.exec .track = some { s with
      tracker := ⟨storage, none⟩
      phase := .tracked
      tracked := s.tracked + 1
      ackRecord := update s.ackRecord s.tracked
        (s.tracker.storage.slot s.tracker.storage.count) } := by
    simp [exec, LateAckTracker.trackMsg, hpn, hps]
  refine ⟨_, hrn, ⟨hwf', hcp.trans h.ring.capacity, by dsimp only; omega, ?_, ?_, ?_⟩,
    ⟨?_, ?_, fun _ => by dsimp only; omega, ?_, h.history.ordered, ?_⟩, ⟨?_, by simp, fun _ => hw⟩⟩
  · intro i hi
    change i < storage.count at hi
    change update s.ackRecord s.tracked _ (s.tracked + 1 - storage.count + i) = storage.slot i
    rw [hd, hs]
    by_cases hic : i = s.tracker.storage.count
    · rw [hic, had, update_self]
    · rw [update_of_ne (by omega)]
      exact h.ring.record i (by omega)
  · intro i hi
    change i < storage.count at hi
    change storage.buffer (storage.slot i) =
      ⟨(s.ackType (s.tracked + 1 - storage.count + i)).isSome,
      some (s.tracked + 1 - storage.count + i)⟩
    rw [hd, hs, hbf]
    by_cases hic : i = s.tracker.storage.count
    · have ha := h.ring.clean _ le_rfl hlt
      have hn := h.history.posted s.tracked (by omega)
      rw [hic, had, hn, ← hb]
      exact LateAckRecord.mk.injEq _ _ _ _ |>.mpr ⟨ha, rfl⟩
    · exact h.ring.content i (by omega)
  · intro i hi hin
    simp only [hs, hbf]
    exact h.ring.clean i (by dsimp only at hi; omega) hin
  · intro k hk
    exact h.history.acked k (lt_of_lt_of_eq hk hd)
  · intro k hk
    refine h.history.posted k ?_
    simpa [posted, hph] using hk
  · intro c hc
    have hc' := h.history.closed c hc
    rwa [← hd] at hc'
  · have := h.history.destroyed
    rw [hph, ← hd] at this
    simpa [dropped] using this
  · dsimp only
    rw [if_pos rfl]
    omega

theorem Inv.queue (h : Inv n s) (hen : s.Enabled .queue) :
    ∃ s', s.exec .queue = some s' ∧ Inv n s' := by
  have hph : s.phase = .tracked := hen
  have hw := h.window.queueing hph
  have hr := h.window.room
  rw [if_pos hph] at hr
  refine ⟨_, if_pos hw, { h.ring with }, ⟨h.history.acked, ?_, by simp, h.history.closed,
    h.history.ordered, ?_⟩, ⟨?_, by simp, by simp⟩⟩
  · intro k hk
    refine h.history.posted k ?_
    simp only [posted, hph, if_true] at hk ⊢
    simp at hk
    omega
  · simpa [hph, dropped] using h.history.destroyed
  · dsimp only
    rw [if_neg (by simp)]
    omega

theorem posted_le : s.posted ≤ s.tracked := by
  unfold posted
  split_ifs <;> omega

theorem Inv.count_lt (h : Inv n s) (hph : s.phase = .requested) : s.tracker.storage.count < n := by
  have hr := h.window.room
  have hw := (h.window.pending hph).1
  rw [if_neg (by simp [hph])] at hr
  omega

theorem Inv.ack {k : ℕ} (h : Inv n s) (hen : s.Enabled (.ack k type)) :
    ∃ s', s.exec (.ack k type) = some s' ∧ Inv n s' := by
  obtain ⟨hph, hk, hn⟩ := hen
  have ha := h.ring.dropped_add
  have hle := h.ring.count_le_n
  have hps := posted_le (s := s)
  have hdk : s.dropped ≤ k := by
    by_contra hlt
    exact h.history.acked k (by omega) hn
  obtain ⟨i, rfl⟩ := Nat.exists_eq_add_of_le hdk
  have hi : i < s.tracker.storage.count := by omega
  have hr := h.ring.record i hi
  refine ⟨_, rfl, ⟨RingBuffer.WellFormed.set.mpr h.ring.wellFormed, h.ring.capacity,
    h.ring.count_le, h.ring.record, ?_, ?_⟩, ⟨?_, ?_, h.history.tracked_pos, h.history.closed,
    h.history.ordered, h.history.destroyed⟩, ⟨h.window.room, ?_, h.window.queueing⟩⟩
  · intro j hj
    change j < s.tracker.storage.count at hj
    change (s.tracker.storage.set _ _).buffer (s.tracker.storage.slot j) =
      ⟨(update s.ackType (s.dropped + i) (some type) (s.dropped + j)).isSome, _⟩
    rw [hr]
    by_cases hji : j = i
    · subst hji
      rw [set_buffer_self, update_self, h.ring.content j hj]
      rfl
    · rw [set_buffer_of_ne (h.ring.slot_ne (by omega) (by omega) hji), update_of_ne (by omega)]
      exact h.ring.content j hj
  · intro j hj hjn
    change s.tracker.storage.count ≤ j at hj
    change ((s.tracker.storage.set _ _).buffer (s.tracker.storage.slot j)).acked = false
    rw [hr, set_buffer_of_ne (h.ring.slot_ne hjn (by omega) (by omega))]
    exact h.ring.clean j hj hjn
  · intro j hj
    change j < s.dropped at hj
    dsimp only
    rw [update_of_ne (by omega)]
    exact h.history.acked j hj
  · intro j hj
    change s.posted ≤ j at hj
    dsimp only
    rw [update_of_ne (by omega)]
    exact h.history.posted j hj
  · intro hrq
    obtain ⟨hw, hpn, hb⟩ := h.window.pending hrq
    refine ⟨hw, hpn, ?_⟩
    have hlt := h.count_lt hrq
    change ((s.tracker.storage.set _ _).buffer s.tracker.storage.tail).bookmark = _
    rw [hr, set_buffer_of_ne]
    · exact hb
    · rw [h.ring.wellFormed.tail_eq]
      exact h.ring.slot_ne hlt (by omega) (by omega)

section

variable (hp : Processed s type out)
include hp

theorem Processed.increment_le : out.windowIncrement ≤ out.rangeLength := by
  rw [hp.increment]
  split_ifs <;> omega

theorem Processed.dropped_eq
    (hr : RingInv n s) : s.tracked - out.tracker.storage.count = s.dropped + out.rangeLength := by
  have ha := hr.dropped_add
  have hle := hp.length_le
  rw [hp.count]
  omega

theorem Processed.kept_slot (hr : RingInv n s) {i : ℕ} (hi : out.rangeLength ≤ i) (hin : i < n) :
    out.tracker.storage.buffer (s.tracker.storage.slot i) =
      s.tracker.storage.buffer (s.tracker.storage.slot i) :=
  hp.kept _ fun _ hk => hr.slot_ne (by omega) hin (by omega)

theorem Processed.ring
    (hr : RingInv n s) {window : ℕ} {finished : ℕ → Bool} {closings : List Closing}
    {destroyed : List ℕ} : RingInv n { s with
      tracker := out.tracker, windowSize := window, finished := finished, closings := closings,
      destroyed := destroyed } := by
  have hc := hp.count
  have hn := hr.count_le_n
  have hd := hp.dropped_eq hr
  refine ⟨hp.wellFormed, hp.capacity.trans hr.capacity, ?_, ?_, ?_, ?_⟩
  · have := hr.count_le
    dsimp only
    omega
  · intro i hi
    change i < out.tracker.storage.count at hi
    change s.ackRecord (s.tracked - out.tracker.storage.count + i) = out.tracker.storage.slot i
    rw [hd, hp.slot, Nat.add_assoc]
    exact hr.record _ (by omega)
  · intro i hi
    change i < out.tracker.storage.count at hi
    change out.tracker.storage.buffer (out.tracker.storage.slot i) =
      ⟨(s.ackType (s.tracked - out.tracker.storage.count + i)).isSome,
        some (s.tracked - out.tracker.storage.count + i)⟩
    rw [hd, hp.slot, Nat.add_assoc, hp.kept_slot hr (by omega) (by omega)]
    exact hr.content _ (by omega)
  · intro i hi hin
    change out.tracker.storage.count ≤ i at hi
    rw [hp.slot]
    -- positions past the end of the ring are those the emptied records left
    by_cases hw : out.rangeLength + i < n
    · rw [hp.kept_slot hr (by omega) hw]
      exact hr.clean _ (by omega) hw
    · obtain ⟨m, hm⟩ := Nat.exists_eq_add_of_le (not_lt.mp hw)
      have hrn : s.tracker.storage.slot (n + m) = s.tracker.storage.slot m := by
        rw [RingBuffer.slot, RingBuffer.slot, hr.capacity, Circular.pos_revolution]
      rw [hm, hrn, hp.emptied m (by omega)]

theorem Processed.history {finished : ℕ → Bool}
    (h : Inv n s) (hph : s.phase ≠ .freed) : HistoryInv { s with
      tracker := out.tracker
      windowSize := s.windowSize + out.windowIncrement
      finished := finished
      closings := s.closings ++
        if out.rangeLength = 0 then [] else [⟨s.dropped, out.rangeLength, out.saved⟩]
      destroyed := s.destroyed ++ out.destroyed } := by
  have hd := hp.dropped_eq h.ring
  have ha := h.ring.dropped_add
  refine ⟨?_, h.history.posted, ?_, ?_, ?_, ?_⟩
  · intro k hk
    change k < s.tracked - out.tracker.storage.count at hk
    by_cases hkd : k < s.dropped
    · exact h.history.acked k hkd
    · have := hp.acked (k - s.dropped) (by omega)
      rwa [Nat.add_sub_cancel' (by omega)] at this
  · intro ht
    change 0 < out.tracker.storage.count
    have hps := h.history.tracked_pos ht
    -- the message being queued is not acked, so its record stays
    have hn := h.history.posted (s.dropped + (s.tracker.storage.count - 1)) (by
      rw [posted, if_pos ht]
      omega)
    by_contra hz
    exact hp.acked (s.tracker.storage.count - 1) (by omega) hn
  · intro c hc
    change c.first + c.length ≤ s.tracked - out.tracker.storage.count ∧ _
    rw [hd]
    rcases mem_append.mp hc with hc | hc
    · obtain ⟨h1, h2, h3⟩ := h.history.closed c hc
      exact ⟨by omega, h2, h3⟩
    · split_ifs at hc with hz
      · simp at hc
      · obtain rfl := mem_singleton.mp hc
        refine ⟨le_rfl, by dsimp only; omega, ?_⟩
        intro k hk
        dsimp only at hk ⊢
        rw [hp.saved] at hk
        split_ifs at hk
        injection hk with hk
        omega
  · refine pairwise_append.mpr ⟨h.history.ordered, ?_, ?_⟩
    · split_ifs <;> simp
    · intro c hc d hd'
      split_ifs at hd' with hz
      · simp at hd'
      · obtain rfl := mem_singleton.mp hd'
        exact (h.history.closed c hc).1
  · have hds := h.history.destroyed
    rw [if_neg hph] at hds
    change s.destroyed ++ out.destroyed =
      List.range (if s.phase = .freed then s.tracked else s.tracked - out.tracker.storage.count)
    rw [if_neg hph, hd, hds, hp.destroyed, range_add]

end

theorem Inv.process {k : ℕ} (h : Inv n s) (hen : s.Enabled (.process k)) :
    ∃ s', s.exec (.process k) = some s' ∧ Inv n s' := by
  obtain ⟨hph, ht, hf⟩ := hen
  obtain ⟨type, ht⟩ := ne_none_iff_exists'.mp ht
  obtain ⟨out, hrn, hp⟩ := h.ring.processAck type
  simp only [exec, ht, hrn]
  have hi := hp.increment_le
  have hc := hp.count
  have hle := hp.length_le
  refine ⟨_, rfl, hp.ring h.ring, hp.history h hph, ?_, ?_, ?_⟩
  · have := h.window.room
    dsimp only
    omega
  · intro hr
    obtain ⟨hw, hpn, hb⟩ := h.window.pending hr
    have hlt := h.count_lt hr
    have htl : out.tracker.storage.tail = s.tracker.storage.tail := by
      rw [hp.wellFormed.tail_eq, h.ring.wellFormed.tail_eq, hp.slot]
      congr 1
      omega
    dsimp only
    refine ⟨by omega, by rw [hp.pending, hpn, htl], ?_⟩
    rw [htl, h.ring.wellFormed.tail_eq, hp.kept_slot h.ring hle hlt]
    rwa [h.ring.wellFormed.tail_eq] at hb
  · intro htr
    have := h.window.queueing htr
    dsimp only
    omega

theorem Inv.free (h : Inv n s) (hen : s.Enabled .free) :
    ∃ s', s.exec .free = some s' ∧ Inv n s' := by
  have hnt : s.phase ≠ .tracked := by rcases hen with hp | hp <;> simp [hp]
  have hnf : s.phase ≠ .freed := by rcases hen with hp | hp <;> simp [hp]
  obtain ⟨storage, hd, -⟩ := dropRange_spec h.ring.wellFormed le_rfl
  simp only [exec, hd, map_some]
  refine ⟨_, rfl, { h.ring with }, ⟨h.history.acked, ?_, by simp, h.history.closed,
    h.history.ordered, ?_⟩, ⟨?_, by simp, by simp⟩⟩
  · intro k hk
    refine h.history.posted k ?_
    simpa [posted, hnt] using hk
  · have hds := h.history.destroyed
    rw [if_neg hnf] at hds
    have hr : (List.range s.tracker.storage.count).flatMap
        (fun k => (s.tracker.storage.buffer (s.tracker.storage.slot k)).bookmark.toList) =
        (List.range s.tracker.storage.count).map (s.dropped + ·) := by
      rw [map_eq_flatMap]
      refine flatMap_congr fun k hk => ?_
      rw [h.ring.content k (mem_range.mp hk)]
      rfl
    rw [if_pos rfl, hds, hr, ← range_add, h.ring.dropped_add]
  · have := h.window.room
    rw [if_neg hnt] at this
    simpa using this

/-- No assertion of the tracker or of the source fails in an enabled step. -/
theorem Inv.exec {e : Event} (h : Inv n s) (hen : s.Enabled e) :
    ∃ s', s.exec e = some s' ∧ Inv n s' := by
  cases e with
  | request => exact h.request hen
  | track => exact h.track hen
  | queue => exact h.queue hen
  | ack k type => exact h.ack hen
  | process k => exact h.process hen
  | free => exact h.free hen

theorem Inv.step {e : Event} (h : Inv n s) (hs : (system n).step s e s') : Inv n s' := by
  obtain ⟨hen, hr⟩ := hs
  obtain ⟨s'', hr', h'⟩ := h.exec hen
  rw [hr] at hr'
  injection hr' with hr'
  exact hr' ▸ h'

theorem inv_reachable (h0 : 0 < n) (hn : recordSize * n < 2 ^ 32) (hs : (system n).Reachable s) :
    Inv n s :=
  System.Reachable.invariant (fun _ hi => inv_init h0 hn hi) (fun _ _ _ h hs => h.step hs) hs

end LateSource
end SyslogNg.AckTracker
