import SyslogNg.AckTracker.LateSource

/-!
# Bookmarks saved by the late tracker

Which bookmarks a run saves, in terms of the order in which the messages were acked. A
message leaves the tracker with the first critical section entered after it and all
earlier messages were flagged; only the type of that one ack decides whether the bookmark
of the range is saved.
-/
namespace SyslogNg.AckTracker.LateSource

open SyslogNg.System List Option Function

variable {n : ℕ} {s s' s₀ : LateSource}

theorem Inv.acked_of_saved (h : Inv n s) {k j : ℕ} (hk : k ∈ s.saved) (hj : j ≤ k) :
    s.ackType j ≠ none := by
  obtain ⟨c, hc, hs⟩ := mem_filterMap.mp hk
  obtain ⟨hle, -, hl⟩ := h.history.closed c hc
  have := hl k hs
  exact h.history.acked j (by omega)

theorem Inv.saved_increasing (h : Inv n s) : s.saved.Pairwise (· < ·) := by
  refine pairwise_filterMap.mpr (h.history.ordered.imp_of_mem ?_)
  intro c d hc hd hcd k hk k' hk'
  have hl := (h.history.closed c hc).2.2 k hk
  have hl' := (h.history.closed d hd).2.2 k' hk'
  have hp := (h.history.closed d hd).2.1
  omega

theorem Inv.destroyed_nodup (h : Inv n s) : s.destroyed.Nodup :=
  h.history.destroyed ▸ nodup_range

def AckedProcessed (_ : LateSource) : Event → Prop
  | .ack _ type => type = .processed
  | _ => True

def ackTypeAfter (s : LateSource) : Event → ℕ → Option AckType
  | .ack k type => Function.update s.ackType k (some type)
  | _ => s.ackType

theorem exec_ackType {e : Event} (hr : s.exec e = some s') : s'.ackType = s.ackTypeAfter e := by
  cases e with
  | request =>
    obtain ⟨tracker, -, rfl⟩ := exec_request hr
    rfl
  | track =>
    obtain ⟨out, -, rfl⟩ := map_eq_some_iff.mp hr
    rfl
  | queue =>
    simp only [exec, ite_none_right_eq_some, Option.some.injEq] at hr
    rw [← hr.2]
    rfl
  | ack k type =>
    cases hr
    rfl
  | process k =>
    simp only [exec] at hr
    split at hr
    · cases hr
    · obtain ⟨out, -, rfl⟩ := map_eq_some_iff.mp hr
      rfl
  | free =>
    obtain ⟨out, -, rfl⟩ := map_eq_some_iff.mp hr
    rfl

theorem ackType_processed (hs : ((system n).restrict AckedProcessed).Reachable s) (k : ℕ)
    (hk : s.ackType k ≠ none) : s.ackType k = some .processed := by
  revert k
  refine Reachable.invariant (I := fun s => ∀ k, s.ackType k ≠ none → s.ackType k = some .processed)
    ?_ ?_ hs
  · rintro s ⟨tracker, -, rfl⟩ k hk
    exact absurd rfl hk
  · rintro s e s' ih ⟨hok, hen, hr⟩ k
    rw [exec_ackType hr]
    cases e with
    | ack j type =>
      by_cases hkj : k = j
      · intro
        rw [hkj, ackTypeAfter, update_self, show type = .processed from hok]
      · rw [ackTypeAfter, update_of_ne hkj]
        exact ih k
    | _ => exact ih k

/-! ### Rings whose memory is too small -/

/-- `k` messages were read and none is acked. -/
structure Unacked (n k : ℕ) (s : LateSource) : Prop where
  idle : s.phase = .idle
  window : s.windowSize + k = n
  tail : s.tracker.storage.tail = k
  count : s.tracker.storage.count = k
  capacity : s.tracker.storage.capacity = n
  size : s.tracker.storage.elementSize = recordSize
  allocated : s.tracker.storage.allocated = recordSize * n % 2 ^ 32

def readMessage : List Event := [.request, .track, .queue]

section

variable {k : ℕ} (h : Unacked n k s) (hk : k < n)
include h hk

theorem Unacked.tailElement_eq : s.tracker.storage.tailElement = some k := by
  have hne : s.tracker.storage.capacity ≠ s.tracker.storage.count := by
    rw [h.capacity, h.count]
    omega
  simp [RingBuffer.tailElement, RingBuffer.isFull, hne, h.tail]

theorem Unacked.read (hs : k + 1 < n) (hn : n < 2 ^ 32) (hin : s.tracker.storage.Inside k) :
    ∃ s', readMessage.foldlM next s = some s' ∧ Unacked n (k + 1) s' := by
  have hw := h.window
  have ht := h.tailElement_eq hk
  have hp : 0 < s.windowSize := by omega
  refine ⟨{ s with
    tracker := ⟨{ s.tracker.storage.set k ⟨(s.tracker.storage.buffer k).acked, some s.tracked⟩ with
      count := k + 1, tail := k + 1 }, none⟩
    windowSize := s.windowSize - 1
    phase := .idle
    tracked := s.tracked + 1
    ackRecord := update s.ackRecord s.tracked k }, ?_,
    ⟨rfl, by dsimp only; omega, rfl, rfl, h.capacity, h.size, h.allocated⟩⟩
  have hps : (s.tracker.storage.set k ⟨(s.tracker.storage.buffer k).acked, some s.tracked⟩).push =
      some (k, { s.tracker.storage.set k ⟨(s.tracker.storage.buffer k).acked, some s.tracked⟩ with
        count := k + 1, tail := k + 1 }) := by
    have ht' : (s.tracker.storage.set k
      ⟨(s.tracker.storage.buffer k).acked, some s.tracked⟩).tailElement = some k := ht
    have hc : (k + 1) % 2 ^ 32 = k + 1 := Nat.mod_eq_of_lt (by omega)
    have hm : (k + 1) % n = k + 1 := Nat.mod_eq_of_lt hs
    simp only [RingBuffer.push, ht']
    simp only [RingBuffer.set, h.count, h.tail, h.capacity, hc, hm]
  simp [readMessage, next, Enabled, exec, LateAckTracker.requestBookmark, LateAckTracker.trackMsg,
    hps, ht, hin, h.idle, hp]

end

theorem unacked_reachable {k : ℕ} (h1 : n < 2 ^ 31) (hk : k < n)
    (hle : k * recordSize ≤ recordSize * n % 2 ^ 32) :
    ∃ s, ((system n).restrict AckedProcessed).Reachable s ∧ Unacked n k s := by
  induction k with
  | zero =>
    exact ⟨_, .init ⟨_, by rw [LateAckTracker.new, RingBuffer.alloc, if_pos hk]; rfl, rfl⟩,
      ⟨rfl, rfl, rfl, rfl, rfl, rfl, rfl⟩⟩
  | succ k ih =>
    rw [Nat.succ_mul] at hle
    obtain ⟨s, hs, hu⟩ := ih (by omega) (by omega)
    have hin : s.tracker.storage.Inside k := by
      rw [RingBuffer.Inside, hu.size, hu.allocated]
      omega
    obtain ⟨s', hr, hu'⟩ := hu.read (by omega) hk (by omega) hin
    have hok : ∀ s, ∀ e ∈ readMessage, AckedProcessed s e := by simp [readMessage, AckedProcessed]
    exact ⟨s', hs.trans_run ((Run.of_foldlM step_of_next hr).restrict hok), hu'⟩

/-- A product that wraps around leaves no room for the last of the records the window lets the
source read. -/
theorem request_outside (h1 : n < 2 ^ 31) (hn : 2 ^ 32 ≤ recordSize * n) :
    ∃ s, ((system n).restrict AckedProcessed).Reachable s ∧ s.Enabled .request ∧
      s.exec .request = none := by
  obtain ⟨hlt, hle, hgt⟩ : recordSize * n % 2 ^ 32 / recordSize < n ∧
      recordSize * n % 2 ^ 32 / recordSize * recordSize ≤ recordSize * n % 2 ^ 32 ∧
      recordSize * n % 2 ^ 32 <
        recordSize * n % 2 ^ 32 / recordSize * recordSize + recordSize := by
    unfold recordSize at *
    omega
  obtain ⟨s, hs, hu⟩ := unacked_reachable h1 hlt hle
  have hw := hu.window
  refine ⟨s, hs, ⟨.inl hu.idle, by omega⟩, ?_⟩
  have hlt' := Nat.mod_lt (recordSize * n) (show 2 ^ 32 > 0 by decide)
  have hout : ¬s.tracker.storage.Inside (recordSize * n % 2 ^ 32 / recordSize) := by
    rw [RingBuffer.Inside, hu.size, hu.allocated]
    omega
  rw [exec, LateAckTracker.requestBookmark, hu.tailElement_eq hlt]
  simp only [if_neg hout, map_none]

/-- With acks of type `AT_PROCESSED` in any order, a bookmark is saved only once all earlier
messages are acked, in increasing order, and destroyed at most once, and no assertion fails, exactly
if the size of all records is a `guint32`. -/
theorem saved_bookmarks_acked_iff (h0 : 0 < n) (h1 : n < 2 ^ 31) :
    (∀ s, ((system n).restrict AckedProcessed).Reachable s →
      (∀ k ∈ s.saved, ∀ j ≤ k, s.ackType j = some .processed) ∧ s.saved.Pairwise (· < ·) ∧
        s.destroyed.Nodup ∧ ∀ e, s.Enabled e → ∃ s', s.exec e = some s') ↔
      recordSize * n < 2 ^ 32 := by
  constructor
  · intro h
    by_contra hn
    obtain ⟨s, hs, hen, hf⟩ := request_outside h1 (not_lt.mp hn)
    obtain ⟨s', hr⟩ := (h s hs).2.2.2 _ hen
    rw [hf] at hr
    cases hr
  · intro hn s hs
    have h := inv_reachable h0 hn hs.of_restrict
    refine ⟨?_, h.saved_increasing, h.destroyed_nodup, ?_⟩
    · intro k hk j hj
      exact ackType_processed hs j (h.acked_of_saved hk hj)
    · intro e hen
      obtain ⟨s', hr, -⟩ := h.exec hen
      exact ⟨s', hr⟩

theorem saved_bookmarks_acked_outOfOrder :
    ∃ s : LateSource, s.saved = [1] ∧ (∀ k ∈ s.saved, ∀ j ≤ k, s.ackType j = some .processed) ∧
      s.saved.Pairwise (· < ·) ∧ s.destroyed.Nodup ∧
      ∀ e, s.Enabled e → ∃ s', s.exec e = some s' := by
  have hrn : ((outOfOrder .processed .processed).foldlM next start).map saved = some [1] := by
    decide +kernel
  obtain ⟨s, hs, hsv⟩ := map_eq_some_iff.mp hrn
  have hok : ∀ s, ∀ e ∈ outOfOrder .processed .processed, AckedProcessed s e := by
    simp [outOfOrder, AckedProcessed]
  have hr := (Reachable.init (M := (system 2).restrict AckedProcessed) init_start).trans_run
    ((Run.of_foldlM step_of_next hs).restrict hok)
  exact ⟨s, hsv, (saved_bookmarks_acked_iff (by decide) (by decide)).mpr (by decide) s hr⟩

/-- The ring of a window of 25565282 messages has 80 bytes, in which no record fits: the first
request gives the reader a record that lies outside of them. -/
theorem request_outside_ring : ∃ tracker, LateAckTracker.new 25565282 = some tracker ∧
    tracker.storage.allocated = 80 ∧ (∀ r, ¬tracker.storage.Inside r) ∧
    (init 25565282 tracker).Enabled .request ∧ (init 25565282 tracker).exec .request = none := by
  refine ⟨_, rfl, by decide, fun r hr => ?_, by decide, by decide +kernel⟩
  have hle : recordSize ≤ recordSize * 25565282 % 2 ^ 32 := (Nat.le_add_left _ _).trans hr
  exact absurd hle (by decide)

/-! ### Aborted messages -/

/-- Some ack entered the critical section after messages `0 … j` had all been flagged. -/
def Completed (as : List Event) (j : ℕ) : Prop :=
  ∃ pre m rest, as = pre ++ .process m :: rest ∧ ∀ i ≤ j, ∃ type, .ack i type ∈ pre

/-- For every aborted message, the first ack to enter the critical section after this and all
earlier messages were flagged is of type `AT_ABORTED` too. -/
def AbortCompletes (as : List Event) : Prop :=
  ∀ pre m rest j, as = pre ++ .process m :: rest → ¬Completed pre j →
    (∀ i ≤ j, ∃ type, .ack i type ∈ pre) → .ack j .aborted ∈ pre → .ack m .aborted ∈ pre

/-- No critical section saved a bookmark of a range over an aborted message of it. -/
def AbortsKept (s : LateSource) : Prop :=
  ∀ c ∈ s.closings, ∀ j, c.first ≤ j → j < c.first + c.length → s.ackType j = some .aborted →
    ∀ k, j ≤ k → c.saved ≠ some k

theorem concat_eq_split {as pre rest : List Event} {a e : Event} : as ++ [a] = pre ++ e :: rest ↔
      (∃ rest', rest = rest' ++ [a] ∧ as = pre ++ e :: rest') ∨ (rest = [] ∧ as = pre ∧ a = e) := by
  constructor
  · intro h
    rcases eq_nil_or_concat rest with rfl | ⟨rest', b, rfl⟩
    · obtain ⟨h1, h2⟩ := append_inj' h rfl
      injection h2 with h2
      exact .inr ⟨rfl, h1, h2⟩
    · rw [concat_eq_append, ← cons_append, ← append_assoc] at h
      obtain ⟨h1, h2⟩ := append_inj' h rfl
      injection h2 with h2
      exact .inl ⟨rest', by rw [concat_eq_append, h2], h1⟩
  · rintro (⟨rest', rfl, rfl⟩ | ⟨rfl, rfl, rfl⟩) <;> simp

theorem completed_concat {as : List Event} {a : Event} {j : ℕ} : Completed (as ++ [a]) j ↔
      Completed as j ∨ ∃ m, a = .process m ∧ ∀ i ≤ j, ∃ type, .ack i type ∈ as := by
  constructor
  · rintro ⟨pre, m, rest, hs, ha⟩
    rcases concat_eq_split.mp hs with ⟨rest', rfl, rfl⟩ | ⟨rfl, rfl, rfl⟩
    · exact .inl ⟨pre, m, rest', rfl, ha⟩
    · exact .inr ⟨m, rfl, ha⟩
  · rintro (⟨pre, m, rest, rfl, ha⟩ | ⟨m, rfl, ha⟩)
    · exact ⟨pre, m, rest ++ [a], by simp, ha⟩
    · exact ⟨as, m, [], rfl, ha⟩

theorem abortCompletes_concat {as : List Event} {a : Event} :
    AbortCompletes (as ++ [a]) ↔ AbortCompletes as ∧ ∀ m, a = .process m → ∀ j, ¬Completed as j →
      (∀ i ≤ j, ∃ type, .ack i type ∈ as) → .ack j .aborted ∈ as → .ack m .aborted ∈ as := by
  constructor
  · intro h
    refine ⟨fun pre m rest j hs => ?_, fun m ha j => ?_⟩
    · exact h pre m (rest ++ [a]) j (by simp [hs])
    · exact h as m [] j (by rw [ha])
  · rintro ⟨hin, hl⟩ pre m rest j hs
    rcases concat_eq_split.mp hs with ⟨rest', rfl, rfl⟩ | ⟨rfl, rfl, rfl⟩
    · exact hin pre m rest' j rfl
    · exact hl m rfl j

theorem Inv.dropped_eq (h : Inv n s) (hp : s.phase ≠ .freed) : s.dropped = s.destroyed.length := by
  rw [h.history.destroyed, if_neg hp, length_range]

theorem Inv.exec_dropped {e : Event} (h : Inv n s) (hen : s.Enabled e)
    (hr : s.exec e = some s') (he : ∀ m, e ≠ .process m) :
    s'.dropped = s.dropped ∧ s'.closings = s.closings := by
  obtain ⟨s'', hr', h'⟩ := h.exec hen
  obtain rfl : s' = s'' := by rw [hr] at hr'; exact Option.some.inj hr'
  cases e with
  | request =>
    obtain ⟨tracker, hc, rfl⟩ := exec_request hr
    exact ⟨congrArg (s.tracked - ·) hc, rfl⟩
  | track =>
    have hp : s.phase = .requested := hen
    obtain ⟨out, -, rfl⟩ := map_eq_some_iff.mp hr
    refine ⟨?_, rfl⟩
    rw [h'.dropped_eq (by simp), h.dropped_eq (by simp [hp])]
  | queue =>
    simp only [LateSource.exec, ite_none_right_eq_some, Option.some.injEq] at hr
    rw [← hr.2]
    exact ⟨rfl, rfl⟩
  | ack k type =>
    cases hr
    exact ⟨rfl, rfl⟩
  | process k => exact absurd rfl (he k)
  | free =>
    obtain ⟨out, -, rfl⟩ := map_eq_some_iff.mp hr
    exact ⟨rfl, rfl⟩

theorem Inv.exec_process {m : ℕ} (h : Inv n s) (hr : s.exec (.process m) = some s') :
    ∃ type out, s.ackType m = some type ∧ Processed s type out ∧
      s'.dropped = s.dropped + out.rangeLength ∧ s'.closings = s.closings ++
        if out.rangeLength = 0 then [] else [⟨s.dropped, out.rangeLength, out.saved⟩] := by
  simp only [LateSource.exec] at hr
  split at hr
  · cases hr
  · next type ht =>
    obtain ⟨out, ho, hp⟩ := h.ring.processAck type
    rw [ho] at hr
    cases hr
    exact ⟨type, out, ht, hp, hp.dropped_eq h.ring, rfl⟩

theorem Inv.lt_of_acked (h : Inv n s) {k : ℕ} (hk : s.ackType k ≠ none) : k < s.tracked := by
  by_contra hle
  exact hk (h.history.posted k (posted_le.trans (not_lt.mp hle)))

/-- The range extends exactly over the messages all of whose predecessors are acked. -/
theorem Processed.lt_iff {type : AckType} {out : AckOutcome} (hp : Processed s type out)
    (h : Inv n s) {j : ℕ} : j < s.dropped + out.rangeLength ↔
      j < s.dropped ∨ ∀ i ≤ j, s.ackType i ≠ none := by
  have had := h.ring.dropped_add
  constructor
  · intro hj
    refine .inr fun i hi => ?_
    by_cases hid : i < s.dropped
    · exact h.history.acked i hid
    · have := hp.acked (i - s.dropped) (by omega)
      rwa [Nat.add_sub_cancel' (by omega)] at this
  · rintro (hj | ha)
    · omega
    · by_contra hge
      have hlt := h.lt_of_acked (ha j le_rfl)
      exact ha (s.dropped + out.rangeLength) (by omega) (hp.maximal (by omega))

section Runs

variable {as : List Event} (h0 : 0 < n) (h1 : recordSize * n < 2 ^ 32) (hi : (system n).init s₀)
include hi

theorem ackType_eq_some_iff (hr : (system n).Run s₀ as s) {k : ℕ} {type : AckType} :
    s.ackType k = some type ↔ .ack k type ∈ as := by
  induction hr with
  | nil =>
    obtain ⟨tracker, -, rfl⟩ := hi
    simp [init]
  | @snoc as s e s' _ hs ih =>
    obtain ⟨hen, hrn⟩ := hs
    rw [exec_ackType hrn]
    cases e with
    | ack j type' =>
      have hn : s.ackType j = none := hen.2.2
      by_cases hkj : k = j
      · subst hkj
        have hnt : .ack k type ∉ as := fun hm => by simp [ih.mpr hm] at hn
        simp [ackTypeAfter, hnt, eq_comm]
      · rw [ackTypeAfter, update_of_ne hkj, ih]
        simp [hkj]
    | _ => simpa [ackTypeAfter] using ih

include h0 h1

theorem inv_run (hr : (system n).Run s₀ as s) : Inv n s :=
  inv_reachable h0 h1 ((Reachable.init hi).trans_run hr)

/-- A message has left the tracker once an ack entered the critical section after it and all
earlier messages had been flagged. -/
theorem lt_dropped_iff (hr : (system n).Run s₀ as s) {j : ℕ} : j < s.dropped ↔ Completed as j := by
  induction hr with
  | nil =>
    obtain ⟨tracker, -, rfl⟩ := hi
    simp [init, dropped, Completed]
  | @snoc as s e s' hr hs ih =>
    have h := inv_run h0 h1 hi hr
    rw [completed_concat, ← ih]
    by_cases he : ∃ m, e = .process m
    · obtain ⟨m, rfl⟩ := he
      obtain ⟨type, out, -, hp, hd, -⟩ := h.exec_process hs.2
      rw [hd, hp.lt_iff h]
      simp [← ackType_eq_some_iff hi hr, ne_none_iff_exists']
    · rw [(h.exec_dropped hs.1 hs.2 fun m hm => he ⟨m, hm⟩).1]
      refine ⟨.inl, ?_⟩
      rintro (hj | ⟨m, hm, -⟩)
      · exact hj
      · exact absurd ⟨m, hm⟩ he

end Runs

theorem Inv.abortsKept_exec {e : Event} (h : Inv n s) (hen : s.Enabled e)
    (hr : s.exec e = some s') (he : ∀ m, e ≠ .process m) : AbortsKept s' ↔ AbortsKept s := by
  unfold AbortsKept
  rw [(h.exec_dropped hen hr he).2]
  refine forall₂_congr fun c hc => forall₃_congr fun j hj hjl => ?_
  have ha := h.history.acked j (by have := (h.history.closed c hc).1; omega)
  rw [exec_ackType hr]
  cases e with
  | ack k type =>
    have hn : s.ackType k = none := hen.2.2
    rw [ackTypeAfter, update_of_ne]
    rintro rfl
    exact ha hn
  | _ => rfl

/-- A critical section keeps the aborted messages exactly if it saves nothing over one. -/
theorem Inv.abortsKept_process {m : ℕ} (h : Inv n s) (hr : s.exec (.process m) = some s') :
    AbortsKept s' ↔ AbortsKept s ∧ ∀ j, s.dropped ≤ j → (∀ i ≤ j, s.ackType i ≠ none) →
      s.ackType j = some .aborted → s.ackType m = some .aborted := by
  obtain ⟨type, out, hty, hp, -, hc⟩ := h.exec_process hr
  have hac : s'.ackType = s.ackType := exec_ackType hr
  unfold AbortsKept
  rw [hc, hac, hty]
  have hm : ∀ P : Closing → Prop,
      (∀ c ∈ s.closings ++ if out.rangeLength = 0 then []
        else [⟨s.dropped, out.rangeLength, out.saved⟩], P c) ↔
      (∀ c ∈ s.closings, P c) ∧
        (out.rangeLength ≠ 0 → P ⟨s.dropped, out.rangeLength, out.saved⟩) := by
    intro P
    rw [forall_mem_append]
    by_cases hz : out.rangeLength = 0 <;> simp
  rw [hm]
  refine and_congr Iff.rfl ⟨fun hn j hj hal ha => ?_, fun hn hz j hj hjl ha k hk => ?_⟩
  · have hjl := (hp.lt_iff h).mpr (.inr hal)
    have hz : out.rangeLength ≠ 0 := by omega
    have hs := hn hz j hj hjl ha (s.dropped + out.rangeLength - 1) (by omega)
    by_contra hne
    have hne : type ≠ .aborted := fun ht => hne (by rw [ht])
    exact hs (by simp [hp.saved, hz, hne])
  · have hal := ((hp.lt_iff h).mp hjl).resolve_left (by simpa using hj)
    have := hn j hj hal ha
    simp only [Option.some.injEq] at this
    simp [hp.saved, this]

/-- In every run, no bookmark was saved over an aborted message if and only if the acks came in
an order in which every aborted message's range was completed by an aborted ack. -/
theorem abortsKept_iff {as : List Event} (h0 : 0 < n) (h1 : recordSize * n < 2 ^ 32)
    (hi : (system n).init s₀) (hr : (system n).Run s₀ as s) : AbortsKept s ↔ AbortCompletes as := by
  induction hr with
  | nil =>
    obtain ⟨tracker, -, rfl⟩ := hi
    simp [init, AbortsKept, AbortCompletes]
  | @snoc as s e s' hr hs ih =>
    have h := inv_run h0 h1 hi hr
    rw [abortCompletes_concat, ← ih]
    by_cases he : ∃ m, e = .process m
    · obtain ⟨m, rfl⟩ := he
      rw [h.abortsKept_process hs.2]
      simp [← lt_dropped_iff h0 h1 hi hr, ← ackType_eq_some_iff hi hr, ne_none_iff_exists']
    · rw [h.abortsKept_exec hs.1 hs.2 fun m hm => he ⟨m, hm⟩]
      exact ⟨fun hk => ⟨hk, fun m hm => absurd ⟨m, hm⟩ he⟩, And.left⟩

theorem abortsKept_iff_outOfOrder :
    ∃ s, (system 2).Run start (outOfOrder .processed .aborted) s ∧ AbortsKept s ∧
      AbortCompletes (outOfOrder .processed .aborted) := by
  have hrn : ((outOfOrder .processed .aborted).foldlM next start).map closings =
      some [⟨0, 2, none⟩] := by
    decide +kernel
  obtain ⟨s, hs, hc⟩ := map_eq_some_iff.mp hrn
  have hr : (system 2).Run start _ s := Run.of_foldlM step_of_next hs
  have hk : AbortsKept s := by simp [AbortsKept, hc]
  exact ⟨s, hr, hk, (abortsKept_iff (by decide) (by decide) init_start hr).mp hk⟩

/-- The later message is acked `AT_ABORTED`, then the earlier one `AT_PROCESSED`: the bookmark
of the aborted message is saved. -/
theorem outOfOrder_saves_aborted : ∃ s, (system 2).Run start (outOfOrder .aborted .processed) s ∧
      s.ackType 1 = some .aborted ∧ s.closings = [⟨0, 2, some 1⟩] ∧ ¬AbortsKept s := by
  have hr : ((outOfOrder .aborted .processed).foldlM next start).map
      (fun s => (s.ackType 1, s.closings)) = some (some .aborted, [⟨0, 2, some 1⟩]) := by
    decide +kernel
  obtain ⟨s, hs, ho⟩ := map_eq_some_iff.mp hr
  obtain ⟨ht, hc⟩ := Prod.mk.inj ho
  refine ⟨s, Run.of_foldlM step_of_next hs, ht, hc, fun hk => ?_⟩
  exact hk ⟨0, 2, some 1⟩ (by simp [hc]) 1 (by decide) (by decide) ht 1 le_rfl rfl

/-- For acks of any types in any order: the bookmarks of the messages that left the ring, which were
all acked, were destroyed once each and in this order, and so are the others with the tracker. -/
theorem bookmarks_destroyed (h0 : 0 < n) (h1 : recordSize * n < 2 ^ 32)
    (hs : (system n).Reachable s) :
    s.destroyed = List.range (if s.phase = .freed then s.tracked else s.dropped) ∧
      ∀ k < s.dropped, s.ackType k ≠ none := by
  have hh := (inv_reachable h0 h1 hs).history
  exact ⟨hh.destroyed, hh.acked⟩

/-- A range of two messages is dropped, a third one is read, and the tracker is freed. -/
theorem bookmarks_destroyed_freed : ∃ s, (system 2).Run start
      (outOfOrder .aborted .suspended ++ readMessage ++ [.free]) s ∧ s.phase = .freed ∧
      s.dropped = 2 ∧ s.destroyed = [0, 1, 2] ∧ ∀ k < 2, s.ackType k ≠ none := by
  have hr : ((outOfOrder .aborted .suspended ++ readMessage ++ [Event.free]).foldlM next start).map
      (fun s => (s.phase, s.dropped, s.tracked)) = some (.freed, 2, 3) := by
    decide +kernel
  obtain ⟨s, hs, ho⟩ := map_eq_some_iff.mp hr
  obtain ⟨hp, hd, ht⟩ : s.phase = .freed ∧ s.dropped = 2 ∧ s.tracked = 3 := by simpa using ho
  have hrun : (system 2).Run start _ s := Run.of_foldlM step_of_next hs
  have h := bookmarks_destroyed (by decide) (by decide) ((Reachable.init init_start).trans_run hrun)
  rw [if_pos hp, hd, ht] at h
  exact ⟨s, hrun, hp, hd, h.1, h.2⟩

end SyslogNg.AckTracker.LateSource
