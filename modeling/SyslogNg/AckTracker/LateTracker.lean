import SyslogNg.AckTracker.RingBuffer
import SyslogNg.Foundations.Run
import SyslogNg.LogMsg.RefCount

/-!
# The late ack tracker

`lib/late_ack_tracker.c`: the record of every message lies in a ring until all earlier
messages and the message itself are acked. A record is named by its element number; its
bookmark is represented by the number of the message the reader filled it in for, and by
`none` when its function pointers are NULL. A failed assertion, a call through a NULL pointer and
a record outside the memory of the ring are `none`.
-/
namespace SyslogNg.AckTracker

open List

structure LateAckRecord where
  acked : Bool
  bookmark : Option ℕ
  deriving DecidableEq

/-- `sizeof(LateAckRecord)` -/
def recordSize : ℕ := 168

structure LateAckTracker where
  storage : RingBuffer LateAckRecord
  pending : Option ℕ

/-- What `late_ack_tracker_manage_msg_ack` did inside its critical section. -/
structure AckOutcome where
  tracker : LateAckTracker
  rangeLength : ℕ
  saved : Option ℕ
  destroyed : List ℕ
  windowIncrement : ℕ

/-- The loop of `_drop_range` from index `i` on. -/
def dropRecords : ℕ → ℕ → RingBuffer LateAckRecord → Option (List ℕ × RingBuffer LateAckRecord)
  | 0, _, s => some ([], s)
  | n + 1, i, s =>
    match s.elementAt i with
    | none => none
    | some r =>
      (dropRecords n (i + 1) (s.set r ⟨false, none⟩)).map fun out =>
        ((s.buffer r).bookmark.toList ++ out.1, out.2)

/-- `_drop_range`, with the bookmarks it destroyed. -/
def dropRange (s : RingBuffer LateAckRecord) (n : ℕ) : Option (List ℕ × RingBuffer LateAckRecord) :=
  (dropRecords n 0 s).map fun out => (out.1, (out.2.drop n).2)

namespace LateAckTracker

def new (initWindowSize : ℕ) : Option LateAckTracker :=
  (RingBuffer.alloc ⟨false, none⟩ recordSize initWindowSize).map (⟨·, none⟩)

variable (self : LateAckTracker)

/-- A record is first written here, so that all others the tracker uses are in the memory of the
ring. -/
def requestBookmark : Option LateAckTracker :=
  match self.storage.tailElement with
  | none => some { self with pending := none }
  | some r => if self.storage.Inside r then some { self with pending := some r } else none

/-- The record the message gets, and both assertions. -/
def trackMsg : Option (ℕ × LateAckTracker) :=
  match self.pending, self.storage.push with
  | some r, some (r', storage) => if r' = r then some (r, ⟨storage, none⟩) else none
  | _, _ => none

/-- `ack_rec->acked = TRUE`, before the lock is taken. -/
def markAcked (r : ℕ) : LateAckTracker :=
  { self with storage := self.storage.set r { self.storage.buffer r with acked := true } }

/-- The critical section of `late_ack_tracker_manage_msg_ack`. -/
def processAck (type : AckType) : Option AckOutcome :=
  let n := self.storage.getContinualRangeLength LateAckRecord.acked
  if n = 0 then some ⟨self, 0, none, [], 0⟩
  else
    match self.storage.elementAt (n - 1), dropRange self.storage n with
    | some last, some (destroyed, storage) =>
      let bookmark := (self.storage.buffer last).bookmark
      if type ≠ .aborted ∧ bookmark = none then none
      else some ⟨{ self with storage := storage }, n, if type = .aborted then none else bookmark,
        destroyed, if type = .suspended then 1 else n⟩
    | _, _ => none

end LateAckTracker

section Drop

variable {s : RingBuffer LateAckRecord}

theorem dropRecords_spec : ∀ (n i : ℕ) (s : RingBuffer LateAckRecord), s.WellFormed →
    i + n ≤ s.count → ∃ buffer, dropRecords n i s = some ((List.range' i n).flatMap
        (fun k => (s.buffer (s.slot k)).bookmark.toList), { s with buffer := buffer }) ∧
      (∀ k, i ≤ k → k < i + n → buffer (s.slot k) = ⟨false, none⟩) ∧
      ∀ j, (∀ k, i ≤ k → k < i + n → s.slot k ≠ j) → buffer j = s.buffer j := by
  intro n
  induction n with
  | zero =>
    intro i s _ _
    exact ⟨s.buffer, by simp [dropRecords], fun k hk hlt => by omega, fun _ _ => rfl⟩
  | succ n ih =>
    intro i s hs hle
    have hc := hs.count_le
    obtain ⟨buffer, hr, hin, ho⟩ := ih (i + 1) (s.set (s.slot i) ⟨false, none⟩)
      (RingBuffer.WellFormed.set.mpr hs) (by simp only [RingBuffer.set]; omega)
    have hsl : ∀ k, (s.set (s.slot i) ⟨false, none⟩).slot k = s.slot k := fun k => rfl
    have hne : ∀ k, i < k → k < i + (n + 1) → s.slot k ≠ s.slot i := by
      intro k hik hk he
      have := RingBuffer.slot_inj (by omega) (by omega) he
      omega
    simp only [hsl] at hr hin ho
    refine ⟨buffer, ?_, ?_, ?_⟩
    · rw [dropRecords, hs.elementAt_eq (by omega)]
      simp only [hr, Option.map_some]
      congr 3
      refine flatMap_congr fun k hk => ?_
      rw [mem_range'_1] at hk
      simp only [RingBuffer.set]
      rw [Function.update_of_ne (hne k (by omega) (by omega))]
    · intro k hik hk
      by_cases hki : k = i
      · subst hki
        rw [ho (s.slot k) fun k' h1 h2 => hne k' (by omega) (by omega)]
        simp [RingBuffer.set]
      · exact hin k (by omega) (by omega)
    · intro j hj
      rw [ho j fun k h1 h2 => hj k (by omega) (by omega)]
      simp only [RingBuffer.set]
      rw [Function.update_of_ne (hj i le_rfl (by omega)).symm]

theorem dropRange_spec (hs : s.WellFormed) {n : ℕ} (hn : n ≤ s.count) :
    ∃ s', dropRange s n = some ((List.range n).flatMap
        (fun k => (s.buffer (s.slot k)).bookmark.toList), s') ∧
      s'.WellFormed ∧ s'.capacity = s.capacity ∧ s'.count = s.count - n ∧
      (∀ i, s'.slot i = s.slot (n + i)) ∧ (∀ k < n, s'.buffer (s.slot k) = ⟨false, none⟩) ∧
      ∀ j, (∀ k < n, s.slot k ≠ j) → s'.buffer j = s.buffer j := by
  obtain ⟨buffer, hr, hin, ho⟩ := dropRecords_spec n 0 s hs (by omega)
  have hwf : ({ s with buffer := buffer } : RingBuffer LateAckRecord).WellFormed :=
    { hs with }
  obtain ⟨s', hd, hs', hb, hcp, hc, hsl⟩ := hwf.drop_eq hn
  refine ⟨s', ?_, hs', hcp, hc, hsl, ?_, ?_⟩
  · rw [dropRange, hr, Option.map_some]
    simp only [hd, range_eq_range']
  · intro k hk
    rw [hb]
    exact hin k (Nat.zero_le _) (by omega)
  · intro j hj
    rw [hb]
    exact ho j fun k _ hk => hj k (by omega)

end Drop

end SyslogNg.AckTracker
