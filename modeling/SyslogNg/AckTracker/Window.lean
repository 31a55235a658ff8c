import SyslogNg.AckTracker.Bookmarks

/-!
# The flow-control window

`window_size` of a source with either tracker: `log_source_queue` takes one, the ack of a
message gives back what `_flow_control_window_size_adjust` is called with. The early tracker
gives back one for every message. The late tracker gives back the length of the range it
dropped, except that an ack of type `AT_SUSPENDED` gives back one whatever it dropped.
-/
namespace SyslogNg.AckTracker

open SyslogNg.System Option Finset LateSource Function

/-- A source with an early tracker, which keeps nothing about its messages. -/
structure EarlySource where
  windowSize : ℕ
  tracked : ℕ
  ackType : ℕ → Option AckType

namespace EarlySource

inductive Event
  | queue
  | ack (k : ℕ) (type : AckType)

def held (s : EarlySource) : Finset ℕ := {k ∈ Finset.range s.tracked | s.ackType k = none}

/-- `early_ack_tracker_manage_msg_ack` -/
def windowIncrement : AckType → ℕ
  | .suspended => 1 -- `log_source_flow_control_suspend`
  | _ => 1

def Enabled (s : EarlySource) : Event → Prop
  | .queue => 0 < s.windowSize
  | .ack k _ => k ∈ s.held

/-- `none` is the failed assertion of `log_source_queue`. -/
def exec (s : EarlySource) : Event → Option EarlySource
  | .queue =>
    if 0 < s.windowSize then
      some { s with windowSize := s.windowSize - 1, tracked := s.tracked + 1 }
    else none
  | .ack k type =>
    some { s with
      windowSize := s.windowSize + windowIncrement type
      ackType := Function.update s.ackType k (some type) }

def system (n : ℕ) : System EarlySource Event where
  init s := s = ⟨n, 0, fun _ => none⟩
  step s e s' := s.Enabled e ∧ s.exec e = some s'

variable {n : ℕ} {s s' : EarlySource}

theorem windowIncrement_eq (type : AckType) : windowIncrement type = 1 := by
  cases type <;> rfl

structure Inv (n : ℕ) (s : EarlySource) : Prop where
  window : s.windowSize + s.held.card = n
  fresh : ∀ k, s.tracked ≤ k → s.ackType k = none

theorem Inv.queue (h : Inv n s) (hen : s.Enabled .queue) :
    ∃ s', s.exec .queue = some s' ∧ Inv n s' := by
  have hp : 0 < s.windowSize := hen
  refine ⟨_, if_pos hp, ?_, fun k hk => h.fresh k (Nat.le_of_succ_le hk)⟩
  have hh : held ⟨s.windowSize - 1, s.tracked + 1, s.ackType⟩ = insert s.tracked s.held := by
    simp [held, range_add_one, filter_insert, h.fresh]
  have hn : s.tracked ∉ s.held := by simp [held]
  have hw := h.window
  dsimp only
  rw [hh, card_insert_of_notMem hn]
  omega

theorem Inv.ack {k : ℕ} {type : AckType} (h : Inv n s) (hen : s.Enabled (.ack k type)) :
    ∃ s', s.exec (.ack k type) = some s' ∧ Inv n s' := by
  have hk : k ∈ s.held := hen
  refine ⟨_, rfl, ?_, ?_⟩
  · have hh : held ⟨s.windowSize + windowIncrement type, s.tracked,
        update s.ackType k (some type)⟩ = s.held.erase k := by
      ext j
      by_cases hj : j = k <;> simp [held, hj]
    have hw := h.window
    have hc := card_pos.mpr ⟨k, hk⟩
    dsimp only
    rw [hh, card_erase_of_mem hk, windowIncrement_eq]
    omega
  · intro j hj
    have hlt : k < s.tracked := mem_range.mp (mem_filter.mp hk).1
    dsimp only at hj ⊢
    rw [update_of_ne (by omega)]
    exact h.fresh j hj

theorem Inv.exec {e : Event} (h : Inv n s) (hen : s.Enabled e) :
    ∃ s', s.exec e = some s' ∧ Inv n s' := by
  cases e with
  | queue => exact h.queue hen
  | ack k type => exact h.ack hen

theorem inv_reachable (hs : (system n).Reachable s) : Inv n s := by
  refine Reachable.invariant ?_ ?_ hs
  · rintro s rfl
    exact ⟨by simp [held], fun _ _ => rfl⟩
  · rintro s e s' h ⟨hen, hr⟩
    obtain ⟨s'', hr', h'⟩ := h.exec hen
    rw [hr] at hr'
    exact Option.some.inj hr' ▸ h'

end EarlySource

namespace LateSource

variable {n : ℕ} {s s' s₀ : LateSource} {as : List Event}

/-- What the window and the ring add up to; a message tracked but not yet queued is in the ring
already. -/
def Balanced (n : ℕ) (s : LateSource) : Prop :=
  s.windowSize + s.tracker.storage.count = if s.phase = .tracked then n + 1 else n

/-- When a suspended ack enters the critical section and the oldest message held is acked, the
next one is not. -/
def SuspendsOldest (s : LateSource) : Event → Prop
  | .process k => s.ackType k = some .suspended → s.ackType s.dropped ≠ none →
    s.ackType (s.dropped + 1) = none
  | _ => True

theorem Inv.balanced_exec {e : Event} (h : Inv n s) (hen : s.Enabled e)
    (hr : s.exec e = some s') (he : ∀ m, e ≠ .process m) : Balanced n s' ↔ Balanced n s := by
  obtain ⟨s'', hr', h'⟩ := h.exec hen
  obtain rfl : s' = s'' := by rw [hr] at hr'; exact Option.some.inj hr'
  have hd := (h.exec_dropped hen hr he).1
  have ha := h.ring.dropped_add
  have ha' := h'.ring.dropped_add
  unfold Balanced
  cases e with
  | request =>
    obtain ⟨tracker, hc, rfl⟩ := exec_request hr
    rcases hen.1 with hp | hp <;> simp [hp, hc]
  | track =>
    have hph : s.phase = .requested := hen
    obtain ⟨out, -, rfl⟩ := map_eq_some_iff.mp hr
    simp only [hph, if_true] at ha' ⊢
    rw [if_neg (by simp)]
    omega
  | queue =>
    have hph : s.phase = .tracked := hen
    have hw := h.window.queueing hph
    simp only [LateSource.exec, if_pos hw, Option.some.injEq] at hr
    subst hr
    simp only [hph, if_true]
    rw [if_neg (by simp)]
    omega
  | ack k type =>
    cases hr
    rfl
  | process k => exact absurd rfl (he k)
  | free =>
    obtain ⟨out, -, rfl⟩ := map_eq_some_iff.mp hr
    rcases hen with hp | hp <;> simp [hp]

/-- The range has two messages or more exactly if the two oldest are acked. -/
theorem Processed.two_le_iff {type : AckType} {out : AckOutcome} (hp : Processed s type out)
    (h : Inv n s) :
    2 ≤ out.rangeLength ↔ s.ackType s.dropped ≠ none ∧ s.ackType (s.dropped + 1) ≠ none := by
  have hlt := hp.lt_iff h (j := s.dropped + 1)
  constructor
  · intro ht
    have ha := (hlt.mp (by omega)).resolve_left (by omega)
    exact ⟨ha _ (by omega), ha _ le_rfl⟩
  · rintro ⟨hf, hs⟩
    have := hlt.mpr (.inr fun i hi => ?_)
    · omega
    · rcases Nat.lt_trichotomy i s.dropped with hid | rfl | hid
      · exact h.history.acked i hid
      · exact hf
      · rwa [show i = s.dropped + 1 by omega]

theorem Inv.balanced_process {m : ℕ} (h : Inv n s) (hrn : s.exec (.process m) = some s') :
    Balanced n s' ↔ Balanced n s ∧ SuspendsOldest s (.process m) := by
  have hr := h.window.room
  simp only [LateSource.exec] at hrn
  split at hrn
  · cases hrn
  · next type hty =>
    obtain ⟨out, ho, hp⟩ := h.ring.processAck type
    rw [ho] at hrn
    cases hrn
    have hi := hp.increment
    have hle := hp.length_le
    have hc := hp.count
    have htw := hp.two_le_iff h
    -- the window and the ring lose what the range is longer than the increment
    have hls : out.windowIncrement = out.rangeLength ↔ SuspendsOldest s (.process m) := by
      rw [hi, SuspendsOldest, hty]
      by_cases hs : type = .suspended
      · subst hs
        by_cases hl : 2 ≤ out.rangeLength
        · obtain ⟨hf, hsc⟩ := htw.mp hl
          rw [if_neg (by omega), if_pos rfl]
          exact ⟨fun h1 => by omega, fun hok => absurd (hok rfl hf) hsc⟩
        · refine ⟨fun _ _ hf => ?_, fun _ => by split_ifs <;> omega⟩
          by_contra hsc
          exact hl (htw.mpr ⟨hf, hsc⟩)
      · exact ⟨fun _ ht => absurd (Option.some.inj ht) hs, fun _ => by split_ifs <;> omega⟩
    rw [← hls]
    have hinc_le := hp.increment_le
    unfold Balanced
    dsimp only
    omega

/-- As long as the oldest message is acked, some ack has not left its critical section. -/
structure AckInv (s : LateSource) : Prop where
  finished : ∀ k, s.finished k = true → s.ackType k ≠ none
  head : s.ackType s.dropped ≠ none → ∃ k, s.ackType k ≠ none ∧ s.finished k = false

theorem exec_finished {e : Event} (hr : s.exec e = some s') (he : ∀ m, e ≠ .process m) :
    s'.finished = s.finished := by
  cases e with
  | request =>
    obtain ⟨tracker, -, rfl⟩ := exec_request hr
    rfl
  | track =>
    obtain ⟨out, -, rfl⟩ := map_eq_some_iff.mp hr
    rfl
  | queue =>
    simp only [exec, ite_none_right_eq_some, Option.some.injEq] at hr
    rw [← hr.2]
  | ack k type =>
    cases hr
    rfl
  | process k => exact absurd rfl (he k)
  | free =>
    obtain ⟨out, -, rfl⟩ := map_eq_some_iff.mp hr
    rfl

theorem AckInv.exec {e : Event} (ha : AckInv s) (h : Inv n s) (hen : s.Enabled e)
    (hr : s.exec e = some s') (he : ∀ m, e ≠ .process m) : AckInv s' := by
  have hd := (h.exec_dropped hen hr he).1
  have hf := exec_finished hr he
  have hac := exec_ackType hr
  have hm : ∀ k, s.ackType k ≠ none → s'.ackType k ≠ none := by
    intro k hk
    rw [hac]
    cases e with
    | ack j type =>
      rw [ackTypeAfter, update_apply]
      split_ifs <;> simp [hk]
    | _ => exact hk
  refine ⟨fun k hk => hm k (ha.finished k (hf ▸ hk)), fun hh => ?_⟩
  rw [hd] at hh
  by_cases ho : s.ackType s.dropped = none
  · -- the ack flagged the oldest message and is still to enter the critical section
    refine ⟨s.dropped, hh, ?_⟩
    rw [hf, ← Bool.not_eq_true]
    exact fun hfn => ha.finished _ hfn ho
  · obtain ⟨k, hk, hfn⟩ := ha.head ho
    exact ⟨k, hm k hk, by rw [hf, hfn]⟩

theorem AckInv.process {m : ℕ} (ha : AckInv s) (h : Inv n s)
    (hr : s.exec (.process m) = some s') : AckInv s' := by
  have hac : s'.ackType = s.ackType := exec_ackType hr
  obtain ⟨type, out, ht, hp, hd, -⟩ := h.exec_process hr
  have hf : s'.finished = update s.finished m true := by
    simp only [LateSource.exec, ht] at hr
    obtain ⟨out, -, rfl⟩ := map_eq_some_iff.mp hr
    rfl
  refine ⟨fun k hk => ?_, fun hh => ?_⟩
  · rw [hac]
    by_cases hkm : k = m
    · simp [hkm, ht]
    · rw [hf, update_of_ne hkm] at hk
      exact ha.finished k hk
  · rw [hac, hd] at hh
    have hlt := h.lt_of_acked hh
    have had := h.ring.dropped_add
    exact absurd (hp.maximal (by omega)) hh

theorem ackInv_reachable (h0 : 0 < n) (h1 : recordSize * n < 2 ^ 32) (hs : (system n).Reachable s) :
    AckInv s := by
  suffices hboth : Inv n s ∧ AckInv s from hboth.2
  refine Reachable.invariant (I := fun s => Inv n s ∧ AckInv s) ?_ ?_ hs
  · intro s hi
    refine ⟨inv_init h0 h1 hi, ?_⟩
    obtain ⟨tracker, -, rfl⟩ := hi
    exact ⟨by simp [init], by simp [init]⟩
  · rintro s e s' ⟨h, ha⟩ ⟨hen, hr⟩
    refine ⟨h.step ⟨hen, hr⟩, ?_⟩
    by_cases he : ∃ m, e = .process m
    · obtain ⟨m, rfl⟩ := he
      exact ha.process h hr
    · exact ha.exec h hen hr fun m hm => he ⟨m, hm⟩

/-- Once every ack has left its critical section the ring is empty. -/
theorem AckInv.count_eq_zero (ha : AckInv s) (h : Inv n s)
    (hal : ∀ k < s.tracked, s.finished k = true) : s.tracker.storage.count = 0 := by
  have had := h.ring.dropped_add
  by_contra hpos
  have hh := ha.finished s.dropped (hal _ (by omega))
  obtain ⟨k, hk, hf⟩ := ha.head hh
  rw [hal k (h.lt_of_acked hk)] at hf
  exact Bool.noConfusion hf

theorem Inv.balanced_iff {e : Event} (h : Inv n s) (hen : s.Enabled e)
    (hr : s.exec e = some s') : Balanced n s' ↔ Balanced n s ∧ SuspendsOldest s e := by
  by_cases he : ∃ m, e = .process m
  · obtain ⟨m, rfl⟩ := he
    exact h.balanced_process hr
  · rw [h.balanced_exec hen hr fun m hm => he ⟨m, hm⟩]
    cases e with
    | process m => exact absurd ⟨m, rfl⟩ he
    | _ => exact (and_iff_left trivial).symm

section Runs

variable (h0 : 0 < n) (h1 : recordSize * n < 2 ^ 32)
include h0

theorem balanced_init (hi : (system n).init s) : Balanced n s := by
  obtain rfl := init_eq h0 hi
  simp [Balanced, init, RingBuffer.fresh]

include h1

theorem balanced_of_restrict (hs : ((system n).restrict SuspendsOldest).Reachable s) :
    Balanced n s := by
  induction hs with
  | init hi => exact balanced_init h0 hi
  | step hs hst ih =>
    have h := inv_reachable h0 h1 hs.of_restrict
    exact (h.balanced_iff hst.2.1 hst.2.2).mpr ⟨ih, hst.1⟩

theorem balanced_run_iff (hi : (system n).init s₀) (hr : (system n).Run s₀ as s) :
    Balanced n s ↔ ((system n).restrict SuspendsOldest).Run s₀ as s :=
  Run.restrict_iff (fun _ _ _ h hs => h.step hs) (fun _ _ _ h hs => h.balanced_iff hs.1 hs.2) hr
    (inv_init h0 h1 hi) (balanced_init h0 hi)

end Runs

end LateSource

/-- With the early tracker no assertion fails, and the window and the messages held always add up to
the initial window. With the late tracker no assertion fails exactly if the size of all records is a
`guint32`; window and ring then add up after exactly those runs in which no suspended ack closes a
range of several messages, and the window is whole again once every ack is done. -/
theorem window_conserved {n : ℕ} (h0 : 0 < n) (h1 : n < 2 ^ 31) :
    (∀ s, (EarlySource.system n).Reachable s → s.windowSize + s.held.card = n ∧
      ∀ e, s.Enabled e → ∃ s', s.exec e = some s') ∧
    ((∀ s, (LateSource.system n).Reachable s → ∀ e, s.Enabled e → ∃ s', s.exec e = some s') ↔
      recordSize * n < 2 ^ 32) ∧
    (recordSize * n < 2 ^ 32 →
      (∀ s₀ as s, (LateSource.system n).init s₀ → (LateSource.system n).Run s₀ as s →
        (s.Balanced n ↔ ((LateSource.system n).restrict LateSource.SuspendsOldest).Run s₀ as s)) ∧
      ∀ s, ((LateSource.system n).restrict LateSource.SuspendsOldest).Reachable s →
        s.phase ≠ .tracked → (∀ k < s.tracked, s.finished k = true) → s.windowSize = n) := by
  refine ⟨fun s hs => ?_, ⟨fun h => ?_, fun hn s hs e hen => ?_⟩, fun hn => ⟨?_, ?_⟩⟩
  · have h := EarlySource.inv_reachable hs
    refine ⟨h.window, fun e hen => ?_⟩
    obtain ⟨s', hrn, -⟩ := h.exec hen
    exact ⟨s', hrn⟩
  · by_contra hn
    obtain ⟨s, hs, hen, hf⟩ := request_outside h1 (not_lt.mp hn)
    obtain ⟨s', hr⟩ := h s hs.of_restrict _ hen
    rw [hf] at hr
    cases hr
  · obtain ⟨s', hrn, -⟩ := (inv_reachable h0 hn hs).exec hen
    exact ⟨s', hrn⟩
  · intro s₀ as s hi hr
    exact balanced_run_iff h0 hn hi hr
  · intro s hs hp ha
    have hb := balanced_of_restrict h0 hn hs
    have hin := inv_reachable h0 hn hs.of_restrict
    have hz := (ackInv_reachable h0 hn hs.of_restrict).count_eq_zero hin ha
    rw [LateSource.Balanced, if_neg hp, hz] at hb
    exact hb

theorem window_conserved_two :
    (∀ s, (EarlySource.system 2).Reachable s → s.windowSize + s.held.card = 2) ∧
    ∃ s, ((LateSource.system 2).restrict LateSource.SuspendsOldest).Run LateSource.start
        (LateSource.outOfOrder .suspended .processed) s ∧ s.windowSize = 2 := by
  obtain ⟨he, -, hl⟩ := window_conserved (n := 2) (by decide) (by decide)
  refine ⟨fun s hs => (he s hs).1, ?_⟩
  have hrn : ((outOfOrder .suspended .processed).foldlM next
      start).map (fun s => (s.windowSize, s.tracker.storage.count, s.phase)) =
      some (2, 0, .idle) := by
    decide +kernel
  obtain ⟨s, hs, ho⟩ := map_eq_some_iff.mp hrn
  obtain ⟨hw, hc, hp⟩ : s.windowSize = 2 ∧ s.tracker.storage.count = 0 ∧
      s.phase = .idle := by simpa using ho
  have hr := Run.of_foldlM (M := system 2) step_of_next hs
  refine ⟨s, ((hl (by decide)).1 _ _ s init_start hr).mp ?_, hw⟩
  simp [LateSource.Balanced, hw, hc, hp]

/-- The later message is acked first, then the earlier one `AT_SUSPENDED`: the tracker holds
nothing any more and half of the window is lost. -/
theorem outOfOrder_suspend_loses_window : ∃ s, (LateSource.system 2).Run LateSource.start
        (LateSource.outOfOrder .processed .suspended) s ∧
      s.windowSize = 1 ∧ s.tracker.storage.count = 0 ∧ s.phase = .idle := by
  have hr : ((outOfOrder .processed .suspended).foldlM next
      start).map (fun s => (s.windowSize, s.tracker.storage.count, s.phase)) =
      some (1, 0, .idle) := by
    decide +kernel
  obtain ⟨s, hs, ho⟩ := map_eq_some_iff.mp hr
  exact ⟨s, Run.of_foldlM step_of_next hs, by simpa using ho⟩

end SyslogNg.AckTracker
