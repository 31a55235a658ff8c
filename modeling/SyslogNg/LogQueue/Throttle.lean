import SyslogNg.Foundations.Run
import SyslogNg.Foundations.TokenBucket

/-!
# Throttling of the output

`log_queue_check_items` in `lib/logqueue.c` fills the bucket, `log_queue_pop_head` in
`lib/logqueue.h` takes from it. The product of the throttle and the time is a `gint64`, the new
tokens and the bucket are `gint`s.
-/
namespace SyslogNg.LogQueue

structure TimeVal where
  tvSec : ℕ
  tvUsec : ℕ
  lt : tvUsec < 1000000
  deriving DecidableEq

def TimeVal.toUsec (t : TimeVal) : ℤ := t.tvSec * 1000000 + t.tvUsec

def gTimeValDiff (t₁ t₂ : TimeVal) : ℤ :=
  Int.bmod (((t₁.tvSec : ℤ) - t₂.tvSec) * 1000000 + ((t₁.tvUsec : ℤ) - t₂.tvUsec)) (2 ^ 64)

/-- The part of `LogQueue` that throttling uses. `now` is the time, `clock` when it was looked at
last, and `popped` the number of messages that were returned. -/
structure Throttle where
  throttle : ℤ
  throttleBuckets : ℤ
  lastThrottleCheck : TimeVal
  now : TimeVal
  clock : TimeVal
  popped : ℤ
  deriving DecidableEq

inductive ThrottleOp
  | wait (now : TimeVal)
  | checkItems (numElements : ℕ)
  /-- `available` is whether the queue has a message to return. -/
  | popHead (available : Bool)

namespace Throttle

/-- `log_queue_init_instance`, followed by `log_queue_set_throttle`. -/
def setThrottle (now : TimeVal) (throttle : ℤ) : Throttle where
  throttle := throttle
  throttleBuckets := throttle
  lastThrottleCheck := ⟨0, 0, by decide⟩
  now := now
  clock := now
  popped := 0

def newBuckets (throttle diff : ℤ) : ℤ :=
  Int.bmod ((Int.bmod (throttle * diff) (2 ^ 64)).tdiv 1000000) (2 ^ 32)

def refill (q : Throttle) : Throttle :=
  let isSet := q.lastThrottleCheck.tvSec ≠ 0
  let diff := if isSet then gTimeValDiff q.now q.lastThrottleCheck else 0
  let last := if isSet then q.lastThrottleCheck else q.now
  let newBuckets := newBuckets q.throttle diff
  { q with
    clock := q.now
    throttleBuckets :=
      if newBuckets ≠ 0 then min q.throttle (Int.bmod (q.throttleBuckets + newBuckets) (2 ^ 32))
      else q.throttleBuckets
    lastThrottleCheck := if newBuckets ≠ 0 then q.now else last }

def checkItems (q : Throttle) (numElements : ℕ) : Throttle :=
  if numElements = 0 then q else if q.throttle > 0 then q.refill else q

def popHead (q : Throttle) (available : Bool) : Throttle :=
  if q.throttle ≠ 0 ∧ q.throttleBuckets = 0 then q
  else if available then
    { q with
      throttleBuckets :=
        if q.throttleBuckets > 0 then q.throttleBuckets - 1 else q.throttleBuckets
      popped := q.popped + 1 }
  else q

def apply (q : Throttle) : ThrottleOp → Throttle
  | .wait now => { q with now := now }
  | .checkItems numElements => q.checkItems numElements
  | .popHead available => q.popHead available

/-- Time in microseconds since the last refill. -/
def sinceRefill (q : Throttle) : ℤ :=
  if q.lastThrottleCheck.tvSec ≠ 0 then q.now.toUsec - q.lastThrottleCheck.toUsec else 0

def Forward (q : Throttle) : ThrottleOp → Prop
  | .wait now => q.now.toUsec ≤ now.toUsec
  | _ => True

/-- What is added to the bucket fits into a `gint`. -/
def NoOverflow (q : Throttle) : ThrottleOp → Prop
  | .checkItems _ => q.throttleBuckets + q.throttle * q.sinceRefill / 1000000 < 2 ^ 31
  | _ => True

/-- No message is popped while a refill would add one. -/
def NoCredit (q : Throttle) : ThrottleOp → Prop
  | .popHead _ => q.throttle * q.sinceRefill < 1000000
  | _ => True

instance (q : Throttle) : (op : ThrottleOp) → Decidable (q.Forward op)
  | .wait now => inferInstanceAs (Decidable (q.now.toUsec ≤ now.toUsec))
  | .checkItems _ | .popHead _ => .isTrue trivial

instance (q : Throttle) : (op : ThrottleOp) → Decidable (q.NoOverflow op)
  | .checkItems _ => inferInstanceAs
      (Decidable (q.throttleBuckets + q.throttle * q.sinceRefill / 1000000 < 2 ^ 31))
  | .wait _ | .popHead _ => .isTrue trivial

instance (q : Throttle) : (op : ThrottleOp) → Decidable (q.NoCredit op)
  | .popHead _ => inferInstanceAs (Decidable (q.throttle * q.sinceRefill < 1000000))
  | .wait _ | .checkItems _ => .isTrue trivial

end Throttle

open Throttle

/-- A queue whose throttle was set at the time `now`. -/
def throttleSystem (now : TimeVal) (throttle : ℤ) : System Throttle ThrottleOp where
  init q := q = setThrottle now throttle
  step q op q' := q.Forward op ∧ q' = q.apply op

namespace Throttle

variable {q a b : Throttle} {t : ℤ} {op : ThrottleOp} {ops : List ThrottleOp}

structure Inv (t : ℤ) (q : Throttle) : Prop where
  throttle : q.throttle = t
  nonneg : 0 ≤ q.throttleBuckets
  le : q.throttleBuckets ≤ t
  clock : q.clock.toUsec ≤ q.now.toUsec
  last : q.lastThrottleCheck.tvSec ≠ 0 → q.lastThrottleCheck.toUsec ≤ q.clock.toUsec
  /-- When the clock was looked at, less than one token was missing. -/
  credit : q.lastThrottleCheck.tvSec ≠ 0 →
    t * (q.clock.toUsec - q.lastThrottleCheck.toUsec) < 1000000

/-- Microseconds between `origin` and the last refill. -/
def untilRefill (q : Throttle) (origin : TimeVal) : ℤ :=
  if q.lastThrottleCheck.tvSec ≠ 0 then max 0 (q.lastThrottleCheck.toUsec - origin.toUsec) else 0

def bucket (q : Throttle) : TokenBucket where
  level := q.throttleBuckets
  last := if q.lastThrottleCheck.tvSec ≠ 0 then some q.lastThrottleCheck.toUsec else none
  spent := q.popped

theorem newBuckets_eq {diff : ℤ} (hn : 0 ≤ t * diff) (hlt : t * diff / 1000000 < 2 ^ 31) :
    newBuckets t diff = t * diff / 1000000 := by
  have hp : Int.bmod (t * diff) (2 ^ 64) = t * diff :=
    Int.bmod_eq_of_le_mul_two (by omega) (by omega)
  rw [newBuckets, hp, Int.tdiv_eq_ediv_of_nonneg hn]
  exact Int.bmod_eq_of_le_mul_two (by omega) (by omega)

theorem gTimeValDiff_eq {t₁ t₂ : TimeVal} (hle : t₂.toUsec ≤ t₁.toUsec)
    (hlt : t₁.toUsec - t₂.toUsec < 2 ^ 63) : gTimeValDiff t₁ t₂ = t₁.toUsec - t₂.toUsec := by
  have hd : ((t₁.tvSec : ℤ) - t₂.tvSec) * 1000000 + ((t₁.tvUsec : ℤ) - t₂.tvUsec) =
      t₁.toUsec - t₂.toUsec := by
    unfold TimeVal.toUsec
    ring
  rw [gTimeValDiff, hd]
  exact Int.bmod_eq_of_le_mul_two (by omega) (by omega)

theorem refill_of_unset (hu : q.lastThrottleCheck.tvSec = 0) :
    q.refill = { q with clock := q.now, lastThrottleCheck := q.now } := by
  have hz : newBuckets q.throttle 0 = 0 := by simp [newBuckets]
  simp [refill, hu, hz]

section Inv

variable (ht : 0 < t) (hi : q.Inv t)
include ht hi

theorem refill_of_set (hst : q.lastThrottleCheck.tvSec ≠ 0)
    (hok : q.throttleBuckets + q.throttle * q.sinceRefill / 1000000 < 2 ^ 31) :
    0 ≤ t * (q.now.toUsec - q.lastThrottleCheck.toUsec) / 1000000 ∧ q.refill = { q with
        clock := q.now
        throttleBuckets := min t
          (q.throttleBuckets + t * (q.now.toUsec - q.lastThrottleCheck.toUsec) / 1000000)
        lastThrottleCheck :=
          if t * (q.now.toUsec - q.lastThrottleCheck.toUsec) / 1000000 = 0 then
            q.lastThrottleCheck else q.now } := by
  have hle := (hi.last hst).trans hi.clock
  have hs : q.sinceRefill = q.now.toUsec - q.lastThrottleCheck.toUsec := if_pos hst
  rw [hs, hi.throttle] at hok
  generalize hd : q.now.toUsec - q.lastThrottleCheck.toUsec = d at hok ⊢
  have hd0 : 0 ≤ d := by omega
  have hn : 0 ≤ t * d := mul_nonneg ht.le hd0
  have hb := hi.nonneg
  have hf := hi.le
  have hdl : d ≤ t * d := le_mul_of_one_le_left hd0 ht
  have hdf : gTimeValDiff q.now q.lastThrottleCheck = d := by
    rw [gTimeValDiff_eq hle (by omega), hd]
  have hnw : newBuckets t d = t * d / 1000000 := newBuckets_eq hn (by omega)
  have hnew0 : 0 ≤ t * d / 1000000 := Int.ediv_nonneg hn (by norm_num)
  refine ⟨hnew0, ?_⟩
  have hsm : Int.bmod (q.throttleBuckets + t * d / 1000000) (2 ^ 32) =
      q.throttleBuckets + t * d / 1000000 := Int.bmod_eq_of_le_mul_two (by omega) (by omega)
  simp only [refill, hst, ne_eq, not_false_eq_true, if_true, hdf, hi.throttle, hnw, hsm]
  split_ifs with hz
  · rw [hz, add_zero, min_eq_right hf]
  · rfl

theorem inv_refill (hok : q.throttleBuckets + q.throttle * q.sinceRefill / 1000000 < 2 ^ 31) :
    q.refill.Inv t := by
  by_cases hs : q.lastThrottleCheck.tvSec = 0
  · rw [refill_of_unset hs]
    exact { hi with
      clock := le_rfl
      last := fun _ => le_rfl
      credit := fun _ => by simp }
  · obtain ⟨hnw, heq⟩ := refill_of_set ht hi hs hok
    rw [heq]
    have hn := hi.nonneg
    refine ⟨hi.throttle, le_min ht.le (by omega), min_le_left _ _, le_rfl, fun _ => ?_, fun _ => ?_⟩
    · split_ifs
      · exact (hi.last hs).trans hi.clock
      · exact le_rfl
    · dsimp only
      split_ifs with hz
      · omega
      · simp

omit ht in
theorem inv_popHead (available : Bool) : (q.popHead available).Inv t := by
  unfold popHead
  have hle := hi.le
  split_ifs with he ha hp
  · exact hi
  · exact { hi with
      nonneg := by dsimp only; omega
      le := by dsimp only; omega }
  · exact { hi with }
  · exact hi

theorem inv_apply (hf : q.Forward op) (hok : q.NoOverflow op) : (q.apply op).Inv t := by
  cases op with
  | wait now => exact { hi with clock := hi.clock.trans hf }
  | checkItems numElements =>
    simp only [apply, checkItems]
    split_ifs
    · exact hi
    · exact inv_refill ht hi hok
    · exact hi
  | popHead available => exact inv_popHead hi available

theorem popHead_bucket (available : Bool) :
    (q.popHead available).bucket = q.bucket ∨ (q.popHead available).bucket = q.bucket.spend := by
  unfold popHead
  have hn := hi.nonneg
  have hth := hi.throttle
  split_ifs with he ha hp
  · exact .inl rfl
  · exact .inr rfl
  · omega
  · exact .inl rfl

variable {origin base : ℤ} (horigin : origin ≤ q.now.toUsec)
  (hwithin : TokenBucket.Within t 1000000 origin base q.bucket)
include horigin hwithin

theorem within_refill (hok : q.throttleBuckets + q.throttle * q.sinceRefill / 1000000 < 2 ^ 31) :
    TokenBucket.Within t 1000000 origin base q.refill.bucket := by
  by_cases hs : q.lastThrottleCheck.tvSec = 0
  · rw [refill_of_unset hs]
    apply hwithin.setLast ht.le (by norm_num) (by simp [bucket, hs])
    intro time htm
    by_cases hn : q.now.tvSec = 0
    · simp [hn] at htm
    · simp only [ne_eq, hn, not_false_eq_true, if_true, Option.mem_some_iff] at htm
      omega
  · have hle := (hi.last hs).trans hi.clock
    have hn : q.now.tvSec ≠ 0 := by
      have := q.now.lt
      unfold TimeVal.toUsec at hle
      omega
    have heq : q.refill.bucket =
      q.bucket.refill t 1000000 q.now.toUsec q.lastThrottleCheck.toUsec := by
      rw [(refill_of_set ht hi hs hok).2]
      unfold bucket TokenBucket.refill
      split_ifs <;> simp_all
    rw [heq]
    exact hwithin.refill ht.le (by norm_num) horigin (by simp [bucket, hs])

theorem within_apply (hok : q.NoOverflow op)
    (hc : ∀ available, op = .popHead available → ∀ last ∈ q.bucket.last, last < origin →
      t * (origin - last) < 1000000) :
    TokenBucket.Within t 1000000 origin base (q.apply op).bucket := by
  cases op with
  | wait now => exact hwithin
  | checkItems numElements =>
    simp only [apply, checkItems]
    split_ifs
    · exact hwithin
    · exact within_refill ht hi horigin hwithin hok
    · exact hwithin
  | popHead available =>
    rcases popHead_bucket ht hi available with heq | heq
    · exact heq.symm ▸ hwithin
    · exact heq.symm ▸ hwithin.spend (hc available rfl)

end Inv

theorem now_le_apply (hf : q.Forward op) : q.now.toUsec ≤ (q.apply op).now.toUsec := by
  cases op with
  | wait now => exact hf
  | checkItems numElements =>
    simp only [apply, checkItems]
    split_ifs <;> exact le_rfl
  | popHead available =>
    simp only [apply, popHead]
    split_ifs <;> exact le_rfl

theorem lastThrottleCheck_apply (q : Throttle) (op : ThrottleOp) :
    (q.apply op).lastThrottleCheck = q.lastThrottleCheck ∨
      (q.apply op).lastThrottleCheck = q.now := by
  cases op with
  | wait now => exact .inl rfl
  | checkItems numElements =>
    simp only [apply, checkItems, refill]
    split_ifs <;> simp
  | popHead available =>
    simp only [apply, popHead]
    split_ifs <;> exact .inl rfl

theorem mem_bucket_last {last : ℤ} : last ∈ q.bucket.last ↔
    q.lastThrottleCheck.tvSec ≠ 0 ∧ q.lastThrottleCheck.toUsec = last := by
  unfold bucket
  by_cases hs : q.lastThrottleCheck.tvSec = 0 <;> simp

/-- What holds in the run from `a` on, where time is counted from `origin`. -/
structure Since (t : ℤ) (a : Throttle) (origin : TimeVal) (q : Throttle) : Prop where
  inv : q.Inv t
  begun : origin.toUsec ≤ q.now.toUsec
  within : TokenBucket.Within t 1000000 origin.toUsec a.popped q.bucket

variable {origin : TimeVal}

theorem Since.start (ht : 0 < t) (ha : a.Inv t)
    (horigin : origin.toUsec ≤ a.now.toUsec) : Since t a origin a :=
  ⟨ha, horigin, .start ht.le (by norm_num) rfl ha.le⟩

theorem Since.apply (ht : 0 < t) (h : Since t a origin q)
    (hf : q.Forward op) (hok : q.NoOverflow op)
    (hc : ∀ available, op = .popHead available → ∀ last ∈ q.bucket.last,
      last < origin.toUsec → t * (origin.toUsec - last) < 1000000) :
    Since t a origin (q.apply op) where
  inv := inv_apply ht h.inv hf hok
  begun := h.begun.trans (now_le_apply hf)
  within := within_apply ht h.inv h.begun h.within hok hc

theorem Since.popped_le (h : Since t a origin q) :
    q.popped - a.popped ≤ t + (t * q.untilRefill origin + 999999) / 1000000 := by
  have hb := h.within.bound
  have hn := h.inv.nonneg
  have he : q.bucket.elapsed origin.toUsec = q.untilRefill origin := by
    unfold untilRefill
    split_ifs with hst
    · exact TokenBucket.elapsed_of_some (if_pos hst)
    · exact TokenBucket.elapsed_of_none (if_neg hst)
  have hu : (1000000 : ℤ) - 1 = 999999 := by norm_num
  rw [he, hu] at hb
  exact (le_add_of_nonneg_right hn).trans hb

variable {start : TimeVal}

theorem inv_reachable (ht : 0 < t)
    (h : ((throttleSystem start t).restrict NoOverflow).Reachable q) :
    q.Inv t := by
  apply h.invariant
  · rintro _ rfl
    exact ⟨rfl, ht.le, le_rfl, le_rfl, fun hs => absurd rfl hs, fun hs => absurd rfl hs⟩
  · rintro q op _ hi ⟨hok, hf, rfl⟩
    exact inv_apply ht hi hf hok

/-- The time is counted from when the clock was looked at last: a refill after `a` that
reaches back behind it is worth less than one token of that time. -/
theorem since_clock (ht : 0 < t) (ha : a.Inv t)
    (hr : ((throttleSystem start t).restrict NoOverflow).Run a ops b) : Since t a a.clock b := by
  let creditAt (q : Throttle) : Prop := ∀ last ∈ q.bucket.last, last < a.clock.toUsec →
    t * (a.clock.toUsec - last) < 1000000
  have hs : creditAt a := by
    intro last hl _
    obtain ⟨hst, rfl⟩ := mem_bucket_last.mp hl
    exact ha.credit hst
  refine (hr.invariant (I := fun q => Since t a a.clock q ∧ creditAt q) ?_
    ⟨.start ht ha ha.clock, hs⟩).1
  rintro q op _ ⟨h, hc⟩ ⟨hok, hf, rfl⟩
  refine ⟨h.apply ht hf hok fun _ _ => hc, fun last hl hlt => ?_⟩
  obtain ⟨hst, rfl⟩ := mem_bucket_last.mp hl
  rcases lastThrottleCheck_apply q op with heq | heq
  · rw [heq] at hst hlt ⊢
    exact hc _ (mem_bucket_last.mpr ⟨hst, rfl⟩) hlt
  · have := h.begun
    rw [heq] at hlt
    omega

theorem since_now (ht : 0 < t) (ha : a.Inv t)
    (hr : ((throttleSystem start t).restrict fun q op => q.NoOverflow op ∧ q.NoCredit op).Run
      a ops b) : Since t a a.now b := by
  refine hr.invariant ?_ (.start ht ha le_rfl)
  rintro q op _ h ⟨⟨hok, hc⟩, hf, rfl⟩
  refine h.apply ht hf hok fun available hop last hl _ => ?_
  obtain ⟨hst, rfl⟩ := mem_bucket_last.mp hl
  subst hop
  have hs : q.sinceRefill = q.now.toUsec - q.lastThrottleCheck.toUsec := if_pos hst
  simp only [NoCredit, h.inv.throttle, hs] at hc
  have hle : t * (a.now.toUsec - q.lastThrottleCheck.toUsec) ≤
      t * (q.now.toUsec - q.lastThrottleCheck.toUsec) :=
    mul_le_mul_of_nonneg_left (by have := h.begun; omega) ht.le
  omega

/-- While no refill overflows, the bucket stays between empty and full, and the messages popped
since any point of the run are bounded by a full bucket and what comes in until the last refill.
Time is counted from when the clock was looked at before that point, or from that point itself
if no message is popped while a refill is due. -/
theorem throttle_bound (ht : 0 < t)
    (ha : ((throttleSystem start t).restrict NoOverflow).Reachable a)
    (hrun : ((throttleSystem start t).restrict NoOverflow).Run a ops b) :
    (0 ≤ b.throttleBuckets ∧ b.throttleBuckets ≤ t) ∧
    b.popped - a.popped ≤ t + (t * b.untilRefill a.clock + 999999) / 1000000 ∧
    (((throttleSystem start t).restrict fun q op => q.NoOverflow op ∧ q.NoCredit op).Run a ops b →
      b.popped - a.popped ≤ t + (t * b.untilRefill a.now + 999999) / 1000000) := by
  have hi := inv_reachable ht ha
  have hs := since_clock ht hi hrun
  exact ⟨⟨hs.inv.nonneg, hs.inv.le⟩, hs.popped_le, fun hc => (since_now ht hi hc).popped_le⟩

theorem run_of_along {ok : Throttle → ThrottleOp → Prop}
    (h : Along apply (fun q op => ok q op ∧ q.Forward op) q ops) :
    ((throttleSystem start t).restrict ok).Run q ops (ops.foldl apply q) :=
  h.run (M := (throttleSystem start t).restrict ok) fun _ _ hok => ⟨hok.1, hok.2, rfl⟩

/-- Three messages and a refill half a second after the first two. -/
theorem throttle_bound_refilled : ∃ a b ops,
    ((throttleSystem ⟨1, 0, by decide⟩ 10).restrict NoOverflow).Run a ops b ∧
    b.popped - a.popped = 3 ∧ b.untilRefill a.now = 500000 ∧
    b.popped - a.popped ≤ 10 + (10 * b.untilRefill a.now + 999999) / 1000000 := by
  let start := setThrottle ⟨1, 0, by decide⟩ 10
  let ops : List ThrottleOp :=
    [.popHead true, .popHead true, .wait ⟨1, 500000, by decide⟩, .checkItems 1, .popHead true]
  have hal : Along apply (fun q op => (q.NoOverflow op ∧ q.NoCredit op) ∧ q.Forward op)
      (start.checkItems 1) ops := by decide +kernel
  have ha : ((throttleSystem ⟨1, 0, by decide⟩ 10).restrict NoOverflow).Reachable
      (start.checkItems 1) :=
    .step (.init rfl) ⟨(by decide : start.NoOverflow (.checkItems 1)), trivial, rfl⟩
  have hr : ((throttleSystem ⟨1, 0, by decide⟩ 10).restrict NoOverflow).Run
      (start.checkItems 1) ops _ := run_of_along (hal.imp fun _ _ hok => ⟨hok.1.1, hok.2⟩)
  refine ⟨_, _, ops, hr, by decide +kernel, by decide +kernel, ?_⟩
  exact (throttle_bound (by decide) ha hr).2.2 (run_of_along hal)

theorem popHead_of_neg (hn : q.throttleBuckets < 0) :
    q.popHead true = { q with popped := q.popped + 1 } := by
  have he : ¬(q.throttle ≠ 0 ∧ q.throttleBuckets = 0) := fun h => by omega
  have hp : ¬q.throttleBuckets > 0 := by omega
  simp [popHead, he, hp]

theorem run_popHead_of_neg (hn : q.throttleBuckets < 0) (n : ℕ) :
    (throttleSystem start t).Run q (List.replicate n (.popHead true))
      { q with popped := q.popped + n } := by
  induction n with
  | zero => simpa using System.Run.nil
  | succ n ih =>
    rw [List.replicate_succ']
    refine ih.snoc ⟨trivial, ?_⟩
    rw [apply, popHead_of_neg (by exact hn), Nat.cast_succ, add_assoc]

/-- After an idle time of twenty-five days the new tokens wrap, the bucket becomes negative and
throttling ends. A message may also be popped before the refill that is due: the one of the full
bucket and the one of the refill leave at the same moment. -/
theorem throttle_exceeded :
    (∃ q, (throttleSystem ⟨1, 0, by decide⟩ 1000).Reachable q ∧ q.throttleBuckets < 0 ∧
      ∀ n : ℕ, ∃ q', (throttleSystem ⟨1, 0, by decide⟩ 1000).Run q
        (List.replicate n (.popHead true)) q' ∧ q'.popped - q.popped = n ∧
        q'.untilRefill q.now = 0) ∧
    ∃ a b ops, (throttleSystem ⟨1, 0, by decide⟩ 1).Reachable a ∧
      (throttleSystem ⟨1, 0, by decide⟩ 1).Run a ops b ∧
      b.popped - a.popped = 2 ∧ b.untilRefill a.now = 0 := by
  constructor
  · let ops : List ThrottleOp :=
      [.checkItems 1, .wait ⟨2147485, 648000, by decide⟩, .checkItems 1]
    let q := ops.foldl apply (setThrottle ⟨1, 0, by decide⟩ 1000)
    have ha : Along apply (fun q op => True ∧ q.Forward op)
      (setThrottle ⟨1, 0, by decide⟩ 1000) ops := by decide +kernel
    have hr := System.Reachable.trans_run (.init rfl) (run_of_along ha).of_restrict
    have hn : q.throttleBuckets < 0 := by decide +kernel
    have hrf : q.untilRefill q.now = 0 := by decide +kernel
    exact ⟨q, hr, hn, fun n =>
      ⟨_, run_popHead_of_neg hn n, add_sub_cancel_left _ _, hrf⟩⟩
  · let before : List ThrottleOp := [.checkItems 1, .wait ⟨3, 0, by decide⟩]
    let ops : List ThrottleOp := [.popHead true, .checkItems 1, .popHead true]
    have ha : Along apply (fun q op => True ∧ q.Forward op)
      (setThrottle ⟨1, 0, by decide⟩ 1) (before ++ ops) := by decide +kernel
    obtain ⟨hb, ho⟩ := along_append.mp ha
    have hr := System.Reachable.trans_run (.init rfl) (run_of_along hb).of_restrict
    exact ⟨_, _, ops, hr, (run_of_along ho).of_restrict, by decide +kernel,
      by decide +kernel⟩

end Throttle
end SyslogNg.LogQueue
