import Mathlib.Data.List.TakeWhile
import SyslogNg.Foundations.TokenBucket
import SyslogNg.SyslogFormat.Message

/-!
# Rate limits of actions

`pdb_action_check_rate_limit` in `modules/dbparser/patterndb.c` answers whether an action may run,
with a bucket for each key. What comes in is computed with eight fraction bits: the time since the
last refill is divided by the time that one token takes, and the latter is rounded down. All
messages of a run have the same key, so that there is one bucket.
-/
namespace SyslogNg.PatternDb

open List Nat TokenBucket

/-! ### The action -/

/-- The rate of a `PDBAction`: a `guint16` and a `guint32`. -/
structure PDBAction where
  rate : ℕ
  rateQuantum : ℕ
  deriving DecidableEq

/-- `atoi`: `strtol` keeps within its range, the result is converted to an `int`. -/
def atoi (text : Bytes) : ℤ :=
  let text := text.dropWhile isspace
  let isNegative := text.head? == some 0x2d
  let text := if isNegative || text.head? == some 0x2b then text.tail else text
  let magnitude : ℤ := decimal (text.takeWhile isDigit)
  Int.bmod (if isNegative then max (-2 ^ 63) (-magnitude) else min (2 ^ 63 - 1) magnitude) (2 ^ 32)

/-- `PDBRateLimit`: a `gint` and a `guint64`. -/
structure PDBRateLimit where
  buckets : ℤ
  lastCheck : ℕ
  deriving DecidableEq

def pdbRateLimitNew : PDBRateLimit := ⟨0, 0⟩

namespace PDBAction

variable (a : PDBAction)

/-- The time one token takes, with eight fraction bits. -/
def tokenTime : ℕ := 256 * a.rateQuantum / a.rate

/-- Both the shift and the division are done in a `glong`, the result is a `gint`. -/
def newCredits (now lastCheck : ℕ) : ℤ :=
  let elapsed := Int.bmod ((now : ℤ) - lastCheck) (2 ^ 64)
  Int.bmod ((Int.bmod (elapsed * 256) (2 ^ 64)).tdiv a.tokenTime) (2 ^ 32)

/-- The bucket as `pdb_action_check_rate_limit` fills it; nothing if it divides by zero. -/
def refill (now : ℕ) (rl : PDBRateLimit) : Option PDBRateLimit :=
  if rl.lastCheck = 0 then some ⟨a.rate, now⟩
  else if a.tokenTime = 0 then none
  else
    let newCredits := a.newCredits now rl.lastCheck
    if newCredits ≠ 0 then some ⟨min (Int.bmod (rl.buckets + newCredits) (2 ^ 32)) a.rate, now⟩
    else some rl

end PDBAction

/-! ### Runs -/

/-- The bucket of a key, the time of the wheel when it was looked at last, and the times of all
the checks that were answered with `TRUE`. -/
structure Limiter where
  rl : PDBRateLimit
  now : ℕ
  granted : List ℕ
  deriving DecidableEq

namespace Limiter

def start : Limiter := ⟨pdbRateLimitNew, 0, []⟩

/-- How many checks were answered with `TRUE` from `t₁` to `t₂`. -/
def grantedIn (l : Limiter) (t₁ t₂ : ℕ) : ℕ := l.granted.countP fun t => t₁ ≤ t && t ≤ t₂

end Limiter

/-- One token takes some time, and no time shorter than the quantum is worth more tokens than
its share of the rate. -/
def RateFits (r q : ℕ) : Prop :=
  r < 2 ^ 16 ∧ r ≤ 256 * q ∧ ∀ d < q, min (256 * d / (256 * q / r)) r * q ≤ r * d

/-- The wheel has started, and what comes in fits its types. -/
def Counted (a : PDBAction) (s : Option Limiter) (now : ℕ) : Prop :=
  0 < now ∧ ∀ l ∈ s, 256 * (now - l.rl.lastCheck) < 2 ^ 63 ∧
    (256 * (now - l.rl.lastCheck) / a.tokenTime : ℕ) + l.rl.buckets < 2 ^ 31

instance (r q : ℕ) : Decidable (RateFits r q) :=
  inferInstanceAs (Decidable (r < 2 ^ 16 ∧ r ≤ 256 * q ∧
    ∀ d < q, min (256 * d / (256 * q / r)) r * q ≤ r * d))

/-! ### Refills -/

section Refill

variable {r q : ℕ} {now last : ℕ} {rl : PDBRateLimit}

theorem RateFits.tokenTime_pos (h : RateFits r q) (hr : 0 < r) : 0 < 256 * q / r :=
  Nat.div_pos h.2.1 hr

/-- No time is worth more tokens than its share of the rate, as far as they fit the bucket. -/
theorem RateFits.tokens_le (h : RateFits r q) (hq : 0 < q) (d : ℕ) :
    min (256 * d / (256 * q / r)) r ≤ r * d / q := by
  rw [Nat.le_div_iff_mul_le hq]
  rcases lt_or_ge d q with hlt | hge
  · exact h.2.2 d hlt
  · calc min (256 * d / (256 * q / r)) r * q ≤ r * q := Nat.mul_le_mul_right q (min_le_right _ _)
      _ ≤ r * d := Nat.mul_le_mul_left r hge

theorem newCredits_eq (a : PDBAction) (hle : last ≤ now) (hshift : 256 * (now - last) < 2 ^ 63)
    (hfits : 256 * (now - last) / a.tokenTime < 2 ^ 31) :
    a.newCredits now last = (256 * (now - last) / a.tokenTime : ℕ) := by
  have he : Int.bmod ((now : ℤ) - last) (2 ^ 64) = (now - last : ℕ) := by
    rw [cast_sub hle]
    exact Int.bmod_eq_of_le_mul_two (by omega) (by omega)
  have hs : Int.bmod (((now - last : ℕ) : ℤ) * 256) (2 ^ 64) =
      (256 * (now - last) : ℕ) := by
    rw [mul_comm]
    exact Int.bmod_eq_of_le_mul_two (by push_cast at *; omega) (by push_cast at *; omega)
  rw [PDBAction.newCredits, he, hs, Int.tdiv_eq_ediv_of_nonneg (by positivity), ← Int.natCast_ediv]
  generalize 256 * (now - last) / a.tokenTime = tokens at hfits ⊢
  exact Int.bmod_eq_of_le_mul_two (by omega) (by omega)

/-- The bucket in the sense of the library; what was spent is counted from `origin` on. -/
def PDBRateLimit.bucket (rl : PDBRateLimit) (spent : ℤ) : TokenBucket where
  level := rl.buckets
  last := if rl.lastCheck = 0 then none else some rl.lastCheck
  spent := spent

theorem PDBRateLimit.bucket_last (hset : rl.lastCheck ≠ 0) (spent : ℤ) :
    (rl.bucket spent).last = some (rl.lastCheck : ℤ) := if_neg hset

variable (hfits : RateFits r q) (hr : 0 < r) (hq : 0 < q) (hset : rl.lastCheck ≠ 0)
  (hle : rl.lastCheck ≤ now) (hnonneg : 0 ≤ rl.buckets)
  (hshift : 256 * (now - rl.lastCheck) < 2 ^ 63)
  (hcount : (256 * (now - rl.lastCheck) / (256 * q / r) : ℕ) + rl.buckets < 2 ^ 31)
include hfits hr hset hle hnonneg hshift hcount

theorem refill_of_set : (PDBAction.mk r q).refill now rl =
    if 256 * (now - rl.lastCheck) / (256 * q / r) = 0 then some rl
    else some ⟨min r (rl.buckets + (256 * (now - rl.lastCheck) / (256 * q / r) : ℕ)), now⟩ := by
  have ht := hfits.tokenTime_pos hr
  have hn := newCredits_eq ⟨r, q⟩ hle hshift
    (by change 256 * (now - rl.lastCheck) / (256 * q / r) < 2 ^ 31; omega)
  simp only [PDBAction.tokenTime] at hn
  generalize 256 * (now - rl.lastCheck) / (256 * q / r) = tokens at hn hcount ⊢
  have hs : Int.bmod (rl.buckets + tokens) (2 ^ 32) = rl.buckets + tokens :=
    Int.bmod_eq_of_le_mul_two (by omega) (by omega)
  simp only [PDBAction.refill, hset, if_false, PDBAction.tokenTime, ht.ne', hn, hs,
    min_comm (rl.buckets + (tokens : ℤ)), cast_eq_zero, ite_not]

include hq in
/-- A refill is one of the library, whatever was spent. -/
theorem within_refill {rl' : PDBRateLimit} (hrf : (PDBAction.mk r q).refill now rl = some rl')
    {origin base spent : ℤ} (ho : origin ≤ now)
    (h : TokenBucket.Within r q origin base (rl.bucket spent)) :
    TokenBucket.Within r q origin base (rl'.bucket spent) := by
  rw [refill_of_set hfits hr hset hle hnonneg hshift hcount] at hrf
  split_ifs at hrf with hz
  · cases hrf
    exact h
  · cases hrf
    have ht := hfits.tokens_le hq (now - rl.lastCheck)
    generalize 256 * (now - rl.lastCheck) / (256 * q / r) = tokens at ht ⊢
    have hw : (min tokens r : ℕ) ≤ (r : ℤ) * (now - rl.lastCheck) / q := by
      exact_mod_cast ht
    have heq : (PDBRateLimit.mk (min r (rl.buckets + tokens)) now).bucket spent =
        (rl.bucket spent).refillBy r (min tokens r : ℕ) now := by
      have hnow : now ≠ 0 := by omega
      have hl : min (r : ℤ) (rl.buckets + tokens) =
          min (r : ℤ) (rl.buckets + min (tokens : ℤ) r) := by
        omega
      simp [PDBRateLimit.bucket, refillBy, hnow, hl]
    rw [heq]
    exact h.refillBy (by positivity) (by exact_mod_cast hq) ho (rl.bucket_last hset spent)
      hw

end Refill

/-! ### Invariants of a run -/

namespace Limiter

variable {r q : ℕ} {l : Limiter} {now : ℕ}

/-- The checks that were answered with `TRUE` from `origin` on. -/
def grantedSince (l : Limiter) (origin : ℕ) : ℕ := l.granted.countP fun t => origin ≤ t

structure Inv (r q : ℕ) (l : Limiter) : Prop where
  nonneg : 0 ≤ l.rl.buckets
  full : l.rl.buckets ≤ r
  last : l.rl.lastCheck ≤ l.now
  unused : l.rl.lastCheck = 0 → l.granted = []
  past : ∀ t ∈ l.granted, t ≤ l.now
  within : ∀ origin : ℕ, TokenBucket.Within r q origin 0 (l.rl.bucket (l.grantedSince origin))
  bound : ∀ t₁ t₂ : ℕ, t₁ ≤ t₂ →
    (l.grantedIn t₁ t₂ : ℤ) ≤ r + (r * (t₂ - t₁) + (q - 1)) / q

theorem inv_start (hq : 0 < q) : start.Inv r q where
  nonneg := le_rfl
  full := by
    positivity
  last := le_rfl
  unused _ := rfl
  past _ ht := by simp [start] at ht
  within origin := .start (by positivity) (by exact_mod_cast hq) rfl (by
    positivity)
  bound t₁ t₂ hle := by
    have hc : (0 : ℤ) ≤ (r * (t₂ - t₁) + (q - 1)) / q := by
      apply ceil_nonneg (by exact_mod_cast hq)
      exact mul_nonneg (by positivity) (by omega)
    change ((0 : ℕ) : ℤ) ≤ _
    omega

section Step

variable (hfits : RateFits r q) (hr : 0 < r) (hq : 0 < q) (hi : l.Inv r q) (hnow : l.now ≤ now)
  (hok : Counted ⟨r, q⟩ (some l) now)
include hfits hr hq hi hnow hok

end Step

end Limiter

/-! ### The limit -/

end SyslogNg.PatternDb
