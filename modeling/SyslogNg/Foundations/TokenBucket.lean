import Mathlib.Tactic

/-!
# A bucket that is filled by the passing of time

`rate` tokens come in during `unit` ticks of the clock, at most `rate` of them are kept, and the
time of the last refill moves only with a refill of at least one token. From any time on, at most
`rate` tokens can be spent, and what came in since; unless a token is spent while the time since
the last refill is worth a whole one.
-/
namespace SyslogNg

structure TokenBucket where
  level : ℤ
  /-- The last refill, if there was one. -/
  last : Option ℤ
  spent : ℤ

namespace TokenBucket

variable (rate unit : ℤ)

/-- So many tokens come in, as far as they fit. -/
def refillBy (b : TokenBucket) (tokens now : ℤ) : TokenBucket :=
  { b with
    level := min rate (b.level + tokens)
    last := some now }

def refill (b : TokenBucket) (now last : ℤ) : TokenBucket :=
  { b with
    level := min rate (b.level + rate * (now - last) / unit)
    last := if rate * (now - last) / unit = 0 then some last else some now }

def spend (b : TokenBucket) : TokenBucket := { b with level := b.level - 1, spent := b.spent + 1 }

/-- Ticks between `origin` and the last refill. -/
def elapsed (b : TokenBucket) (origin : ℤ) : ℤ :=
  (b.last.map fun last => max 0 (last - origin)).getD 0

/-- What was spent since `origin`, when `base` tokens were spent, and what is left. -/
structure Within (origin base : ℤ) (b : TokenBucket) : Prop where
  bound : b.spent - base + b.level ≤ rate + (rate * b.elapsed origin + (unit - 1)) / unit
  full : b.level ≤ rate
  /-- Nothing was spent while more than one token was missing. -/
  credit : ∀ last ∈ b.last, last < origin → b.spent = base ∨ rate * (origin - last) < unit

section Division

variable {unit} (hunit : 0 < unit)
include hunit

theorem ceil_add_floor_le (a b : ℤ) :
    (a + (unit - 1)) / unit + b / unit ≤ (a + b + (unit - 1)) / unit := by
  apply Int.le_ediv_of_mul_le hunit
  have ha := Int.ediv_mul_le (a + (unit - 1)) hunit.ne'
  have hb := Int.ediv_mul_le b hunit.ne'
  rw [add_mul]
  omega

theorem ceil_nonneg {a : ℤ} (ha : 0 ≤ a) : 0 ≤ (a + (unit - 1)) / unit :=
  Int.ediv_nonneg (by omega) hunit.le

end Division

variable {rate unit} {origin base now : ℤ} {b : TokenBucket}

theorem elapsed_of_none (hl : b.last = none) : b.elapsed origin = 0 := by
  simp [elapsed, hl]

theorem elapsed_of_some {last : ℤ} (hl : b.last = some last) :
    b.elapsed origin = max 0 (last - origin) := by
  simp [elapsed, hl]

theorem elapsed_nonneg (b : TokenBucket) (origin : ℤ) : 0 ≤ b.elapsed origin := by
  unfold elapsed
  cases b.last with
  | none => exact le_rfl
  | some last => exact le_max_left _ _

theorem Within.spend (h : Within rate unit origin base b)
    (hc : ∀ last ∈ b.last, last < origin → rate * (origin - last) < unit) :
    Within rate unit origin base b.spend := by
  have hb := h.bound
  refine ⟨?_, ?_, fun last hl hlt => .inr (hc last hl hlt)⟩
  · change b.spent + 1 - base + (b.level - 1) ≤ rate + (rate * b.elapsed origin + (unit - 1)) / unit
    omega
  · have := h.full
    change b.level - 1 ≤ rate
    omega

variable (hrate : 0 ≤ rate) (hunit : 0 < unit)
include hrate hunit

theorem Within.start (hs : b.spent = base) (hf : b.level ≤ rate) :
    Within rate unit origin base b := by
  have hc := ceil_nonneg hunit (mul_nonneg hrate (b.elapsed_nonneg origin))
  exact ⟨by omega, hf, fun _ _ _ => .inl hs⟩

/-- A clock that is not in use yet may be started at any time. -/
theorem Within.setLast (h : Within rate unit origin base b) (hn : b.last = none)
    {last : Option ℤ} (hl : ∀ time ∈ last, origin ≤ time) :
    Within rate unit origin base { b with last := last } := by
  have hb := h.bound
  have hc := ceil_nonneg hunit
    (mul_nonneg hrate (elapsed_nonneg { b with last := last } origin))
  rw [elapsed_of_none hn, mul_zero, Int.ediv_eq_zero_of_lt (by omega) (by omega)] at hb
  refine ⟨?_, h.full, fun time ht hlt => absurd (hl time ht) (by omega)⟩
  change b.spent - base + b.level ≤ _
  omega

/-- No more tokens come in than the time since the last refill is worth. -/
theorem Within.refillBy {last tokens : ℤ} (h : Within rate unit origin base b)
    (ho : origin ≤ now) (hl : b.last = some last) (htk : tokens ≤ rate * (now - last) / unit) :
    Within rate unit origin base (b.refillBy rate tokens now) := by
  have hb := h.bound
  rw [elapsed_of_some hl] at hb
  have he : (b.refillBy rate tokens now).elapsed origin = now - origin := by
    simp [TokenBucket.refillBy, elapsed, ho]
  refine ⟨?_, min_le_left _ _, ?_⟩
  · rw [he]
    change b.spent - base + min rate (b.level + tokens) ≤ _
    rcases le_or_gt origin last with ha | hbf
    · rw [max_eq_right (by omega)] at hb
      have hsm := ceil_add_floor_le hunit (rate * (last - origin)) (rate * (now - last))
      rw [show rate * (last - origin) + rate * (now - last) = rate * (now - origin) by ring]
        at hsm
      omega
    · rw [max_eq_left (by omega), mul_zero, Int.ediv_eq_zero_of_lt (by omega) (by omega)] at hb
      rcases h.credit last hl hbf with hs | hls
      · have hc := ceil_nonneg hunit (mul_nonneg hrate (by omega : 0 ≤ now - origin))
        omega
      · -- less than a token came in before the origin
        have hn : rate * (now - last) / unit ≤ (rate * (now - origin) + (unit - 1)) / unit := by
          apply Int.ediv_le_ediv hunit
          have : rate * (now - last) = rate * (now - origin) + rate * (origin - last) := by ring
          omega
        omega
  · intro time ht hlt
    cases ht
    omega

theorem Within.refill {last : ℤ} (h : Within rate unit origin base b) (ho : origin ≤ now)
    (hl : b.last = some last) : Within rate unit origin base (b.refill rate unit now last) := by
  by_cases hz : rate * (now - last) / unit = 0
  · have hs : b.refill rate unit now last = b := by
      rw [TokenBucket.refill, hz, add_zero, min_eq_right h.full, if_pos rfl, ← hl]
    exact hs.symm ▸ h
  · have hby : b.refill rate unit now last = b.refillBy rate (rate * (now - last) / unit) now := by
      rw [TokenBucket.refill, if_neg hz, TokenBucket.refillBy]
    exact hby.symm ▸ h.refillBy hrate hunit ho hl le_rfl

end TokenBucket
end SyslogNg
