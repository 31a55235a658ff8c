import Mathlib.Tactic
import SyslogNg.Foundations.UpdateSum

/-!
# A shared counter with private caches

Units are owned by threads or held in escrow. A shared field counts them, except that a
thread with an open window collects its own changes in a cache until it folds them in; a
window may start with a bias that is added to the field and subtracted in the cache. Each
thread's part of the field is what it owns less what it cached. While that part is positive
for every open window, the field is positive as long as a thread owns a unit or has a window.
-/
namespace SyslogNg

open Finset Function

structure Account where
  own : ℕ
  cached : ℤ
  bias : ℕ
  isOpen : Bool

namespace Account

/-- A change by `d` goes to the cache, or to the field when there is no window. -/
def bump (a : Account) (d : ℤ) (own : ℕ) : Account :=
  { a with own := own, cached := if a.isOpen then a.cached + d else a.cached }

def direct (a : Account) (d : ℤ) : ℤ := if a.isOpen then 0 else d

structure Ok (taken : ℕ) (a : Account) : Prop where
  closed : a.isOpen = false → a.cached = 0 ∧ a.bias = 0
  share : a.isOpen = true → a.bias = 0 → a.cached < a.own
  cap : a.cached + a.bias ≤ taken

end Account

structure Ledger (ι : Type*) where
  field : ℤ
  escrow : ℕ
  accounts : ι → Account
  initial : ℕ
  taken : ℕ
  given : ℕ

namespace Ledger

variable {ι : Type*}

section Definitions

variable [DecidableEq ι] (l : Ledger ι) (i : ι)

def change (d : ℤ) (own escrow taken given : ℕ) : Ledger ι :=
  ⟨l.field + (l.accounts i).direct d, escrow,
    update l.accounts i ((l.accounts i).bump d own), l.initial, taken, given⟩

def take : Ledger ι := l.change i 1 ((l.accounts i).own + 1) l.escrow (l.taken + 1) l.given

def give : Ledger ι := l.change i (-1) ((l.accounts i).own - 1) l.escrow l.taken (l.given + 1)

def deposit : Ledger ι :=
  { l with
    escrow := l.escrow + 1
    accounts := update l.accounts i
      { l.accounts i with own := (l.accounts i).own - 1 } }

def withdraw : Ledger ι :=
  { l with
    escrow := l.escrow - 1
    accounts := update l.accounts i
      { l.accounts i with own := (l.accounts i).own + 1 } }

def openWindow (bias : ℕ) : Ledger ι :=
  { l with
    field := l.field + bias
    accounts := update l.accounts i ⟨(l.accounts i).own, -bias, bias, true⟩ }

def fold : Ledger ι :=
  { l with
    field := l.field + (l.accounts i).cached
    accounts := update l.accounts i ⟨(l.accounts i).own, 0, 0, false⟩ }

variable {l i}

theorem change_field_of_open {d : ℤ} {own escrow taken given : ℕ}
    (h : (l.accounts i).isOpen = true) : (l.change i d own escrow taken given).field = l.field := by
  simp [change, Account.direct, h]

theorem change_field_of_closed {d : ℤ} {own escrow taken given : ℕ}
    (h : (l.accounts i).isOpen = false) :
    (l.change i d own escrow taken given).field = l.field + d := by
  simp [change, Account.direct, h]

end Definitions

variable [Fintype ι] {l : Ledger ι} {i : ι}

structure Valid (l : Ledger ι) : Prop where
  balance : l.field + ∑ j, (l.accounts j).cached = l.escrow + ∑ j, ((l.accounts j).own : ℤ)
  total : (l.escrow : ℤ) + ∑ j, ((l.accounts j).own : ℤ) + l.given = l.initial + l.taken
  upper : l.field + ∑ j, max ((l.accounts j).cached + (l.accounts j).bias) 0 ≤
    l.initial + l.taken + ∑ j, ((l.accounts j).bias : ℤ)
  lower : ∑ j, max (-((l.accounts j).cached + (l.accounts j).bias)) 0 ≤ l.given
  ok : ∀ j, (l.accounts j).Ok l.taken

section Operations

variable [DecidableEq ι]

theorem sum_update (φ : Account → ℤ) (f : ι → Account) (i : ι) (a : Account) :
    ∑ j, φ (update f i a j) = ∑ j, φ (f j) + (φ a - φ (f i)) := by
  have h := sum_update_add φ f i a
  omega

/-- Every operation changes one account; what it does to the totals decides the rest. -/
theorem Valid.update (h : l.Valid) {a : Account} {field : ℤ} {escrow taken given : ℕ}
    (hb : field + a.cached + l.escrow + (l.accounts i).own =
      l.field + (l.accounts i).cached + escrow + a.own) (ht : escrow + a.own + given + l.taken =
      l.escrow + (l.accounts i).own + l.given + taken)
    (hu : field + max (a.cached + a.bias) 0 + l.taken + (l.accounts i).bias ≤
      l.field + max ((l.accounts i).cached + (l.accounts i).bias) 0 + taken + a.bias)
    (hl : max (-(a.cached + a.bias)) 0 + l.given ≤
      max (-((l.accounts i).cached + (l.accounts i).bias)) 0 + given)
    (htk : l.taken ≤ taken) (hok : a.Ok taken) :
    Valid ⟨field, escrow, update l.accounts i a, l.initial, taken, given⟩ := by
  have ho := sum_update (fun a => (a.own : ℤ)) l.accounts i a
  have hcc := sum_update Account.cached l.accounts i a
  have hbias := sum_update (fun a => (a.bias : ℤ)) l.accounts i a
  have hp := sum_update (fun a => max (a.cached + a.bias) 0) l.accounts i a
  have hn := sum_update (fun a => max (-(a.cached + a.bias)) 0) l.accounts i a
  have h1 := h.balance
  have h2 := h.total
  have h3 := h.upper
  have h4 := h.lower
  refine ⟨?_, ?_, ?_, ?_, ?_⟩
  · simp only at ho hcc ⊢
    omega
  · simp only at ho ⊢
    omega
  · simp only at hp hbias ⊢
    omega
  · simp only at hn ⊢
    omega
  · intro j
    by_cases hj : j = i
    · subst hj
      simpa using hok
    · obtain ⟨hc, hs, hcp⟩ := h.ok j
      simp only [update_of_ne hj]
      exact ⟨hc, hs, by omega⟩

variable (h : l.Valid)
include h

theorem Valid.change {d : ℤ} {own escrow taken given : ℕ}
    (hsm : (escrow : ℤ) + own = l.escrow + (l.accounts i).own + d)
    (ht : (taken : ℤ) = l.taken + max d 0) (hg : (given : ℤ) = l.given + max (-d) 0)
    (hsh : (l.accounts i).isOpen = true → (l.accounts i).bias = 0 →
      (l.accounts i).cached + d < own) : (l.change i d own escrow taken given).Valid := by
  obtain ⟨hc, hs, hcp⟩ := h.ok i
  cases ho : (l.accounts i).isOpen with
  | false =>
    obtain ⟨hc0, hb0⟩ := hc ho
    refine h.update ?_ ?_ ?_ ?_ (by omega) ⟨?_, ?_, ?_⟩ <;>
      simp [Account.bump, Account.direct, ho, hb0] <;> omega
  | true =>
    have hsh := hsh ho
    refine h.update ?_ ?_ ?_ ?_ (by omega) ⟨?_, ?_, ?_⟩ <;>
      simp [Account.bump, Account.direct, ho] <;> omega

theorem Valid.take : (l.take i).Valid := by
  refine h.change ?_ ?_ ?_ fun ho hb => ?_
  all_goals first | omega | have := (h.ok i).share ho hb; omega

theorem Valid.give (how : 1 ≤ (l.accounts i).own) : (l.give i).Valid := by
  refine h.change ?_ ?_ ?_ fun ho hb => ?_
  all_goals first | omega | have := (h.ok i).share ho hb; omega

theorem Valid.deposit (how : 1 ≤ (l.accounts i).own)
    (hs : (l.accounts i).isOpen = true → (l.accounts i).bias = 0 →
      (l.accounts i).cached + 1 < (l.accounts i).own) : (l.deposit i).Valid := by
  obtain ⟨hc, -, hcp⟩ := h.ok i
  refine h.update ?_ ?_ le_rfl le_rfl le_rfl ⟨hc, fun ho hb => ?_, hcp⟩
  · dsimp only
    omega
  · dsimp only
    omega
  · have := hs ho hb
    dsimp only
    omega

theorem Valid.withdraw (he : 1 ≤ l.escrow) : (l.withdraw i).Valid := by
  obtain ⟨hc, hs, hcp⟩ := h.ok i
  refine h.update ?_ ?_ le_rfl le_rfl le_rfl ⟨hc, fun ho hb => ?_, hcp⟩
  · dsimp only
    omega
  · dsimp only
    omega
  · have := hs ho hb
    dsimp only
    omega

theorem Valid.openWindow {b : ℕ} (hcl : (l.accounts i).isOpen = false)
    (ho : b = 0 → 1 ≤ (l.accounts i).own) : (l.openWindow i b).Valid := by
  obtain ⟨hc, hb⟩ := (h.ok i).closed hcl
  refine h.update ?_ ?_ ?_ ?_ le_rfl ⟨by simp, ?_, ?_⟩ <;> dsimp only <;> omega

theorem Valid.fold : (l.fold i).Valid := by
  refine h.update ?_ ?_ ?_ ?_ le_rfl ⟨by simp, by simp, ?_⟩ <;> dsimp only <;> omega

end Operations

/-! ### What the field says -/

section Field

variable (h : l.Valid) (hbias : ∀ j, (l.accounts j).bias ≠ 0 → l.taken < (l.accounts j).bias)
include h

theorem Valid.field_eq :
    l.field = l.escrow + ∑ j, (((l.accounts j).own : ℤ) - (l.accounts j).cached) := by
  have := h.balance
  rw [sum_sub_distrib]
  omega

theorem Valid.field_le : l.field ≤ l.initial + l.taken + ∑ j, ((l.accounts j).bias : ℤ) := by
  have hu := h.upper
  have hp : 0 ≤ ∑ j, max ((l.accounts j).cached + (l.accounts j).bias) 0 :=
    sum_nonneg fun j _ => le_max_right _ _
  omega

include hbias

theorem Valid.one_le_share {j : ι} (ho : (l.accounts j).isOpen = true) :
    1 ≤ ((l.accounts j).own : ℤ) - (l.accounts j).cached := by
  obtain ⟨-, hs, hc⟩ := h.ok j
  have hb := hbias j
  have hs := hs ho
  omega

theorem Valid.share_nonneg (j : ι) : 0 ≤ ((l.accounts j).own : ℤ) - (l.accounts j).cached := by
  cases ho : (l.accounts j).isOpen with
  | false =>
    have hc := ((h.ok j).closed ho).1
    omega
  | true =>
    have := h.one_le_share hbias ho
    omega

theorem Valid.share_add_escrow_le (j : ι) :
    l.escrow + (((l.accounts j).own : ℤ) - (l.accounts j).cached) ≤ l.field := by
  have ho := single_le_sum
    (f := fun j => ((l.accounts j).own : ℤ) - (l.accounts j).cached)
    (fun j _ => h.share_nonneg hbias j) (mem_univ j)
  have hf := h.field_eq
  omega

theorem Valid.field_nonneg : 0 ≤ l.field := by
  rw [h.field_eq]
  have := sum_nonneg fun j (_ : j ∈ univ) => h.share_nonneg hbias j
  omega

theorem Valid.one_le_field_of_open {j : ι} (ho : (l.accounts j).isOpen = true) : 1 ≤ l.field := by
  have hs := h.one_le_share hbias ho
  have hle := h.share_add_escrow_le hbias j
  omega

theorem Valid.one_le_field_of_own {j : ι} (how : 1 ≤ (l.accounts j).own) : 1 ≤ l.field := by
  cases ho : (l.accounts j).isOpen with
  | false =>
    have hc := ((h.ok j).closed ho).1
    have hle := h.share_add_escrow_le hbias j
    omega
  | true => exact h.one_le_field_of_open hbias ho

end Field

end Ledger
end SyslogNg
