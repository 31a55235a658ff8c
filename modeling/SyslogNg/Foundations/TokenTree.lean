import Mathlib.Tactic

/-!
# Counters in a tree

Every node counts the claims on it and its live children; a child is live while its own counter
is not zero. A node whose counter drops to zero turns into one claim on its parent. Whatever
the order of the changes, the counter of the root is zero exactly when no claim is left.
-/
namespace SyslogNg

open Function Finset

structure TokenTree where
  size : ℕ
  count : ℕ → ℕ
  parent : ℕ → Option ℕ

namespace TokenTree

/-- Children of `m` that still count. -/
def live (t : TokenTree) (m : ℕ) : ℕ :=
  ((Finset.range t.size).filter fun c => t.parent c = some m ∧ 0 < t.count c).card

def setCount (t : TokenTree) (m n : ℕ) : TokenTree :=
  { t with count := update t.count m n }

def fork (t : TokenTree) (m : ℕ) : TokenTree where
  size := t.size + 1
  count := update t.count t.size 1
  parent := update t.parent t.size (some m)

structure Valid (t : TokenTree) (claims : ℕ → ℕ) : Prop where
  balance : ∀ m < t.size, t.count m = claims m + t.live m
  parent_lt : ∀ c < t.size, ∀ m, t.parent c = some m → m < c
  /-- Only the first node has no parent. -/
  root : ∀ c < t.size, t.parent c = none → c = 0
  unclaimed : ∀ m, t.size ≤ m → claims m = 0

variable {t : TokenTree} {claims claims' : ℕ → ℕ} {m n o : ℕ}

theorem live_setCount (hp : 0 < n) (hm : 0 < t.count m) : (t.setCount m n).live o = t.live o := by
  refine congrArg card (filter_congr fun c _ => and_congr_right fun _ => ?_)
  by_cases hc : c = m
  · subst hc
    simp [setCount, hp, hm]
  · simp [setCount, hc]

/-- A node that does not count any more is missing from the live children of its parent. -/
theorem live_setCount_zero (hm : m < t.size) (hps : 0 < t.count m) :
    (t.setCount m 0).live o + (if t.parent m = some o then 1 else 0) = t.live o := by
  have he : ((range t.size).filter fun c =>
      t.parent c = some o ∧ 0 < (t.setCount m 0).count c) =
      ((range t.size).filter fun c => t.parent c = some o ∧ 0 < t.count c).erase m := by
    ext c
    rw [mem_erase, mem_filter]
    by_cases hc : c = m
    · subst hc
      simp [setCount]
    · simp [setCount, hc]
  change ((range t.size).filter fun c =>
    t.parent c = some o ∧ 0 < (t.setCount m 0).count c).card + _ = _
  rw [he]
  split_ifs with hp
  · exact card_erase_add_one (by simp [hm, hp, hps])
  · rw [erase_eq_of_notMem (by simp [hp])]
    rfl

theorem live_fork (hm : m < t.size) : (t.fork m).live o = t.live o + if o = m then 1 else 0 := by
  have hol : ∀ c ∈ range t.size,
      ((t.fork m).parent c = some o ∧ 0 < (t.fork m).count c) ↔
        t.parent c = some o ∧ 0 < t.count c := by
    intro c hc
    have hne : c ≠ t.size := (mem_range.mp hc).ne
    simp [fork, hne]
  unfold live
  rw [show (t.fork m).size = t.size + 1 from rfl, range_add_one, filter_insert, filter_congr hol]
  by_cases ho : o = m
  · subst ho
    rw [if_pos (by simp [fork]), if_pos rfl, card_insert_of_notMem (by simp)]
  · rw [if_neg (by simp [fork, Ne.symm ho]), if_neg ho, add_zero]

section Changes

variable (h : t.Valid claims)
include h

theorem Valid.lt (hm : 0 < claims m) : m < t.size := by
  by_contra hge
  exact absurd (h.unclaimed m (not_lt.mp hge)) (by omega)

theorem Valid.count_pos (hm : 0 < claims m) : 0 < t.count m := by
  have hb := h.balance m (h.lt hm)
  omega

/-- Somebody who has a claim makes another one. -/
theorem Valid.add (hm : 0 < claims m)
    (hcl : ∀ o, claims' o = claims o + if o = m then 1 else 0) :
    (t.setCount m (t.count m + 1)).Valid claims' := by
  refine ⟨fun o ho => ?_, h.parent_lt, h.root, fun o ho => ?_⟩
  · have hb := h.balance o ho
    rw [live_setCount (Nat.succ_pos _) (h.count_pos hm), hcl]
    by_cases hom : o = m
    · subst hom
      simp only [setCount, update_self, if_true]
      omega
    · simpa [setCount, hom] using hb
  · have hne : o ≠ m := ((h.lt hm).trans_le ho).ne'
    rw [hcl, if_neg hne]
    exact h.unclaimed o ho

/-- A claim is given up; the last one on a node becomes a claim on its parent. -/
theorem Valid.sub (hm : 0 < claims m) (hcl : ∀ o, claims' o + (if o = m then 1 else 0) =
      claims o + if t.count m = 1 ∧ t.parent m = some o then 1 else 0) :
    (t.setCount m (t.count m - 1)).Valid claims' := by
  have hlt := h.lt hm
  have hp := h.count_pos hm
  refine ⟨fun o ho => ?_, h.parent_lt, h.root, fun o ho => ?_⟩
  · have hb := h.balance o ho
    have hc := hcl o
    have hl : (t.setCount m (t.count m - 1)).live o +
        (if t.count m = 1 ∧ t.parent m = some o then 1 else 0) = t.live o := by
      by_cases hon : t.count m = 1
      · simpa [hon] using live_setCount_zero (o := o) hlt hp
      · rw [live_setCount (by omega) hp, if_neg fun hh => hon hh.1, add_zero]
    by_cases hom : o = m
    · subst hom
      rw [if_pos rfl] at hc
      simp only [setCount, update_self] at hl ⊢
      omega
    · rw [if_neg hom] at hc
      have hs : (t.setCount m (t.count m - 1)).count o = t.count o := by simp [setCount, hom]
      omega
  · have hc := hcl o
    have hu := h.unclaimed o ho
    have hpr : ¬(t.count m = 1 ∧ t.parent m = some o) := fun hh =>
      ((h.parent_lt m hlt o hh.2).trans (hlt.trans_le ho)).false
    rw [if_neg hpr] at hc
    omega

/-- A claim on a node becomes a claim on a new child of it. -/
theorem Valid.fork (hm : m < t.size) (hcl : ∀ o, claims' o + (if o = m then 1 else 0) =
      claims o + if o = t.size then 1 else 0) : (t.fork m).Valid claims' := by
  refine ⟨fun o ho => ?_, fun c hc o hp => ?_, fun c hc hp => ?_, fun o ho => ?_⟩
  · rw [live_fork hm]
    have hc := hcl o
    by_cases hos : o = t.size
    · subst hos
      have hn : t.live t.size = 0 := by
        refine card_eq_zero.mpr (filter_eq_empty_iff.mpr fun c hc hp => ?_)
        have hlt := mem_range.mp hc
        exact absurd (h.parent_lt c hlt _ hp.1) (by omega)
      have hol := h.unclaimed t.size le_rfl
      rw [if_pos rfl] at hc
      simp only [TokenTree.fork, update_self]
      omega
    · have hol := h.balance o (lt_of_le_of_ne (Nat.lt_succ_iff.mp ho) hos)
      rw [if_neg hos] at hc
      have hs : (t.fork m).count o = t.count o := by simp [TokenTree.fork, hos]
      omega
  · by_cases hcs : c = t.size
    · subst hcs
      simp only [TokenTree.fork, update_self, Option.some.injEq] at hp
      omega
    · refine h.parent_lt c (lt_of_le_of_ne (Nat.lt_succ_iff.mp hc) hcs) o ?_
      simpa [TokenTree.fork, hcs] using hp
  · by_cases hcs : c = t.size
    · subst hcs
      simp [TokenTree.fork] at hp
    · refine h.root c (lt_of_le_of_ne (Nat.lt_succ_iff.mp hc) hcs) ?_
      simpa [TokenTree.fork, hcs] using hp
  · have hc := hcl o
    have hlt : t.size + 1 ≤ o := ho
    have hol := h.unclaimed o (by omega)
    rw [if_neg (by omega : ¬o = t.size)] at hc
    omega

end Changes

section Root

variable (h : t.Valid claims)
include h

/-- Without claims the youngest node that counts would have a live child. -/
theorem Valid.count_eq_zero (hn : ∀ m, claims m = 0) (hm : m < t.size) : t.count m = 0 := by
  induction hk : t.size - m using Nat.strong_induction_on generalizing m with
  | _ k ih =>
    rw [h.balance m hm, hn m, zero_add]
    refine card_eq_zero.mpr (filter_eq_empty_iff.mpr fun c hc hp => ?_)
    have hlt := mem_range.mp hc
    have hgt := h.parent_lt c hlt m hp.1
    have hz := ih (t.size - c) (by omega) hlt rfl
    omega

end Root

end TokenTree
end SyslogNg
