import Mathlib.Algebra.BigOperators.Group.Finset.Basic

/-!
# Sums over a function that changes at one point
-/
namespace SyslogNg

open Finset Function

variable {ι α M : Type*} [Fintype ι] [DecidableEq ι] [AddCommMonoid M]

theorem sum_update_add (φ : α → M) (f : ι → α) (i : ι) (a : α) :
    ∑ j, φ (update f i a j) + φ (f i) = ∑ j, φ (f j) + φ a := by
  have hr : ∑ j ∈ univ.erase i, φ (update f i a j) =
      ∑ j ∈ univ.erase i, φ (f j) :=
    sum_congr rfl fun j hj => by rw [update_of_ne (ne_of_mem_erase hj)]
  rw [← add_sum_erase _ _ (mem_univ i), hr, update_self,
    ← add_sum_erase _ (fun j => φ (f j)) (mem_univ i), add_right_comm,
    add_comm (φ a), add_right_comm]

end SyslogNg
