import Mathlib.Tactic

/-!
# Bit fields of a machine word

A run of bits of a word, read and replaced with a mask and a shift. Replacing one field
changes no other, and a field that is used as a counter takes every value it has room for.
-/
namespace SyslogNg

open Nat

structure BitField (w : ℕ) where
  shift : ℕ
  width : ℕ
  le : shift + width ≤ w

namespace BitField

variable {w : ℕ} (f g : BitField w) (x v : BitVec w)

def mask : BitVec w := BitVec.ofNat w (2 ^ f.width - 1) <<< f.shift

def get : BitVec w := (x &&& f.mask) >>> f.shift

def toValue : BitVec w := (v <<< f.shift) &&& f.mask

def put : BitVec w := (x &&& ~~~f.mask) + f.toValue v

def Disjoint : Prop := f.shift + f.width ≤ g.shift ∨ g.shift + g.width ≤ f.shift

instance : Decidable (f.Disjoint g) := inferInstanceAs (Decidable (_ ∨ _))

variable {f g x v}

theorem getLsbD_mask {i : ℕ} : f.mask.getLsbD i = decide (f.shift ≤ i ∧ i < f.shift + f.width) := by
  have hle := f.le
  rw [mask, BitVec.getLsbD_shiftLeft, BitVec.getLsbD_ofNat, testBit_two_pow_sub_one,
    Bool.eq_iff_iff]
  simp only [Bool.and_eq_true, Bool.not_eq_true', decide_eq_true_eq, decide_eq_false_iff_not]
  omega

theorem getLsbD_get {i : ℕ} :
    (f.get x).getLsbD i = (decide (i < f.width) && x.getLsbD (f.shift + i)) := by
  rw [get, BitVec.getLsbD_ushiftRight, BitVec.getLsbD_and, getLsbD_mask, Bool.and_comm]
  simp

theorem getLsbD_put {i : ℕ} (hi : i < w) : (f.put x v).getLsbD i =
      if f.shift ≤ i ∧ i < f.shift + f.width then v.getLsbD (i - f.shift) else x.getLsbD i := by
  have hd : (x &&& ~~~f.mask) &&& f.toValue v = 0#w := by
    rw [toValue]
    ext j
    simp only [BitVec.getElem_and, BitVec.getElem_not]
    cases f.mask[j] <;> simp
  rw [put, BitVec.add_eq_or_of_and_eq_zero _ _ hd, BitVec.getLsbD_or, BitVec.getLsbD_and,
    BitVec.getLsbD_not, toValue, BitVec.getLsbD_and, BitVec.getLsbD_shiftLeft, getLsbD_mask]
  by_cases hin : f.shift ≤ i ∧ i < f.shift + f.width
  · simp [hin, hi]
  · simp [hin, hi]

theorem get_put_of_disjoint (h : Disjoint f g) : f.get (g.put x v) = f.get x := by
  have hle := f.le
  refine BitVec.eq_of_getLsbD_eq fun i hi => ?_
  rw [getLsbD_get, getLsbD_get]
  by_cases hw : i < f.width
  · rw [getLsbD_put (by omega), if_neg]
    rcases h with h | h <;> omega
  · simp [hw]

/-- What does not fit into the field is lost. -/
theorem toNat_get_put : (f.get (f.put x v)).toNat = v.toNat % 2 ^ f.width := by
  have hle := f.le
  refine eq_of_testBit_eq fun i => ?_
  rw [testBit_mod_two_pow]
  change (f.get (f.put x v)).getLsbD i = _
  rw [getLsbD_get]
  by_cases hw : i < f.width
  · rw [getLsbD_put (by omega), if_pos ⟨by omega, by omega⟩, Nat.add_sub_cancel_left]
    rfl
  · simp [hw]

theorem get_put_self (hv : v.toNat < 2 ^ f.width) : f.get (f.put x v) = v := by
  apply BitVec.eq_of_toNat_eq
  rw [toNat_get_put, mod_eq_of_lt hv]

theorem toNat_get_lt : (f.get x).toNat < 2 ^ f.width := by
  refine lt_pow_two_of_testBit _ fun i hi => ?_
  have hb : (f.get x).getLsbD i = false := by
    rw [getLsbD_get, decide_eq_false (by omega), Bool.false_and]
  exact hb

/-- Adding to a field that has room for the sum. -/
theorem toNat_get_put_add {y : BitVec w} {d : ℤ} (h0 : 0 ≤ ((f.get x).toNat : ℤ) + d)
    (h1 : ((f.get x).toNat : ℤ) + d < 2 ^ f.width) :
    ((f.get (f.put y (f.get x + BitVec.ofInt w d))).toNat : ℤ) = (f.get x).toNat + d := by
  have hw : (2 : ℤ) ^ f.width ≤ 2 ^ w :=
    pow_le_pow_right₀ (by norm_num) (by have := f.le; omega)
  have hs : ((f.get x + BitVec.ofInt w d).toNat : ℤ) = (f.get x).toNat + d := by
    rw [BitVec.toNat_add, BitVec.toNat_ofInt, Int.natCast_emod, cast_add,
      Int.toNat_of_nonneg (Int.emod_nonneg _ (by positivity)), Int.add_emod_emod, cast_pow,
      cast_ofNat, Int.emod_eq_of_lt h0 (by omega)]
  rw [get_put_self, hs]
  have : (((f.get x + BitVec.ofInt w d).toNat : ℕ) : ℤ) < (2 ^ f.width : ℕ) := by
    rw [hs]
    exact_mod_cast h1
  exact_mod_cast this

end BitField
end SyslogNg
