import Mathlib.Data.List.TakeWhile
import SyslogNg.SyslogFormat.SdataBlocks

/-!
# Integer template functions

`$(+ a b)` and the other four of `modules/basicfuncs/basic-funcs.c` read their arguments by
`strtoll`, calculate with `long` of 64 bits and append the result in decimal digits. What they log
is left out.
-/
namespace SyslogNg.Template

open List

def IsLong (n : ℤ) : Prop := -2 ^ 63 ≤ n ∧ n < 2 ^ 63

instance (n : ℤ) : Decidable (IsLong n) := inferInstanceAs (Decidable (_ ∧ _))

def longText (n : ℤ) : Bytes := (if n < 0 then [0x2d] else []) ++ decimalText n.natAbs

/-- What stands behind a sign, if there is one -/
def unsigned (s : Bytes) : Bytes := if s.head? = some 0x2d ∨ s.head? = some 0x2b then s.tail else s

def signed (s : Bytes) (n : ℕ) : ℤ := if s.head? = some 0x2d then -n else n

/-- `strtoll` with base 10: the number, none for `ERANGE`, and the text at `endptr` -/
def strtoll (s : Bytes) : Option ℤ × Bytes :=
  let t := s.dropWhile isspace
  let digits := (unsigned t).takeWhile isDigit
  let n := signed t (decimal digits)
  if digits = [] then (some 0, s)
  else (if IsLong n then some n else none, (unsigned t).dropWhile isDigit)

/-- `tf_parse_int`; the argument ends at its first NUL. -/
def tfParseInt (arg : Bytes) : Option ℤ :=
  let s := arg.takeWhile (· != 0)
  if (strtoll s).2.length = s.length ∨ (strtoll s).2 ≠ [] then none else (strtoll s).1

def tfNumParse : List Bytes → Option (ℤ × ℤ)
  | [a, b] => do return (← tfParseInt a, ← tfParseInt b)
  | _ => none

/-- The result behind a call. A sum, a difference or a product is wrapped; a division by 0 is left
out, and that of `LONG_MIN` by -1 traps (none), for the remainder as well. -/
def tfNum (divides : Bool) (exact : ℤ → ℤ → ℤ) (argv : List Bytes) (result : Bytes) :
    Option Bytes :=
  match tfNumParse argv with
  | none => some result
  | some (n, m) =>
    if !divides then some (result ++ longText (Int.bmod (exact n m) (2 ^ 64)))
    else if m = 0 then some result
    else if n = -2 ^ 63 ∧ m = -1 then none
    else some (result ++ longText (exact n m))

def tfNumPlus := tfNum false (· + ·)

def tfNumMinus := tfNum false (· - ·)

def tfNumMulti := tfNum false (· * ·)

def tfNumDiv := tfNum true Int.tdiv

def tfNumMod := tfNum true Int.tmod

/-! ### What the functions are for -/

inductive NumFunc
  | plus | minus | multi | div | mod

namespace NumFunc

def call : NumFunc → List Bytes → Bytes → Option Bytes
  | plus => tfNumPlus
  | minus => tfNumMinus
  | multi => tfNumMulti
  | div => tfNumDiv
  | mod => tfNumMod

def exact : NumFunc → ℤ → ℤ → ℤ
  | plus => (· + ·)
  | minus => (· - ·)
  | multi => (· * ·)
  | div => Int.tdiv
  | mod => Int.tmod

def divides : NumFunc → Bool
  | div | mod => true
  | _ => false

theorem call_eq (f : NumFunc) : f.call = tfNum f.divides f.exact := by
  cases f <;> rfl

end NumFunc

/-- The number that is written: a sign, which may be missing, and digits -/
def decimalLong (s : Bytes) : Option ℤ :=
  if unsigned s ≠ [] ∧ (unsigned s).all isDigit ∧ IsLong (signed s (decimal (unsigned s))) then
    some (signed s (decimal (unsigned s)))
  else none

/-- The result with the exact number, or with nothing appended -/
def NumFunc.expected (f : NumFunc) (a b result : Bytes) : Bytes :=
  match decimalLong a, decimalLong b with
  | some n, some m =>
    if (f.divides → m ≠ 0) ∧ IsLong (f.exact n m) then result ++ longText (f.exact n m) else result
  | _, _ => result

/-- No white space in front and no NUL -/
def IsPlain (s : Bytes) : Prop := s.head?.all (fun b => !isspace b) = true ∧ 0 ∉ s

/-! ### Arguments -/

variable {s : Bytes}

theorem longText_ne_nil (n : ℤ) : longText n ≠ [] :=
  append_ne_nil_of_right_ne_nil _ (decimalText_ne_nil _)

theorem length_unsigned_le (s : Bytes) : (unsigned s).length ≤ s.length := by
  rw [unsigned]
  split_ifs <;> simp

theorem tfParseInt_eq (arg : Bytes) :
    tfParseInt arg = decimalLong ((arg.takeWhile (· != 0)).dropWhile isspace) := by
  rw [tfParseInt, decimalLong, strtoll]
  generalize arg.takeWhile (· != 0) = s
  have hle := (length_unsigned_le _).trans (dropWhile_suffix isspace (l := s)).length_le
  generalize s.dropWhile isspace = t at hle
  generalize unsigned t = d at hle
  by_cases ha : d.all isDigit
  · have ht : d.takeWhile isDigit = d := takeWhile_eq_self_iff.mpr (all_eq_true.mp ha)
    have hr : d.dropWhile isDigit = [] := dropWhile_eq_nil_iff.mpr (all_eq_true.mp ha)
    cases d with
    | nil => simp
    | cons b d =>
      have hp : 0 ≠ s.length := (Nat.lt_of_lt_of_le (Nat.succ_pos _) hle).ne
      simp only [ht, hr, ha]
      simp [hp]
  · have hr : d.dropWhile isDigit ≠ [] := by
      rw [ne_eq, dropWhile_eq_nil_iff, ← all_eq_true]
      exact ha
    rw [if_neg (c := d ≠ [] ∧ _) fun h => ha h.2.1]
    by_cases he : d.takeWhile isDigit = [] <;> simp [he, hr]

theorem tfParseInt_of_plain (h : IsPlain s) : tfParseInt s = decimalLong s := by
  have ht : s.takeWhile (· != 0) = s :=
    takeWhile_eq_self_iff.mpr fun b hb => bne_iff_ne.mpr (ne_of_mem_of_not_mem hb h.2)
  rw [tfParseInt_eq, ht]
  cases s with
  | nil => rfl
  | cons b s =>
    have hb : isspace b = false := by simpa using h.1
    rw [dropWhile_cons, hb]
    rfl

theorem IsPlain.of_decimalLong {n : ℤ} (h : decimalLong s = some n) : IsPlain s := by
  rw [decimalLong] at h
  split_ifs at h with hs
  have hu := all_eq_true.mp hs.2.1
  cases s with
  | nil => exact ⟨rfl, not_mem_nil⟩
  | cons b s =>
    rw [unsigned] at hu
    split_ifs at hu with hb
    · have hn : ¬0 ∈ s := fun h => (isDigit_spec (hu 0 h)).2.1 rfl
      rcases hb with hb | hb <;> cases hb <;> exact ⟨rfl, by simpa using hn⟩
    · have hn : ¬0 ∈ b :: s := fun h => (isDigit_spec (hu 0 h)).2.1 rfl
      exact ⟨by simp [(isDigit_spec (hu b mem_cons_self)).1], hn⟩

/-! ### The result -/

theorem expected_eq {f : NumFunc} {a b : Bytes} {n m : ℤ} (ha : tfParseInt a = some n)
    (hb : tfParseInt b = some m) (result : Bytes) [Decidable (IsPlain a ∧ IsPlain b)] :
    f.expected a b result =
      if (IsPlain a ∧ IsPlain b) ∧ (f.divides → m ≠ 0) ∧ IsLong (f.exact n m) then
        result ++ longText (f.exact n m)
      else result := by
  rw [NumFunc.expected]
  by_cases hp : IsPlain a ∧ IsPlain b
  · simp [hp, ← tfParseInt_of_plain hp.1, ← tfParseInt_of_plain hp.2, ha, hb]
  · rw [if_neg fun h => hp h.1]
    split
    · next hk hl => exact absurd ⟨.of_decimalLong hk, .of_decimalLong hl⟩ hp
    · rfl

theorem bmod_of_isLong {k : ℤ} (h : IsLong k) : Int.bmod k (2 ^ 64) = k :=
  Int.bmod_eq_of_le_mul_two (by have := h.1; omega) (by have := h.2; omega)

theorem append_eq_ite_iff {result : Bytes} {k l : ℤ} {P : Prop} [Decidable P] (h : P → k = l) :
    (result ++ longText k = if P then result ++ longText l else result) ↔ P := by
  by_cases hp : P
  · simp [hp, h hp]
  · simp [hp, longText_ne_nil]

/-- The exact number or nothing is appended unless two numbers are read of which one is written
with white space in front or a NUL behind it, or whose result is not a `long`, or whose remainder
traps. -/
theorem exact_or_silent_iff (f : NumFunc) (a b result : Bytes) :
    f.call [a, b] result = some (f.expected a b result) ↔
      ∀ n, decimalLong ((a.takeWhile (· != 0)).dropWhile isspace) = some n →
        ∀ m, decimalLong ((b.takeWhile (· != 0)).dropWhile isspace) = some m →
        (f.divides → m ≠ 0) →
        (IsPlain a ∧ IsPlain b) ∧ IsLong (f.exact n m) ∧ ¬(f = .mod ∧ n = -2 ^ 63 ∧ m = -1) := by
  classical
  have hx {s : Bytes} (h : tfParseInt s = none) : decimalLong s = none := by
    by_contra hd
    obtain ⟨n, hn⟩ := Option.ne_none_iff_exists'.mp hd
    rw [tfParseInt_of_plain (.of_decimalLong hn)] at h
    exact hd h
  rw [f.call_eq, ← tfParseInt_eq, ← tfParseInt_eq]
  cases ha : tfParseInt a with
  | none => simp [tfNum, tfNumParse, ha, NumFunc.expected, hx ha]
  | some n =>
    cases hb : tfParseInt b with
    | none =>
      cases hd : decimalLong a <;> simp [tfNum, tfNumParse, hb, NumFunc.expected, hx hb]
    | some m =>
      have hnm : tfNumParse [a, b] = some (n, m) := by simp [tfNumParse, ha, hb]
      simp only [expected_eq ha hb, Option.some.injEq, forall_eq', tfNum, hnm]
      by_cases hz : f.divides = true ∧ m = 0
      · simp [hz]
      have hr : f.divides = true → m ≠ 0 := fun hd h => hz ⟨hd, h⟩
      by_cases ht : f.divides = true ∧ n = -2 ^ 63 ∧ m = -1
      · obtain ⟨hd, rfl, rfl⟩ := ht
        cases f with
        | div =>
          have hl : ¬IsLong (NumFunc.div.exact (-2 ^ 63) (-1)) := by decide
          simp only [hl, and_false]
          simp [NumFunc.divides]
        | mod => simp [NumFunc.divides]
        | _ => cases hd
      · have hc : ¬(f = .mod ∧ n = -2 ^ 63 ∧ m = -1) := by
          rintro ⟨rfl, h⟩
          exact ht ⟨rfl, h⟩
        simp only [hc, not_false_eq_true, and_true]
        cases hd : f.divides with
        | false =>
          simp only [Bool.not_false, if_true, Option.some.injEq, reduceCtorEq, false_implies,
            true_and, forall_const]
          exact append_eq_ite_iff fun h => bmod_of_isLong h.2
        | true =>
          have hn : ¬(n = -2 ^ 63 ∧ m = -1) := fun h => ht ⟨hd, h⟩
          simp only [Bool.not_true, Bool.false_eq_true, if_false, Option.some.injEq, hr hd, hn,
            ne_eq, not_false_eq_true, true_and, forall_const]
          exact append_eq_ite_iff fun _ => rfl

/-- `$(+ 9223372036854775807 1)` -/
theorem plus_wraps : NumFunc.plus.call [longText (2 ^ 63 - 1), [0x31]] [] ≠
    some (NumFunc.plus.expected (longText (2 ^ 63 - 1)) [0x31] []) := by
  decide

end SyslogNg.Template
