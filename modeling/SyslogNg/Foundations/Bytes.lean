import Mathlib.Tactic

/-!
# Bytes and characters

Texts are lists of bytes. The classes of characters are those of ASCII.
-/
namespace SyslogNg

open List Nat

abbrev Bytes := List UInt8

def isDigit (b : UInt8) : Bool := 0x30 ≤ b && b ≤ 0x39

def digit (b : UInt8) : ℕ := b.toNat - 0x30

def isAlnum (b : UInt8) : Bool := isDigit b || (0x41 ≤ b && b ≤ 0x5a) || (0x61 ≤ b && b ≤ 0x7a)

def isXdigit (b : UInt8) : Bool := isDigit b || (0x41 ≤ b && b ≤ 0x46) || (0x61 ≤ b && b ≤ 0x66)

def isspace (b : UInt8) : Bool := b == 0x20 || (0x09 ≤ b && b ≤ 0x0d)

theorem isDigit_spec {b : UInt8} (h : isDigit b = true) :
    isspace b = false ∧ b ≠ 0 ∧ b ≠ 0x2d ∧ b ≠ 0x2b := by
  simp only [isDigit, isspace, Bool.and_eq_true, decide_eq_true_eq, Bool.or_eq_false_iff,
    Bool.and_eq_false_iff, decide_eq_false_iff_not, beq_eq_false_iff_ne, UInt8.le_iff_toNat_le,
    ← UInt8.toNat_inj, ne_eq, UInt8.reduceToNat] at h ⊢
  omega

/-! ### Decimal numbers -/

def decimalText (n : ℕ) : Bytes := (toDigits 10 n).map fun digit => UInt8.ofNat digit.toNat

def decimal (digits : Bytes) : ℕ := digits.foldl (fun n b => 10 * n + digit b) 0

theorem digitChar_eq {d : ℕ} (h : d < 10) :
    UInt8.ofNat (digitChar d).toNat = UInt8.ofNat (48 + d) := by
  interval_cases d <;> rfl

theorem digit_ofNat {n : ℕ} (h : n < 10) : isDigit (UInt8.ofNat (48 + n)) = true ∧
    digit (UInt8.ofNat (48 + n)) = n := by
  interval_cases n <;> decide

/-- The text of a number ends in its last digit. -/
theorem decimalText_eq (n : ℕ) : decimalText n =
    (if n < 10 then [] else decimalText (n / 10)) ++ [UInt8.ofNat (48 + n % 10)] := by
  unfold decimalText
  rw [toDigits_eq_if (by omega)]
  split
  · rw [map_singleton, digitChar_eq (by omega), mod_eq_of_lt (by omega)]
    rfl
  · rw [map_append, map_singleton, digitChar_eq (mod_lt _ (by omega))]

theorem decimalText_ne_nil (n : ℕ) : decimalText n ≠ [] := by
  rw [decimalText_eq]
  simp

theorem isDigit_of_mem_decimalText {n : ℕ} {b : UInt8} (hb : b ∈ decimalText n) :
    isDigit b = true := by
  induction n using Nat.strong_induction_on with
  | _ n ih =>
    rw [decimalText_eq, mem_append] at hb
    rcases hb with hb | hb
    · split at hb
      · simp at hb
      · exact ih (n / 10) (by omega) hb
    · rw [mem_singleton.mp hb]
      exact (digit_ofNat (mod_lt _ (by omega))).1

/-- Whether the bytes are valid when so many bytes of a character are missing, of which the first
has the given bounds. -/
def isUtf8From : ℕ → UInt8 → UInt8 → Bytes → Bool
  | missing, _, _, [] => missing = 0
  | missing + 1, low, high, b :: rest =>
    low ≤ b && b ≤ high && isUtf8From missing 0x80 0xbf rest
  | 0, _, _, b :: rest =>
    if 0x01 ≤ b ∧ b ≤ 0x7f then isUtf8From 0 0x80 0xbf rest
    else if 0xc2 ≤ b ∧ b ≤ 0xdf then isUtf8From 1 0x80 0xbf rest
    else if b = 0xe0 then isUtf8From 2 0xa0 0xbf rest
    else if b = 0xed then isUtf8From 2 0x80 0x9f rest
    else if 0xe1 ≤ b ∧ b ≤ 0xef then isUtf8From 2 0x80 0xbf rest
    else if b = 0xf0 then isUtf8From 3 0x90 0xbf rest
    else if 0xf1 ≤ b ∧ b ≤ 0xf3 then isUtf8From 3 0x80 0xbf rest
    else if b = 0xf4 then isUtf8From 3 0x80 0x8f rest
    else false

/-- NUL is not valid. -/
def isUtf8 (text : Bytes) : Bool := isUtf8From 0 0x80 0xbf text

theorem isUtf8From_append {m : ℕ} {low high : UInt8} {a : Bytes}
    (h : isUtf8From m low high a = true) (b : Bytes) :
    isUtf8From m low high (a ++ b) = isUtf8 b := by
  induction a generalizing m low high with
  | nil =>
    obtain rfl : m = 0 := by simpa [isUtf8From] using h
    cases b <;> rfl
  | cons c a ih =>
    rw [cons_append]
    cases m with
    | zero =>
      rw [isUtf8From] at h ⊢
      split_ifs at h ⊢ <;> exact ih h
    | succ m =>
      rw [isUtf8From, Bool.and_eq_true] at h
      rw [isUtf8From, h.1, ih h.2, Bool.true_and]

theorem isUtf8_ascii {a : Bytes} (h : ∀ b ∈ a, 0x20 ≤ b ∧ b ≤ 0x7f) : isUtf8 a = true := by
  induction a with
  | nil => rfl
  | cons b a ih =>
    obtain ⟨hb, ha⟩ := forall_mem_cons.mp h
    rw [isUtf8, isUtf8From, if_pos ⟨UInt8.le_trans (by decide) hb.1, hb.2⟩]
    exact ih ha

end SyslogNg
