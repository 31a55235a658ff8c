import Mathlib.Tactic

/-!
# Numbers of fixed width in either byte order

A number is `w` bytes in memory; a host of the other byte order reads the same bytes as the number
with its bytes swapped.
-/
namespace SyslogNg

open List Nat

def toLe : ℕ → ℕ → List UInt8
  | 0, _ => []
  | w + 1, n => UInt8.ofNat n :: toLe w (n / 256)

def ofLe : List UInt8 → ℕ
  | [] => 0
  | b :: rest => b.toNat + 256 * ofLe rest

@[simp]
theorem length_toLe (w n : ℕ) : (toLe w n).length = w := by
  induction w generalizing n with
  | zero => rfl
  | succ w ih => rw [toLe, length_cons, ih]

theorem ofLe_toLe (w n : ℕ) : ofLe (toLe w n) = n % 256 ^ w := by
  induction w generalizing n with
  | zero => rw [pow_zero, mod_one, toLe, ofLe]
  | succ w ih => rw [toLe, ofLe, ih, UInt8.toNat_ofNat', pow_succ' 256 w, mod_mul]

theorem ofLe_lt (bytes : List UInt8) : ofLe bytes < 256 ^ bytes.length := by
  induction bytes with
  | nil => exact Nat.one_pos
  | cons b rest ih =>
    have hb := b.toNat_lt
    rw [ofLe, length_cons]
    omega

theorem ofLe_div {bytes : List UInt8} {k : ℕ} (hk : k < bytes.length) :
    ofLe bytes / 256 ^ k % 256 = bytes[k].toNat := by
  induction bytes generalizing k with
  | nil => cases hk
  | cons b bytes ih =>
    have hb : b.toNat < 256 := b.toNat_lt
    cases k with
    | zero =>
      rw [ofLe, Nat.pow_zero, getElem_cons_zero]
      omega
    | succ k =>
      have hd : (b.toNat + 256 * ofLe bytes) / 256 = ofLe bytes := by omega
      rw [ofLe, Nat.pow_succ', ← Nat.div_div_eq_div_mul, hd]
      exact ih (lt_of_succ_lt_succ hk)

theorem toLe_ofLe (bytes : List UInt8) : toLe bytes.length (ofLe bytes) = bytes := by
  induction bytes with
  | nil => rfl
  | cons b rest ih =>
    have hb := b.toNat_lt
    have hr : (b.toNat + 256 * ofLe rest) / 256 = ofLe rest := by omega
    have hf : UInt8.ofNat (b.toNat + 256 * ofLe rest) = b := by
      apply UInt8.toNat_inj.mp
      rw [UInt8.toNat_ofNat']
      omega
    rw [ofLe, length_cons, toLe, hr, hf, ih]

inductive ByteOrder
  | little
  | big
  deriving DecidableEq

namespace ByteOrder

def encode (o : ByteOrder) (w n : ℕ) : List UInt8 :=
  match o with
  | little => toLe w n
  | big => (toLe w n).reverse

def decode (o : ByteOrder) (bytes : List UInt8) : ℕ :=
  match o with
  | little => ofLe bytes
  | big => ofLe bytes.reverse

def other : ByteOrder → ByteOrder
  | little => big
  | big => little

def swap (w n : ℕ) : ℕ := ofLe (toLe w n).reverse

variable (o : ByteOrder) {w n : ℕ}

@[simp]
theorem length_encode (w n : ℕ) : (o.encode w n).length = w := by
  cases o <;> simp [encode]

theorem decode_encode (h : n < 256 ^ w) : o.decode (o.encode w n) = n := by
  cases o
  · rw [encode, decode, ofLe_toLe, mod_eq_of_lt h]
  · rw [encode, decode, reverse_reverse, ofLe_toLe, mod_eq_of_lt h]

theorem decode_other_encode (w n : ℕ) : o.other.decode (o.encode w n) = swap w n := by
  cases o <;> rfl

theorem swap_swap (h : n < 256 ^ w) : swap w (swap w n) = n := by
  have hb : toLe w (ofLe (toLe w n).reverse) = (toLe w n).reverse := by
    have hs := toLe_ofLe (toLe w n).reverse
    rwa [length_reverse, length_toLe] at hs
  rw [swap, swap, hb, reverse_reverse, ofLe_toLe, mod_eq_of_lt h]

theorem eq_or_eq_other (o' : ByteOrder) : o' = o ∨ o' = o.other := by
  cases o <;> cases o' <;> simp [other]

theorem decode_reverse (bytes : List UInt8) : o.decode bytes.reverse = o.other.decode bytes := by
  cases o <;> simp [decode, other]

theorem encode_swap_decode (bytes : List UInt8) :
    o.encode bytes.length (swap bytes.length (o.decode bytes)) = bytes.reverse := by
  have hb := toLe_ofLe bytes.reverse
  rw [length_reverse] at hb
  cases o
  · rw [encode, decode, swap, toLe_ofLe, hb]
  · rw [encode, decode, swap, hb, reverse_reverse, toLe_ofLe]

theorem decode_lt (bytes : List UInt8) : o.decode bytes < 256 ^ bytes.length := by
  cases o
  · exact ofLe_lt bytes
  · rw [← length_reverse]
    exact ofLe_lt bytes.reverse

variable {o} {numbers : List ℕ}

theorem length_flatMap_encode : (numbers.flatMap (o.encode w)).length = w * numbers.length := by
  induction numbers with
  | nil => rfl
  | cons n numbers ih =>
    rw [flatMap_cons, length_append, length_encode, ih, length_cons]
    ring

theorem take_drop_flatMap_encode {i : ℕ} (hi : i < numbers.length) :
    ((numbers.flatMap (o.encode w)).drop (w * i)).take w = o.encode w numbers[i] := by
  induction numbers generalizing i with
  | nil => simp at hi
  | cons n numbers ih =>
    rw [flatMap_cons]
    cases i with
    | zero =>
      have ht : ((o.encode w n) ++ numbers.flatMap (o.encode w)).take (o.encode w n).length =
          o.encode w n := take_left
      rw [length_encode] at ht
      rw [Nat.mul_zero, drop_zero, ht, getElem_cons_zero]
    | succ i =>
      have hd : w * (i + 1) = (o.encode w n).length + w * i := by
        rw [length_encode]
        ring
      rw [hd, drop_length_add_append, ih (by simpa using hi), getElem_cons_succ]

end ByteOrder

/-! ### Archives

Numbers in an archive have the most significant byte first, whatever the host is. -/

def readBytes (n : ℕ) (input : List UInt8) : Option (List UInt8 × List UInt8) :=
  if n ≤ input.length then some (input.take n, input.drop n) else none

def readNumber (w : ℕ) (input : List UInt8) : Option (ℕ × List UInt8) :=
  (readBytes w input).map fun read => (ByteOrder.big.decode read.1, read.2)

def writeNumber (w n : ℕ) : List UInt8 := ByteOrder.big.encode w n

def readNumbers (w : ℕ) : ℕ → List UInt8 → Option (List ℕ × List UInt8)
  | 0, input => some ([], input)
  | k + 1, input =>
    (readNumber w input).bind fun first =>
      (readNumbers w k first.2).map fun rest => (first.1 :: rest.1, rest.2)

theorem readBytes_append (bytes rest : List UInt8) :
    readBytes bytes.length (bytes ++ rest) = some (bytes, rest) := by
  simp [readBytes]

theorem readNumber_append {w n : ℕ} (h : n < 256 ^ w) (rest : List UInt8) :
    readNumber w (writeNumber w n ++ rest) = some (n, rest) := by
  have hr := readBytes_append (writeNumber w n) rest
  rw [writeNumber, ByteOrder.length_encode] at hr
  rw [readNumber, writeNumber, hr, Option.map_some, ByteOrder.decode_encode _ h]

theorem readNumbers_append {w : ℕ} {numbers : List ℕ} (h : ∀ n ∈ numbers, n < 256 ^ w)
    (rest : List UInt8) : readNumbers w numbers.length (numbers.flatMap (writeNumber w) ++ rest) =
      some (numbers, rest) := by
  induction numbers with
  | nil => rfl
  | cons n numbers ih =>
    rw [forall_mem_cons] at h
    rw [length_cons, readNumbers, flatMap_cons, append_assoc,
      readNumber_append h.1, Option.bind_some, ih h.2, Option.map_some]

end SyslogNg
