import SyslogNg.Foundations.ByteOrder
import SyslogNg.LogProto.TextClient

/-!
# The search for the end of a message

`find_eom` in `modules/basic-proto/basic-proto.c` looks at eight bytes at a time: a word without a
zero byte and without a newline is skipped if adding the magic bits carries out of every byte. The
test may stop at a word that has neither, but it never skips one that has.
-/
namespace SyslogNg.LogProto

open List Nat BitVec

def isEom (b : UInt8) : Bool := b == 0x0a || b == 0

def magicBits : BitVec 64 := 0x7efefefefefefeff#64

/-- Whether a byte did not carry. -/
def mayHaveZero (w : BitVec 64) : Bool := ((w + magicBits) ^^^ ~~~w) &&& ~~~magicBits != 0#64

/-! ### The magic bits -/

def byteAt (w : BitVec 64) (k : ℕ) : ℕ := w.toNat / 2 ^ (8 * k) % 2 ^ 8

/-- The bit to which byte `k` carries; it is not one of the magic bits. -/
def carryBit (k : ℕ) : ℕ := if k = 7 then 63 else 8 * (k + 1)

/-- A zero byte does not carry: the bit behind it, or the highest one, stays as it was. -/
theorem mayHaveZero_of_byteAt {w : BitVec 64} {k : ℕ} (hk : k < 8) (hz : byteAt w k = 0) :
    mayHaveZero w = true := by
  have hc : carry (carryBit k) w magicBits false = false := by
    unfold byteAt at hz
    unfold carry
    interval_cases k <;> simp [carryBit, magicBits] at hz ⊢ <;> omega
  have hm : magicBits.getLsbD (carryBit k) = false := by
    interval_cases k <;> decide
  have hlt : carryBit k < 64 := by
    interval_cases k <;> decide
  have hb : (((w + magicBits) ^^^ ~~~w) &&& ~~~magicBits).getLsbD (carryBit k) = true := by
    rw [getLsbD_and, getLsbD_xor, getLsbD_not, getLsbD_not, getLsbD_add hlt, hc, hm]
    simp [hlt]
  unfold mayHaveZero
  rw [bne_iff_ne]
  intro hn
  rw [hn] at hb
  simp at hb

def word (o : ByteOrder) (bytes : Bytes) : BitVec 64 := BitVec.ofNat 64 (o.decode bytes)

/-- A byte in all places -/
def fill (c : UInt8) : BitVec 64 := word .little (replicate 8 c)

theorem byteAt_ofLe {bytes : Bytes} (hl : bytes.length = 8) {k : ℕ} (hk : k < bytes.length) :
    byteAt (BitVec.ofNat 64 (ofLe bytes)) k = bytes[k].toNat := by
  have hlt : ofLe bytes < 2 ^ 64 := by
    have hb := ofLe_lt bytes
    rwa [hl] at hb
  unfold byteAt
  rw [toNat_ofNat, mod_eq_of_lt hlt, Nat.pow_mul]
  exact ofLe_div hk

theorem exists_byteAt (o : ByteOrder) {bytes : Bytes} (hl : bytes.length = 8) {b : UInt8}
    (hb : b ∈ bytes) : ∃ k < 8, byteAt (word o bytes) k = b.toNat := by
  cases o with
  | little =>
    obtain ⟨k, hk, rfl⟩ := mem_iff_getElem.mp hb
    exact ⟨k, hl ▸ hk, byteAt_ofLe hl hk⟩
  | big =>
    rw [← length_reverse] at hl
    obtain ⟨k, hk, rfl⟩ := mem_iff_getElem.mp (mem_reverse.mpr hb)
    exact ⟨k, hl ▸ hk, byteAt_ofLe hl hk⟩

theorem byteAt_fill (c : UInt8) {k : ℕ} (hk : k < 8) : byteAt (fill c) k = c.toNat := by
  have hl : (List.replicate 8 c).length = 8 := length_replicate
  have hb := byteAt_ofLe hl (hl.symm ▸ hk)
  rwa [List.getElem_replicate] at hb

theorem byteAt_xor (w v : BitVec 64) (k : ℕ) : byteAt (w ^^^ v) k = byteAt w k ^^^ byteAt v k := by
  unfold byteAt
  rw [toNat_xor, ← shiftRight_eq_div_pow, ← shiftRight_eq_div_pow,
    ← shiftRight_eq_div_pow, shiftRight_xor_distrib, xor_mod_two_pow]

/-- A word with a NUL, or with a byte that is searched for, is not skipped. -/
theorem not_skipped (o : ByteOrder) {bytes : Bytes} (hl : bytes.length = 8) {b : UInt8}
    (hb : b ∈ bytes) : (b = 0 → mayHaveZero (word o bytes) = true) ∧
      mayHaveZero (word o bytes ^^^ fill b) = true := by
  obtain ⟨k, hk, hw⟩ := exists_byteAt o hl hb
  constructor
  · rintro rfl
    exact mayHaveZero_of_byteAt hk hw
  · apply mayHaveZero_of_byteAt hk
    rw [byteAt_xor, hw, byteAt_fill b hk, Nat.xor_self]

/-! ### The search -/

def isStop (stops : List UInt8) (b : UInt8) : Bool := stops.contains b || b == 0

/-- The word is looked at byte by byte, or skipped. -/
def findInWord (stops : List UInt8) (w : BitVec 64) (bytes : Bytes) : Option ℕ :=
  if mayHaveZero w || stops.any fun c => mayHaveZero (w ^^^ fill c) then
    bytes.findIdx? (isStop stops)
  else none

theorem findInWord_eq (stops : List UInt8) (o : ByteOrder) {bytes : Bytes}
    (hl : bytes.length = 8) :
    findInWord stops (word o bytes) bytes = bytes.findIdx? (isStop stops) := by
  unfold findInWord
  split
  case isTrue => rfl
  case isFalse hs =>
    symm
    rw [Bool.or_eq_true, any_eq_true] at hs
    rw [findIdx?_eq_none_iff]
    intro b hb
    have hn := not_skipped o hl hb
    rw [isStop, Bool.or_eq_false_iff, ← Bool.not_eq_true, contains_iff_mem, beq_eq_false_iff_ne]
    exact ⟨fun hm => hs (.inr ⟨b, hm, hn.2⟩), fun hz => hs (.inl (hn.1 hz))⟩

theorem isEom_eq : isEom = isStop [0x0a] := by
  funext b
  rw [isEom, isStop, contains_cons, contains_nil, Bool.or_false]

/-! ### The loops

`find_eom` and `find_cr_or_lf` of `lib/misc.c` are the same loops with different bytes. `none` is a
word that is not inside of the buffer. -/

def readWord (o : ByteOrder) (bytes : Bytes) : Option (BitVec 64) :=
  if bytes.length < 8 then none else some (word o (bytes.take 8))

/-- The loops from a word boundary on: where they return. -/
def scanWords (o : ByteOrder) (stops : List UInt8) : ℕ → Bytes → Option (Option ℕ)
  | 0, _ => none
  | fuel + 1, bytes =>
    if bytes.length > 8 then
      (readWord o bytes).bind fun w =>
        (findInWord stops w (bytes.take 8)).elim
          ((scanWords o stops fuel (bytes.drop 8)).map (Option.map (· + 8))) (some ∘ some)
    else some (bytes.findIdx? (isStop stops))

def scan (o : ByteOrder) (stops : List UInt8) (address : ℕ) (bytes : Bytes) : Option (Option ℕ) :=
  let unaligned := (8 - address % 8) % 8
  ((bytes.take unaligned).findIdx? (isStop stops)).elim
    ((scanWords o stops (bytes.length + 1) (bytes.drop unaligned)).map (Option.map (· + unaligned)))
    (some ∘ some)

def findEomOn (o : ByteOrder) : ℕ → Bytes → Option (Option ℕ) := scan o [0x0a]

/-- `find_eom` with little-endian words, for a start that is `address` bytes behind a word
boundary. -/
def findEom (address : ℕ) (bytes : Bytes) : Option ℕ := (findEomOn .little address bytes).join

/-- `find_cr_or_lf`, which returns `NULL` at a NUL. -/
def findCrOrLf (o : ByteOrder) (address : ℕ) (bytes : Bytes) : Option (Option ℕ) :=
  (scan o [0x0d, 0x0a] address bytes).map fun found => found.filter fun i => bytes[i]? != some 0

variable {o : ByteOrder} {stops : List UInt8} {bytes : Bytes}

/-- The search goes on behind `n` bytes if it did not stop in them. -/
theorem elim_findIdx? {p : UInt8 → Bool} (n : ℕ) :
    ((bytes.take n).findIdx? p).elim
      ((some ((bytes.drop n).findIdx? p)).map (Option.map (· + n))) (some ∘ some) =
    some (bytes.findIdx? p) := by
  conv_rhs => rw [← take_append_drop n bytes, List.findIdx?_append]
  cases hn : (bytes.take n).findIdx? p with
  | some i => rfl
  | none =>
    by_cases hl : n ≤ bytes.length
    · rw [length_take_of_le hl]
      rfl
    · rw [drop_of_length_le (by omega)]
      rfl

theorem scanWords_eq {fuel : ℕ} (hf : bytes.length < fuel) :
    scanWords o stops fuel bytes = some (bytes.findIdx? (isStop stops)) := by
  induction fuel generalizing bytes with
  | zero => omega
  | succ fuel ih =>
    rw [scanWords]
    split
    case isFalse => rfl
    case isTrue hl =>
      rw [readWord, if_neg (by omega), Option.bind_some,
        findInWord_eq stops o (length_take_of_le hl.le), ih (by rw [length_drop]; omega)]
      exact elim_findIdx? 8

theorem scan_eq (address : ℕ) :
    scan o stops address bytes = some (bytes.findIdx? (isStop stops)) := by
  rw [scan, scanWords_eq (by rw [length_drop]; omega)]
  exact elim_findIdx? _

/-- Whatever the address, the first NL or NUL is found. -/
theorem findEom_eq (address : ℕ) (bytes : Bytes) :
    findEom address bytes = bytes.findIdx? isEom := by
  rw [findEom, findEomOn, scan_eq, ← isEom_eq]
  rfl

/-- Both functions find what a plain loop finds, and read no word that is not inside. -/
theorem word_scans_exact (o : ByteOrder) (address : ℕ) (bytes : Bytes) :
    findEomOn o address bytes = some (bytes.findIdx? fun b => b == 0x0a || b == 0) ∧
    findCrOrLf o address bytes =
      some ((bytes.takeWhile (· != 0)).findIdx? fun b => b == 0x0d || b == 0x0a) := by
  constructor
  · rw [findEomOn, scan_eq, ← isEom_eq]
    rfl
  · rw [findCrOrLf, scan_eq, Option.map_some]
    congr 1
    induction bytes with
    | nil => rfl
    | cons b bytes ih =>
      rw [List.findIdx?_cons, takeWhile_cons]
      by_cases hz : b = 0
      · simp [hz, isStop]
      by_cases hs : b = 0x0d ∨ b = 0x0a
      · simp [hz, hs, isStop, List.findIdx?_cons]
      · obtain ⟨hr, hn⟩ := not_or.mp hs
        simp [hz, hr, hn, isStop, List.findIdx?_cons, ← ih, Option.filter_map, Function.comp_def]

end SyslogNg.LogProto
