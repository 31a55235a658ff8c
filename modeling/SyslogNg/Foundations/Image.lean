import Mathlib.Tactic

/-!
# Bytes in memory

A region of memory is a byte for every address. What is written is read back, and what is not
written stays; numbers are stored in big-endian order.
-/
namespace SyslogNg

open List

abbrev Image := ℤ → UInt8

def be32 (n : ℕ) : List UInt8 :=
  [UInt8.ofNat (n / 2 ^ 24), UInt8.ofNat (n / 2 ^ 16), UInt8.ofNat (n / 2 ^ 8), UInt8.ofNat n]

def ofBe (bytes : List UInt8) : ℕ := bytes.foldl (fun n byte => n * 256 + byte.toNat) 0

@[simp] theorem length_be32 (n : ℕ) : (be32 n).length = 4 := rfl

theorem ofBe_be32 {n : ℕ} (hn : n < 2 ^ 32) : ofBe (be32 n) = n := by
  simp only [be32, ofBe, foldl_cons, foldl_nil, UInt8.toNat_ofNat']
  omega

theorem ofBe_concat (bytes : List UInt8) (byte : UInt8) :
    ofBe (bytes ++ [byte]) = ofBe bytes * 256 + byte.toNat := by
  simp [ofBe]

theorem ofBe_lt (bytes : List UInt8) : ofBe bytes < 256 ^ bytes.length := by
  induction bytes using List.reverseRecOn with
  | nil => simp [ofBe]
  | append_singleton bytes byte ih =>
    have hb := byte.toNat_lt
    rw [ofBe_concat, length_append, length_singleton]
    omega

namespace Image

def zero : Image := fun _ => 0

def slice (m : Image) (ofs : ℤ) (len : ℕ) : List UInt8 :=
  (List.range len).map fun k : ℕ => m (ofs + k)

def read32 (m : Image) (ofs : ℤ) : ℕ := ofBe (m.slice ofs 4)

def write (m : Image) (ofs : ℤ) (bytes : List UInt8) : Image := fun i =>
  if ofs ≤ i then (bytes[(i - ofs).toNat]?).getD (m i) else m i

def copy (m : Image) (ofs : ℤ) (source : Image) (sourceOfs : ℤ) (len : ℕ) : Image := fun i =>
  if ofs ≤ i ∧ i < ofs + len then source (sourceOfs + (i - ofs)) else m i

def fill (m : Image) (ofs : ℤ) (len : ℕ) (byte : UInt8) : Image := fun i =>
  if ofs ≤ i ∧ i < ofs + len then byte else m i

variable {m m' source : Image} {ofs sourceOfs i : ℤ} {len n : ℕ} {bytes : List UInt8} {k : ℕ}

@[simp] theorem length_slice : (m.slice ofs len).length = len := by simp [slice]

theorem slice_congr (h : ∀ i, ofs ≤ i → i < ofs + len → m i = m' i) :
    m.slice ofs len = m'.slice ofs len := by
  apply map_congr_left
  intro k hk
  have := mem_range.mp hk
  exact h _ (by omega) (by omega)

theorem slice_eq_iff : m.slice ofs bytes.length = bytes ↔
    ∀ k (hk : k < bytes.length), m (ofs + k) = bytes[k] := by
  constructor
  · intro h k hk
    have := congrArg (·[k]?) h
    simpa [slice, hk] using this
  · intro h
    apply ext_getElem (by simp)
    intro k _ hk
    simpa [slice] using h k hk

theorem slice_eq_slice_iff {ofs' : ℤ} : m.slice ofs len = m'.slice ofs' len ↔
    ∀ k < len, m (ofs + (k : ℕ)) = m' (ofs' + (k : ℕ)) := by
  rw [slice, slice, map_inj_left]
  simp only [mem_range]

@[simp] theorem slice_one : m.slice ofs 1 = [m ofs] := by simp [slice]

theorem read32_congr (h : ∀ i, ofs ≤ i → i < ofs + 4 → m i = m' i) :
    m.read32 ofs = m'.read32 ofs := congrArg ofBe (slice_congr h)

theorem read32_lt (m : Image) (ofs : ℤ) : m.read32 ofs < 2 ^ 32 := by
  have hlt := ofBe_lt (m.slice ofs 4)
  rwa [length_slice] at hlt

theorem write_of_lt (h : i < ofs) : m.write ofs bytes i = m i := if_neg (by omega)

theorem write_of_le (h : ofs + bytes.length ≤ i) : m.write ofs bytes i = m i := by
  have hn : bytes[(i - ofs).toNat]? = none := List.getElem?_eq_none (by omega)
  simp [write, hn]

/-- A write changes only the addresses it is about. -/
theorem write_of_not_mem (h : ¬(ofs ≤ i ∧ i < ofs + bytes.length)) : m.write ofs bytes i = m i := by
  rcases lt_or_ge i ofs with hlt | hge
  · exact write_of_lt hlt
  · exact write_of_le (by omega)

theorem write_add (hk : k < bytes.length) : m.write ofs bytes (ofs + k) = bytes[k] := by
  simp [write, hk]

@[simp] theorem write_nil : m.write ofs [] = m := by
  funext i
  simp [write]

@[simp] theorem write_singleton_self (byte : UInt8) : m.write ofs [byte] ofs = byte := by
  simp [write]

theorem write_singleton_of_ne {byte : UInt8} (h : i ≠ ofs) : m.write ofs [byte] i = m i := by
  apply write_of_not_mem
  simp only [length_singleton]
  omega

@[simp] theorem slice_write_self : (m.write ofs bytes).slice ofs bytes.length = bytes :=
  slice_eq_iff.mpr fun _ hk => write_add hk

theorem slice_write_of_length (h : bytes.length = len) :
    (m.write ofs bytes).slice ofs len = bytes := by
  rw [← h, slice_write_self]

@[simp] theorem write_slice_self : m.write ofs (m.slice ofs len) = m := by
  funext i
  by_cases hm : ofs ≤ i ∧ i < ofs + len
  · obtain ⟨k, rfl⟩ : ∃ k : ℕ, i = ofs + k := ⟨(i - ofs).toNat, by omega⟩
    rw [write_add (by simpa using hm.2)]
    simp [slice]
  · exact write_of_not_mem (by simpa using hm)

theorem read32_write_self (hn : n < 2 ^ 32) : (m.write ofs (be32 n)).read32 ofs = n := by
  rw [read32, ← length_be32 n, slice_write_self, ofBe_be32 hn]

theorem slice_write_of_le (h : k + len ≤ bytes.length) :
    (m.write ofs bytes).slice (ofs + k) len = (bytes.drop k).take len := by
  apply ext_getElem
  · rw [length_slice, length_take, length_drop]
    omega
  · intro i hi _
    rw [length_slice] at hi
    have hin : k + i < bytes.length := by omega
    have hb : m.write ofs bytes (ofs + (k + i : ℕ)) = bytes[k + i] := write_add hin
    rw [getElem_take, getElem_drop, ← hb]
    simp [slice, add_assoc]

theorem slice_write_of_disjoint {sliceOfs : ℤ}
    (h : sliceOfs + len ≤ ofs ∨ ofs + bytes.length ≤ sliceOfs) :
    (m.write ofs bytes).slice sliceOfs len = m.slice sliceOfs len :=
  slice_congr fun i _ _ => write_of_not_mem (by omega)

theorem drop_slice : (m.slice ofs len).drop k = m.slice (ofs + k) (len - k) := by
  apply ext_getElem
  · simp
  · intro i hi _
    simp [slice, add_assoc]

theorem take_slice (h : k ≤ len) : (m.slice ofs len).take k = m.slice ofs k := by
  apply ext_getElem
  · simpa using h
  · intro i hi _
    simp [slice]

theorem getElem?_slice : (m.slice ofs len)[k]? = if k < len then some (m (ofs + k)) else none := by
  split
  · next h => simp [slice, h]
  · next h => exact List.getElem?_eq_none (by simpa using h)

theorem write_append (first second : List UInt8) :
    (m.write ofs first).write (ofs + first.length) second = m.write ofs (first ++ second) := by
  funext i
  rcases lt_or_ge i (ofs + first.length) with hlt | hge
  · rw [write_of_lt hlt]
    unfold write
    split_ifs with hle
    · rw [List.getElem?_append_left (by omega)]
    · rfl
  · have hle : ofs ≤ i := by omega
    unfold write
    rw [if_pos hge, if_pos hle, if_pos hle, List.getElem?_append_right (by omega),
      List.getElem?_eq_none (l := first) (by omega),
      show (i - (ofs + first.length)).toNat = (i - ofs).toNat - first.length by omega]
    rfl

theorem read32_write_append (hn : n < 2 ^ 32) (rest : List UInt8) :
    (m.write ofs (be32 n ++ rest)).read32 ofs = n := by
  rw [← write_append, length_be32]
  have hs : ((m.write ofs (be32 n)).write (ofs + (4 : ℕ)) rest).read32 ofs =
      (m.write ofs (be32 n)).read32 ofs :=
    read32_congr fun i _ hi => write_of_lt (by simpa using hi)
  rw [hs, read32_write_self hn]

theorem copy_of_not_mem (h : ¬(ofs ≤ i ∧ i < ofs + len)) :
    m.copy ofs source sourceOfs len i = m i := if_neg h

theorem copy_add (hk : k < len) :
    m.copy ofs source sourceOfs len (ofs + k) = source (sourceOfs + k) := by
  simp [copy, hk]

theorem copy_same_of_mem (h : ofs ≤ i ∧ i < ofs + len) :
    m.copy ofs source ofs len i = source i := by
  rw [copy, if_pos h, add_sub_cancel]

theorem slice_copy_self :
    (m.copy ofs source sourceOfs len).slice ofs len = source.slice sourceOfs len := by
  apply map_congr_left
  intro k hk
  exact copy_add (mem_range.mp hk)

/-! ### Several members of a record -/

/-- Bytes at several distances from an address -/
def writeAll (m : Image) (base : ℤ) : List (ℕ × List UInt8) → Image
  | [] => m
  | field :: fields => (m.write (base + field.1) field.2).writeAll base fields

theorem writeAll_of_not_mem {base : ℤ} {fields : List (ℕ × List UInt8)}
    (h : ∀ field ∈ fields, ¬(base + field.1 ≤ i ∧ i < base + field.1 + field.2.length)) :
    m.writeAll base fields i = m i := by
  induction fields generalizing m with
  | nil => rfl
  | cons field fields ih =>
    rw [forall_mem_cons] at h
    rw [writeAll, ih h.2, write_of_not_mem h.1]

/-- Members that do not overlap are read back. -/
theorem slice_writeAll {base : ℤ} {fields : List (ℕ × List UInt8)}
    (h : fields.Pairwise fun f g => f.1 + f.2.length ≤ g.1 ∨ g.1 + g.2.length ≤ f.1)
    {field : ℕ × List UInt8} (hf : field ∈ fields) :
    (m.writeAll base fields).slice (base + field.1) field.2.length = field.2 := by
  induction fields generalizing m with
  | nil => cases hf
  | cons first fields ih =>
    rw [pairwise_cons] at h
    rw [writeAll]
    rcases mem_cons.mp hf with rfl | hf
    · have hs : ((m.write (base + field.1) field.2).writeAll base fields).slice (base + field.1)
          field.2.length = (m.write (base + field.1) field.2).slice (base + field.1)
            field.2.length := by
        refine slice_congr fun i hl hh => writeAll_of_not_mem fun g hg => ?_
        have ha := h.1 g hg
        omega
      rw [hs, slice_write_self]
    · exact ih h.2 hf

theorem fill_of_not_mem {byte : UInt8} (h : ¬(ofs ≤ i ∧ i < ofs + len)) :
    m.fill ofs len byte i = m i := if_neg h

section Reverse

variable {m : Image} {a i : ℤ} {w n : ℕ}

/-- `n` numbers of `w` bytes behind each other, each with its bytes the other way round -/
def reverseNumbers (m : Image) (w : ℕ) (a : ℤ) : ℕ → Image
  | 0 => m
  | n + 1 =>
    let m := m.reverseNumbers w a n
    m.write (a + (w * n : ℕ)) (m.slice (a + (w * n : ℕ)) w).reverse

theorem reverseNumbers_of_not_mem (h : i < a ∨ a + (w * n : ℕ) ≤ i) :
    m.reverseNumbers w a n i = m i := by
  induction n with
  | zero => rfl
  | succ n ih =>
    rw [Nat.mul_succ] at h
    rw [reverseNumbers, write_of_not_mem (by rw [length_reverse, length_slice]; omega),
      ih (by omega)]

theorem slice_reverseNumbers (hk : k < n) :
    (m.reverseNumbers w a n).slice (a + (w * k : ℕ)) w = (m.slice (a + (w * k : ℕ)) w).reverse := by
  induction n with
  | zero => exact absurd hk (Nat.not_lt_zero k)
  | succ n ih =>
    have hl : ((m.reverseNumbers w a n).slice (a + (w * n : ℕ)) w).reverse.length = w := by simp
    rw [reverseNumbers]
    rcases Nat.lt_succ_iff_lt_or_eq.mp hk with hlt | rfl
    · have hle : w * (k + 1) ≤ w * n := Nat.mul_le_mul_left w hlt
      rw [Nat.mul_succ] at hle
      rw [slice_write_of_disjoint (by rw [hl]; omega), ih hlt]
    · rw [slice_write_of_length hl, slice_congr fun i hi _ => reverseNumbers_of_not_mem (.inr hi)]

end Reverse

end Image
end SyslogNg
