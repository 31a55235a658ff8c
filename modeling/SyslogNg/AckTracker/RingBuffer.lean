import SyslogNg.Foundations.Circular

/-!
# The ring buffer

`lib/ringbuffer.c` for elements of an arbitrary type. A pointer into the buffer is the
number of its element; the indices are `guint32` and wrap around there, and so do the number of
bytes that is allocated and the offset of an element. On a well-formed ring of at most `2 ^ 31`
elements, all of them in its memory, the wrap-around is never seen, and the elements are those at
the first `count` circular positions from `head`.
-/
namespace SyslogNg.AckTracker

open Circular Nat Function

structure RingBuffer (α : Type*) where
  buffer : ℕ → α
  head : ℕ
  tail : ℕ
  count : ℕ
  capacity : ℕ
  elementSize : ℕ
  /-- Number of bytes behind `buffer`, which is NULL for 0 -/
  allocated : ℕ

namespace RingBuffer

variable {α : Type*}

def fresh (content : ℕ → α) (elementSize capacity : ℕ) : RingBuffer α :=
  ⟨content, 0, 0, 0, capacity, elementSize, elementSize * capacity % 2 ^ 32⟩

/-- `ring_buffer_alloc`, with its assertion; `zero` is an element of zeroed memory. -/
def alloc (zero : α) (elementSize capacity : ℕ) : Option (RingBuffer α) :=
  if 0 < capacity then some (fresh (fun _ => zero) elementSize capacity) else none

variable (self : RingBuffer α)

/-- All bytes of the element are in the memory of the ring. -/
def Inside (r : ℕ) : Prop := r * self.elementSize % 2 ^ 32 + self.elementSize ≤ self.allocated

instance (r : ℕ) : Decidable (self.Inside r) := inferInstanceAs (Decidable (_ ≤ _))

def isFull : Bool := self.capacity = self.count

def tailElement : Option ℕ := if self.isFull then none else some self.tail

def push : Option (ℕ × RingBuffer α) :=
  match self.tailElement with
  | none => none
  | some r =>
    some (r, { self with
      count := (self.count + 1) % 2 ^ 32
      tail := (self.tail + 1) % 2 ^ 32 % self.capacity })

def drop (n : ℕ) : Bool × RingBuffer α :=
  if self.count < n then (false, self)
  else (true, { self with
    count := self.count - n
    head := (self.head + n) % 2 ^ 32 % self.capacity })

def elementAt (idx : ℕ) : Option ℕ :=
  if self.count ≤ idx then none else some ((self.head + idx) % 2 ^ 32 % self.capacity)

/-- The loop of `ring_buffer_get_continual_range_length`, which counts from `i` on. -/
def continualRangeFrom (pred : α → Bool) : ℕ → ℕ → ℕ
  | 0, _ => 0
  | fuel + 1, i =>
    match self.elementAt i with
    | none => 0
    | some r => if pred (self.buffer r) then continualRangeFrom pred fuel (i + 1) + 1 else 0

def getContinualRangeLength (pred : α → Bool) : ℕ := self.continualRangeFrom pred self.count 0

def set (r : ℕ) (x : α) : RingBuffer α :=
  { self with buffer := update self.buffer r x }

def slot (i : ℕ) : ℕ := pos self.capacity self.head i

structure WellFormed (b : RingBuffer α) : Prop where
  positive : 0 < b.capacity
  small : b.capacity ≤ 2 ^ 31
  fits : b.elementSize * b.capacity ≤ b.allocated
  head_lt : b.head < b.capacity
  count_le : b.count ≤ b.capacity
  tail_eq : b.tail = b.slot b.count

variable {self} (h : self.WellFormed)

variable {x : α} {r : ℕ}

@[simp]
theorem set_count : (self.set r x).count = self.count := rfl

@[simp]
theorem set_tail : (self.set r x).tail = self.tail := rfl

@[simp]
theorem set_slot (i : ℕ) : (self.set r x).slot i = self.slot i := rfl

theorem set_buffer_self : (self.set r x).buffer r = x := update_self ..

theorem set_buffer_of_ne {r j : ℕ} (hj : j ≠ r) :
    (self.set r x).buffer j = self.buffer j := update_of_ne hj ..

theorem wellFormed_fresh {content : ℕ → α} {size n : ℕ} (h0 : 0 < n) (h1 : n ≤ 2 ^ 31)
    (h2 : size * n < 2 ^ 32) : (fresh content size n).WellFormed :=
  ⟨h0, h1, (mod_eq_of_lt h2).ge, h0, Nat.zero_le _, by simp [fresh, slot, pos]⟩

theorem WellFormed.set : (self.set r x).WellFormed ↔ self.WellFormed :=
  ⟨fun ⟨a, b, c, d, e, f⟩ => ⟨a, b, c, d, e, f⟩, fun ⟨a, b, c, d, e, f⟩ => ⟨a, b, c, d, e, f⟩⟩

include h

theorem WellFormed.slot_lt (i : ℕ) : self.slot i < self.capacity := pos_lt h.positive

theorem WellFormed.inside (i : ℕ) : self.Inside (self.slot i) := by
  have hle := Nat.mul_le_mul_right self.elementSize (h.slot_lt i)
  have hf := h.fits
  rw [Nat.succ_mul] at hle
  rw [Nat.mul_comm] at hf
  unfold Inside
  omega

omit h in
theorem slot_inj {i j : ℕ} (hi : i < self.capacity) (hj : j < self.capacity)
    (he : self.slot i = self.slot j) : i = j := pos_inj hi hj he

theorem WellFormed.elementAt_eq {i : ℕ} (hi : i < self.count) :
    self.elementAt i = some (self.slot i) := by
  have h1 := h.small
  have h2 := h.head_lt
  have h3 := h.count_le
  rw [elementAt, if_neg (by omega), mod_eq_of_lt (by omega : self.head + i < 2 ^ 32)]
  rfl

theorem WellFormed.tailElement_eq (hr : self.count < self.capacity) :
    self.tailElement = some (self.slot self.count) := by
  have hf : self.isFull = false := by simp [isFull]; omega
  rw [tailElement, hf, h.tail_eq]
  rfl

/-- A push on a ring that is not full appends the element the tail names. -/
theorem WellFormed.push_eq (hr : self.count < self.capacity) :
    ∃ self', self.push = some (self.slot self.count, self') ∧ self'.WellFormed ∧
      self'.buffer = self.buffer ∧ self'.capacity = self.capacity ∧ self'.head = self.head ∧
      self'.count = self.count + 1 := by
  have h1 := h.small
  have h2 := h.slot_lt self.count
  have hc : (self.count + 1) % 2 ^ 32 = self.count + 1 := mod_eq_of_lt (by omega)
  have ht : (self.tail + 1) % 2 ^ 32 % self.capacity = self.slot (self.count + 1) := by
    rw [h.tail_eq, mod_eq_of_lt (by omega : self.slot self.count + 1 < 2 ^ 32)]
    unfold slot pos
    rw [mod_add_mod, Nat.add_assoc]
  refine ⟨{ self with count := self.count + 1, tail := self.slot (self.count + 1) }, ?_,
    ⟨h.positive, h1, h.fits, h.head_lt, hr, rfl⟩, rfl, rfl, rfl, rfl⟩
  simp only [push, h.tailElement_eq hr, hc, ht]

theorem WellFormed.drop_eq {n : ℕ} (hn : n ≤ self.count) :
    ∃ self', self.drop n = (true, self') ∧ self'.WellFormed ∧ self'.buffer = self.buffer ∧
      self'.capacity = self.capacity ∧ self'.count = self.count - n ∧
      ∀ i, self'.slot i = self.slot (n + i) := by
  have h1 := h.small
  have h2 := h.head_lt
  have h3 := h.count_le
  have hh : (self.head + n) % 2 ^ 32 % self.capacity = (self.head + n) % self.capacity := by
    rw [mod_eq_of_lt (by omega : self.head + n < 2 ^ 32)]
  have hs : ∀ i, pos self.capacity ((self.head + n) % self.capacity) i = self.slot (n + i) :=
    fun i => pos_shift n
  refine ⟨{ self with count := self.count - n, head := (self.head + n) % self.capacity }, ?_,
    ⟨h.positive, h1, h.fits, mod_lt _ h.positive, by dsimp only; omega, ?_⟩, rfl, rfl, rfl, hs⟩
  · rw [drop, if_neg (by omega), hh]
  · rw [slot]
    dsimp only
    rw [hs, h.tail_eq]
    congr 1
    omega

theorem WellFormed.continualRangeFrom_eq (pred : α → Bool) {fuel i : ℕ}
    (hi : i + fuel = self.count) :
    self.continualRangeFrom pred fuel i =
      (List.range' i fuel).findIdx fun k => !pred (self.buffer (self.slot k)) := by
  induction fuel generalizing i with
  | zero => rfl
  | succ fuel ih =>
    simp only [continualRangeFrom, h.elementAt_eq (i := i) (by omega), List.range'_succ,
      List.findIdx_cons]
    rw [ih (by omega)]
    cases pred (self.buffer (self.slot i)) <;> rfl

/-- The range is the longest run of elements from the head that satisfy the predicate. -/
theorem WellFormed.getContinualRangeLength_eq (pred : α → Bool) :
    self.getContinualRangeLength pred =
      (List.range self.count).findIdx fun k => !pred (self.buffer (self.slot k)) := by
  rw [List.range_eq_range']
  exact h.continualRangeFrom_eq pred (Nat.zero_add _)

theorem WellFormed.getContinualRangeLength_spec (pred : α → Bool) :
    self.getContinualRangeLength pred ≤ self.count ∧
      (∀ k < self.getContinualRangeLength pred, pred (self.buffer (self.slot k)) = true) ∧
      (self.getContinualRangeLength pred < self.count →
        pred (self.buffer (self.slot (self.getContinualRangeLength pred))) = false) := by
  rw [h.getContinualRangeLength_eq]
  refine ⟨List.findIdx_le_length.trans_eq List.length_range, fun k hk => ?_, fun hlt => ?_⟩
  · simpa using List.not_of_lt_findIdx hk
  · simpa using List.findIdx_getElem (w := hlt.trans_eq List.length_range.symm)

end RingBuffer
end SyslogNg.AckTracker
