import SyslogNg.AckTracker.RingBuffer

/-!
# The ring buffer as a queue

Whatever is pushed, popped and dropped, the elements are a queue of slots, as long as the sum of
`head` and an index is a `guint32`: rings of more than `2 ^ 31` slots find a slot at two positions.
-/
namespace SyslogNg.AckTracker.RingBuffer

open List

variable {α : Type*} (b : RingBuffer α)

def pop : Option ℕ × RingBuffer α :=
  if b.count = 0 then (none, b)
  else (some b.head, { b with
    count := b.count - 1
    head := (b.head + 1) % 2 ^ 32 % b.capacity })

inductive Op
  | push
  | pop
  | drop (n : ℕ)

def exec : Op → RingBuffer α
  | .push => (b.push.map Prod.snd).getD b
  | .pop => b.pop.2
  | .drop n => (b.drop n).2

/-- The slots that `ring_buffer_element_at` finds -/
def contents : List ℕ := (range b.count).filterMap b.elementAt

/-- The ring does what a bounded queue does with these slots; elements have a size. -/
structure IsQueue (size : ℕ) : Prop where
  bounded : b.contents.length ≤ b.capacity
  distinct : (b.contents.map fun r => r * size % 2 ^ 32).Nodup
  elementAt : ∀ i, b.elementAt i = b.contents[i]?
  push : if b.contents.length = b.capacity then b.push = none
    else ∃ r b', b.tailElement = some r ∧ b.push = some (r, b') ∧ b'.contents = b.contents ++ [r]
  pop : b.pop.1 = b.contents.head? ∧ b.pop.2.contents = b.contents.tail
  drop : ∀ n, if b.contents.length < n then b.drop n = (false, b)
    else (b.drop n).1 = true ∧ (b.drop n).2.contents = b.contents.drop n
  range : ∀ pred : α → Bool,
    b.getContinualRangeLength pred = (b.contents.takeWhile fun r => pred (b.buffer r)).length

variable {b} {size : ℕ}

section

variable (h : b.WellFormed)
include h

theorem WellFormed.contents_eq : b.contents = (List.range b.count).map b.slot := by
  rw [← filterMap_eq_map]
  exact filterMap_congr fun i hi => h.elementAt_eq (mem_range.mp hi)

theorem WellFormed.drop_contents {n : ℕ} (hn : n ≤ b.count) :
    (b.drop n).1 = true ∧ (b.drop n).2.WellFormed ∧ (b.drop n).2.capacity = b.capacity ∧
      (b.drop n).2.contents = b.contents.drop n := by
  obtain ⟨b', hb, hwf, -, hc, hct, hsl⟩ := h.drop_eq hn
  rw [hb, h.contents_eq, hwf.contents_eq, ← map_drop, range_eq_range' (n := b.count), drop_range',
    zero_add, mul_one, range'_eq_map_range, List.map_map, hct]
  exact ⟨rfl, hwf, hc, map_congr_left fun i _ => hsl i⟩

theorem WellFormed.push_contents (hr : b.count < b.capacity) :
    ∃ b', b.push = some (b.slot b.count, b') ∧ b'.WellFormed ∧ b'.capacity = b.capacity ∧
      b'.contents = b.contents ++ [b.slot b.count] := by
  obtain ⟨b', hb, hwf, -, hc, hh, hct⟩ := h.push_eq hr
  have hsl : b'.slot = b.slot := by
    funext i
    rw [slot, slot, hc, hh]
  exact ⟨b', hb, hwf, hc, by simp [h.contents_eq, hwf.contents_eq, hct, hsl, range_succ]⟩

omit h in
theorem pop_eq (hp : 0 < b.count) : b.pop = (some b.head, (b.drop 1).2) := by
  rw [RingBuffer.pop, if_neg hp.ne', RingBuffer.drop, if_neg (Nat.not_lt_of_le hp)]

omit h in
theorem push_full (hf : b.count = b.capacity) : b.push = none := by
  simp [RingBuffer.push, tailElement, isFull, hf]

theorem WellFormed.exec (op : Op) : (b.exec op).WellFormed ∧ (b.exec op).capacity = b.capacity := by
  cases op with
  | push =>
    rcases h.count_le.lt_or_eq with hr | hf
    · obtain ⟨b', hb, hwf, hc, -⟩ := h.push_contents hr
      rw [RingBuffer.exec, hb]
      exact ⟨hwf, hc⟩
    · rw [RingBuffer.exec, push_full hf]
      exact ⟨h, rfl⟩
  | pop =>
    rw [RingBuffer.exec]
    rcases Nat.eq_zero_or_pos b.count with hz | hp
    · rw [RingBuffer.pop, if_pos hz]
      exact ⟨h, rfl⟩
    · rw [pop_eq hp]
      exact ⟨(h.drop_contents hp).2.1, (h.drop_contents hp).2.2.1⟩
  | drop n =>
    rw [RingBuffer.exec]
    rcases Nat.lt_or_ge b.count n with hlt | hge
    · rw [RingBuffer.drop, if_pos hlt]
      exact ⟨h, rfl⟩
    · exact ⟨(h.drop_contents hge).2.1, (h.drop_contents hge).2.2.1⟩

theorem WellFormed.isQueue (hs : 0 < size) (hc : size * b.capacity < 2 ^ 32) : b.IsQueue size := by
  have hl : b.contents.length = b.count := by simp [h.contents_eq]
  have hle := h.count_le
  constructor
  · omega
  · have ha : ∀ i, b.slot i * size % 2 ^ 32 = b.slot i * size := by
      intro i
      have hm := Nat.mul_le_mul_right size (h.slot_lt i).le
      rw [mul_comm] at hc
      exact Nat.mod_eq_of_lt (by omega)
    rw [h.contents_eq, List.map_map]
    refine nodup_range.map_on fun i hi j hj heq => ?_
    rw [mem_range] at hi hj
    rw [Function.comp_apply, Function.comp_apply, ha, ha] at heq
    exact slot_inj (by omega) (by omega) (Nat.eq_of_mul_eq_mul_right hs heq)
  · intro i
    rcases Nat.lt_or_ge i b.count with hi | hi
    · simp [h.contents_eq, h.elementAt_eq hi, hi]
    · simp [h.contents_eq, RingBuffer.elementAt, hi]
  · split_ifs with hf
    · exact push_full (hl.symm.trans hf)
    · obtain ⟨b', hb, -, -, hsl⟩ := h.push_contents (by omega)
      exact ⟨_, b', h.tailElement_eq (by omega), hb, hsl⟩
  · rcases Nat.eq_zero_or_pos b.count with hz | hp
    · have hn : b.contents = [] := length_eq_zero_iff.mp (hl.trans hz)
      simp [RingBuffer.pop, hz, hn]
    · have hz : b.slot 0 = b.head := Nat.mod_eq_of_lt h.head_lt
      rw [pop_eq hp, ← drop_one, ← (h.drop_contents hp).2.2.2, h.contents_eq, head?_map,
        head?_range,
        if_neg hp.ne', Option.map_some, hz]
      exact ⟨rfl, rfl⟩
  · intro n
    rw [hl]
    split_ifs with hlt
    · rw [RingBuffer.drop, if_pos hlt]
    · have hd := h.drop_contents (Nat.not_lt.mp hlt)
      exact ⟨hd.1, hd.2.2.2⟩
  · intro pred
    rw [h.getContinualRangeLength_eq, h.contents_eq, takeWhile_map, length_map,
      takeWhile_eq_take_findIdx_not, length_take, min_eq_left findIdx_le_length]
    rfl

end

theorem pushes {k : ℕ} (b : RingBuffer α) (hk : b.count + k ≤ b.capacity)
    (hc : b.capacity < 2 ^ 32) :
    ∃ tail, (replicate k .push).foldl exec b = { b with tail := tail, count := b.count + k } := by
  induction k generalizing b with
  | zero => exact ⟨b.tail, rfl⟩
  | succ k ih =>
    have hx : b.exec .push =
        { b with tail := (b.tail + 1) % 2 ^ 32 % b.capacity, count := b.count + 1 } := by
      have hne : b.capacity ≠ b.count := by omega
      have hn : (b.count + 1) % 2 ^ 32 = b.count + 1 := Nat.mod_eq_of_lt (by omega)
      simp only [exec, push, tailElement, isFull, hne, decide_false, hn]
      rfl
    rw [replicate_succ, foldl_cons, hx, ← add_assoc, add_right_comm]
    exact ih _ (by dsimp only; omega) hc

/-- The ring is filled, all but one element is dropped and it is filled again: the slot 0 is the
second one, and where the sum wraps. -/
theorem not_isQueue (size : ℕ) (content : ℕ → α) {capacity : ℕ} (hlt : 2 ^ 31 < capacity)
    (hc : capacity < 2 ^ 32) :
    ∃ ops : List Op, ¬(ops.foldl exec (fresh content size capacity)).IsQueue size := by
  have hr : 1 + (capacity - 1) = capacity := by omega
  obtain ⟨t, ht⟩ := pushes (fresh content size capacity) (Nat.zero_add capacity).le hc
  obtain ⟨t', ht'⟩ := pushes
    { fresh content size capacity with head := capacity - 1, tail := t, count := 1 } hr.le hc
  have hd : exec { fresh content size capacity with
        tail := t, count := (fresh content size capacity).count + capacity }
      (.drop (capacity - 1)) =
      { fresh content size capacity with head := capacity - 1, tail := t, count := 1 } := by
    simp only [exec, drop, fresh, zero_add]
    rw [if_neg (by omega), Nat.mod_eq_of_lt (b := 2 ^ 32) (by omega), Nat.mod_eq_of_lt (by omega),
      Nat.sub_sub_self (by omega)]
  refine ⟨replicate capacity .push ++ .drop (capacity - 1) :: replicate (capacity - 1) .push, ?_⟩
  rw [foldl_append, ht, foldl_cons, hd, ht', hr]
  intro hq
  have hz : ∀ i < capacity, (capacity - 1 + i) % 2 ^ 32 % capacity = 0 →
      (contents { fresh content size capacity with
        head := capacity - 1, tail := t', count := capacity })[i]? = some 0 := by
    intro i hi hm
    rw [← hq.elementAt, elementAt, if_neg (by simpa using hi)]
    exact congrArg some hm
  have hone := hz 1 (by omega) (by
    rw [Nat.sub_add_cancel (by omega), Nat.mod_eq_of_lt hc, Nat.mod_self])
  have htwo := hz (2 ^ 32 - capacity + 1) (by omega) (by
    rw [show capacity - 1 + (2 ^ 32 - capacity + 1) = 2 ^ 32 by omega, Nat.mod_self, Nat.zero_mod])
  obtain ⟨hl, -⟩ := List.getElem?_eq_some_iff.mp hone
  have heq := (getElem?_inj hl (Nodup.of_map _ hq.distinct)).mp (hone.trans htwo.symm)
  omega

/-- The ring buffer is a bounded queue behind all calls exactly if an index beyond `head` is a
`guint32`. -/
theorem isQueue_iff [Nonempty α] {capacity size : ℕ} (hp : 0 < capacity) (hs : 0 < size)
    (hc : size * capacity < 2 ^ 32) :
    (∀ (content : ℕ → α) (ops : List Op),
      (ops.foldl exec (fresh content size capacity)).IsQueue size) ↔ capacity ≤ 2 ^ 31 := by
  constructor
  · intro h
    by_contra hgt
    have hle := Nat.le_mul_of_pos_left capacity hs
    obtain ⟨ops, hn⟩ :=
      not_isQueue size (fun _ => Classical.arbitrary α) (not_le.mp hgt) (by omega)
    exact hn (h _ ops)
  · intro hle content ops
    have hw : ∀ b : RingBuffer α, b.WellFormed ∧ b.capacity = capacity →
        (ops.foldl exec b).WellFormed ∧ (ops.foldl exec b).capacity = capacity := by
      induction ops with
      | nil => exact fun _ h => h
      | cons op ops ih => exact fun b h => ih _ ⟨(h.1.exec op).1, (h.1.exec op).2.trans h.2⟩
    obtain ⟨hwf, he⟩ := hw (fresh content size capacity) ⟨wellFormed_fresh hp hle hc, rfl⟩
    exact hwf.isQueue hs (by rwa [he])

theorem isQueue_four : ([.push, .push, .drop 1, .pop].foldl exec
    (fresh (fun _ => 0) 8 4 : RingBuffer ℕ)).IsQueue 8 :=
  (isQueue_iff (by decide) (by decide) (by decide)).mpr (by decide) _ _

/-- A ring of bytes that is one slot too long -/
theorem slot_twice : ∃ ops : List Op,
    ¬(ops.foldl exec (fresh (fun _ => 0) 1 (2 ^ 31 + 1) : RingBuffer ℕ)).IsQueue 1 :=
  not_isQueue 1 _ (by decide) (by decide)

end SyslogNg.AckTracker.RingBuffer
