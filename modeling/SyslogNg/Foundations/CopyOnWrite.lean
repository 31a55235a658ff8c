import Mathlib.Tactic

/-!
# Copy on write

Objects are numbered and hold their value in a cell. A new object can borrow the cell of an
old one; on its first write it moves to a cell of its own, while an owner writes in place, and
those who borrow from it see the write.

Work on an object is nested: while there is work on a clone, the object it was made of rests.
So three bits about an object say all that matters for the objects that are watched.
-/
namespace SyslogNg

open Function

structure Handle where
  cell : ℕ
  own : Bool

structure Cow (α : Type*) where
  value : ℕ → α
  next : ℕ
  handle : ℕ → Handle

/-- Whether an object has a cell of its own, and whether watched objects younger than it read that
cell, or the one it was borrowed. -/
structure Part where
  own : Bool
  lent : Bool
  left : Bool

namespace Part

variable (p : Part)

def write : Part := ⟨true, p.own && p.lent, p.left⟩

/-- Somebody who is watched reads the cell that is written to. -/
def exposed (watched : Bool) : Bool := watched || (p.own && p.lent)

/-- Somebody who is watched reads the cell that was borrowed. -/
def reads (watched : Bool) : Bool := p.left || (!p.own && watched)

/-- After the work on a clone. -/
def lend (reads : Bool) : Part :=
  if p.own then { p with lent := p.lent || reads } else { p with left := p.left || reads }

end Part

namespace Cow

variable {α : Type*} (c : Cow α) (o p : ℕ) (a : α)

def read : α := c.value (c.handle o).cell

def write : Cow α :=
  if (c.handle o).own then { c with value := update c.value (c.handle o).cell a }
  else ⟨update c.value c.next a, c.next + 1, update c.handle o ⟨c.next, true⟩⟩

/-- The new object `p` borrows the cell of `o`. -/
def share : Cow α := { c with handle := update c.handle p ⟨(c.handle o).cell, false⟩ }

/-- The new object `p` starts with a copy. -/
def copy : Cow α :=
  ⟨update c.value c.next (c.read o), c.next + 1, update c.handle p ⟨c.next, true⟩⟩

/-- The ways to get a new object, with the cell that it borrows. -/
inductive Cloned : Cow α → Option ℕ → Prop
  | share : Cloned (c.share o p) (some (c.handle o).cell)
  | copy : Cloned (c.copy o p) none

/-- A watched object younger than `o` reads the cell. -/
def ReadBy (watched : ℕ → Bool) (cell : Option ℕ) : Prop :=
  ∃ q, o < q ∧ watched q = true ∧ cell = some (c.handle q).cell

variable {c o p a} {c' c₁ c₂ : Cow α} {size size' size₁ : ℕ} {watched watched' watched₁ : ℕ → Bool}
  {entry entry₁ : Option ℕ} {part part' : Part}

@[simp]
theorem read_write_self : (c.write o a).read o = a := by
  unfold write read
  split_ifs <;> simp

theorem Cloned.read_new (h : Cloned c o p c₁ entry) : c₁.read p = c.read o := by
  cases h <;> simp [Cow.share, Cow.copy, read]

theorem Cloned.read_old {q : ℕ} (h : Cloned c o p c₁ entry) (hq : (c.handle q).cell < c.next)
    (hne : q ≠ p) : c₁.read q = c.read q := by
  cases h <;> simp [Cow.share, Cow.copy, read, hne, hq.ne]

/-! ### What work on one object leaves alone -/

/-- From `c` to `c'` there was only work on `o` and on what was cloned on the way. -/
structure Within (c c' : Cow α) (size size' : ℕ) (watched watched' : ℕ → Bool) (o : ℕ) :
    Prop where
  size_le : size ≤ size'
  next_le : c.next ≤ c'.next
  others : ∀ q < size, q ≠ o → c'.handle q = c.handle q ∧ watched' q = watched q
  mine : c'.handle o = c.handle o ∨ c.next ≤ (c'.handle o).cell
  young : ∀ q, size ≤ q → q < size' →
    (c'.handle q).cell = (c.handle o).cell ∨ c.next ≤ (c'.handle q).cell
  value : ∀ k < c.next, ((c.handle o).own = true → k ≠ (c.handle o).cell) → c'.value k = c.value k

theorem Within.watch (b : Bool) : Within c c size size watched (update watched o b) o :=
  ⟨le_rfl, le_rfl, fun q _ hne => ⟨rfl, update_of_ne hne _ _⟩, .inl rfl, fun q h h' => by omega,
    fun _ _ _ => rfl⟩

theorem Within.refl : Within c c size size watched watched o := by
  have h : Within c c size size watched (update watched o (watched o)) o := .watch _
  rwa [update_eq_self] at h

theorem Within.write : Within c (c.write o a) size size watched watched o := by
  unfold Cow.write
  split_ifs with how
  · exact ⟨le_rfl, le_rfl, fun q _ _ => ⟨rfl, rfl⟩, .inl rfl, fun q h h' => by omega,
      fun k _ hk => update_of_ne (hk how) _ _⟩
  · refine ⟨le_rfl, Nat.le_succ _, fun q _ hne => ⟨update_of_ne hne _ _, rfl⟩, .inr ?_,
      fun q h h' => by omega, fun k hk _ => update_of_ne hk.ne _ _⟩
    simp

theorem Within.trans (h : Within c c₁ size size₁ watched watched₁ o)
    (h' : Within c₁ c' size₁ size' watched₁ watched' o) (ho : o < size) :
    Within c c' size size' watched watched' o := by
  have hs := h.size_le
  have hn := h.next_le
  have hm : ∀ {k}, k = (c₁.handle o).cell ∨ c₁.next ≤ k → k = (c.handle o).cell ∨ c.next ≤ k := by
    rintro k (rfl | hk)
    · exact h.mine.imp (congrArg Handle.cell) id
    · exact .inr (hn.trans hk)
  refine ⟨hs.trans h'.size_le, hn.trans h'.next_le, fun q hq hne => ?_, ?_, fun q hq hq' => ?_,
    fun k hk hne => ?_⟩
  · obtain ⟨h1, h2⟩ := h.others q hq hne
    obtain ⟨h3, h4⟩ := h'.others q (hq.trans_le hs) hne
    exact ⟨h3.trans h1, h4.trans h2⟩
  · rcases h'.mine with he | hge
    · exact he ▸ h.mine
    · exact .inr (hn.trans hge)
  · by_cases hq₁ : q < size₁
    · rw [(h'.others q hq₁ (by omega)).1]
      exact h.young q hq hq₁
    · exact hm (h'.young q (by omega) hq')
  · rw [h'.value k (hk.trans_le hn) fun how heq => ?_, h.value k hk hne]
    rcases h.mine with he | hge
    · rw [he] at how heq
      exact hne how heq
    · omega

/-- The object and the younger ones are in the cell that the object had, or in new ones. -/
theorem Within.cell (h : Within c c' size size' watched watched' o) {q : ℕ}
    (hq : q = o ∨ size ≤ q ∧ q < size') :
    (c'.handle q).cell = (c.handle o).cell ∨ c.next ≤ (c'.handle q).cell := by
  rcases hq with rfl | ⟨hq, hq'⟩
  · exact h.mine.imp (congrArg Handle.cell) id
  · exact h.young q hq hq'

/-- The work on a clone is work on what it was made of. -/
theorem Within.of_clone (hc : Cloned c o size c₁ entry) (ho : o < size)
    (hb : (c.handle o).cell < c.next)
    (h : Within c₁ c' (size + 1) size' watched watched' size) :
    Within c c' size size' watched watched' o ∧ c'.handle o = c.handle o ∧
      c'.read o = c.read o ∧ watched' o = watched o := by
  have hold : ∀ q < size, c₁.handle q = c.handle q := by
    intro q hq
    cases hc <;> exact update_of_ne hq.ne _ _
  have hnew : (c₁.handle size).cell = (c.handle o).cell ∨ c.next ≤ (c₁.handle size).cell := by
    cases hc <;> simp [share, copy]
  have hn : c.next ≤ c₁.next := by
    cases hc <;> simp [share, copy]
  have hv : ∀ k < c.next, c₁.value k = c.value k ∧
      ((c₁.handle size).own = true → k ≠ (c₁.handle size).cell) := by
    intro k hk
    cases hc <;> simp [share, copy, hk.ne]
  have hot : ∀ q < size, c'.handle q = c.handle q ∧ watched' q = watched q := by
    intro q hq
    obtain ⟨h1, h2⟩ := h.others q (by omega) hq.ne
    exact ⟨h1.trans (hold q hq), h2⟩
  have hva : ∀ k < c.next, c'.value k = c.value k := fun k hk =>
    (h.value k (hk.trans_le hn) (hv k hk).2).trans (hv k hk).1
  refine ⟨⟨(Nat.le_succ _).trans h.size_le, hn.trans h.next_le, fun q hq _ => hot q hq,
    .inl (hot o ho).1, fun q hq hq' => ?_, fun k hk _ => hva k hk⟩, (hot o ho).1, ?_, (hot o ho).2⟩
  · rcases h.cell (q := q) (by omega) with he | hge
    · exact he ▸ hnew
    · exact .inr (hn.trans hge)
  · rw [read, (hot o ho).1, hva _ hb]
    rfl

/-! ### What is known about an object -/

structure Tracks (c : Cow α) (size : ℕ) (watched : ℕ → Bool) (o : ℕ) (entry : Option ℕ)
    (part : Part) : Prop where
  lt : o < size
  bound : ∀ q < size, (c.handle q).cell < c.next
  watched_lt : ∀ q, watched q = true → q < size
  own : (c.handle o).own = part.own
  borrowed : part.own = false → entry = some (c.handle o).cell
  entry_lt : ∀ e ∈ entry, e < c.next
  apart : part.own = true → entry ≠ some (c.handle o).cell ∧
    ∀ q < o, (c.handle q).cell ≠ (c.handle o).cell
  lent : part.own = true →
    (part.lent = true ↔ c.ReadBy o watched (some (c.handle o).cell))
  left : part.left = true ↔ c.ReadBy o watched entry

namespace Tracks

variable (h : Tracks c size watched o entry part)
include h

theorem watch : Tracks c size (update watched o true) o entry part := by
  have hr : ∀ cell, c.ReadBy o (update watched o true) cell ↔ c.ReadBy o watched cell := by
    intro cell
    refine exists_congr fun q => and_congr_right fun hlt => ?_
    rw [update_of_ne hlt.ne']
  refine { h with watched_lt := fun q hq => ?_, lent := ?_, left := ?_ }
  · by_cases hqo : q = o
    · exact hqo ▸ h.lt
    · exact h.watched_lt q (by rwa [update_of_ne hqo] at hq)
  · simpa only [hr] using h.lent
  · simpa only [hr] using h.left

theorem write : Tracks (c.write o a) size watched o entry part.write := by
  cases how : part.own with
  | true =>
    have hw : c.write o a = { c with value := update c.value (c.handle o).cell a } :=
      if_pos (h.own.trans how)
    have hp : part.write = part := by
      cases part
      cases how
      rfl
    rw [hw, hp]
    exact { h with }
  | false =>
    have hw : c.write o a =
      ⟨update c.value c.next a, c.next + 1, update c.handle o ⟨c.next, true⟩⟩ :=
      if_neg (by simp [h.own, how])
    have hr : ∀ cell, (c.write o a).ReadBy o watched cell ↔ c.ReadBy o watched cell := by
      intro cell
      refine exists_congr fun q => and_congr_right fun hlt => ?_
      simp only [hw, update_of_ne hlt.ne']
    have hn : ¬c.ReadBy o watched (some c.next) := by
      rintro ⟨q, -, hq, heq⟩
      exact (h.bound q (h.watched_lt q hq)).ne' (Option.some.inj heq)
    refine ⟨h.lt, fun q hq => ?_, h.watched_lt, by simp [hw, Part.write], by simp [Part.write],
      fun e he => ?_, fun _ => ⟨fun he => ?_, fun q hq => ?_⟩, fun _ => ?_, ?_⟩
    · rw [hw]
      by_cases hqo : q = o
      · simp [hqo]
      · simpa [hqo] using (h.bound q hq).trans (Nat.lt_succ_self _)
    · rw [hw]
      exact (h.entry_lt e he).trans (Nat.lt_succ_self _)
    · have := h.entry_lt _ he
      simp [hw] at this
    · have := (h.bound q (hq.trans h.lt)).ne
      simpa [hw, hq.ne] using this
    · rw [hr, hw]
      simpa [Part.write, how] using hn
    · rw [hr]
      exact h.left

/-- A write changes what somebody watched reads, unless nobody does or the value is the same. -/
theorem kept_write_iff : (∀ q, watched q = true → (c.write o a).read q = c.read q) ↔
    (part.exposed (watched o) = true → a = c.read o) := by
  have hself : (c.write o a).read o = a := read_write_self
  constructor
  · intro hk hex
    rcases Bool.or_eq_true_iff.mp hex with hw | hl
    · exact hself.symm.trans (hk o hw)
    · obtain ⟨how, hl⟩ := Bool.and_eq_true_iff.mp hl
      obtain ⟨q, hlt, hq, hc⟩ := (h.lent how).mp hl
      have hq' := hk q hq
      simp only [Cow.write, if_pos (h.own.trans how), Cow.read, ← Option.some.inj hc] at hq'
      simpa [Cow.read] using hq'
  · intro hex q hq
    by_cases hqo : q = o
    · subst hqo
      rw [hself]
      exact hex (by simp [Part.exposed, hq])
    · cases how : part.own with
      | false =>
        have hne := (h.bound q (h.watched_lt q hq)).ne
        simp [Cow.write, h.own, how, Cow.read, hqo, hne]
      | true =>
        simp only [Cow.write, if_pos (h.own.trans how), Cow.read]
        by_cases hc : (c.handle q).cell = (c.handle o).cell
        · have hlt : o < q := by
            by_contra hge
            exact (h.apart how).2 q (by omega) hc
          have hl := (h.lent how).mpr ⟨q, hlt, hq, congrArg some hc.symm⟩
          rw [hc, update_self]
          exact hex (by simp [Part.exposed, how, hl])
        · rw [update_of_ne hc]

/-- A new object that nobody borrows from. -/
theorem clone (hc : Cloned c o size c₁ entry₁) :
    Tracks c₁ (size + 1) watched size entry₁ ⟨entry₁.isNone, false, false⟩ := by
  have hlt := h.bound o h.lt
  have hr : ∀ cell, ¬c₁.ReadBy size watched cell := by
    rintro cell ⟨q, hq, hw, -⟩
    exact absurd (h.watched_lt q hw) (by omega)
  have hbo : ∀ q < size, (c.handle q).cell < c.next := h.bound
  refine ⟨Nat.lt_succ_self _, fun q hq => ?_,
    fun q hq => (h.watched_lt q hq).trans (Nat.lt_succ_self _),
    ?_, ?_, ?_, ?_, by simp [hr], by simp [hr]⟩
  · by_cases hqs : q = size
    · cases hc <;> simp [share, Cow.copy, hqs, hlt]
    · have := hbo q (by omega)
      cases hc <;> simp [share, Cow.copy, hqs] <;> omega
  · cases hc <;> simp [share, Cow.copy]
  · cases hc <;> simp [share]
  · cases hc <;> simp [share, hlt]
  · cases hc
    · simp
    · intro _
      refine ⟨by simp, fun q hq => ?_⟩
      simpa [Cow.copy, hq.ne] using (hbo q hq).ne

omit h in
/-- A copy leaves no readers behind. -/
theorem reads_of_none (h' : Tracks c' size' watched' o none part') :
    part'.reads (watched' o) = false := by
  have how : part'.own = true := by
    by_contra hn
    simpa using h'.borrowed (by simpa using hn)
  have hl : part'.left = false := by
    by_contra hn
    obtain ⟨q, -, -, hq⟩ := h'.left.mp (by simpa using hn)
    simp at hq
  simp [Part.reads, how, hl]

section Back

variable (hc : Cloned c o size c₁ entry₁)
  (hw : Within c₁ c' (size + 1) size' watched watched' size)
  (h' : Tracks c' size' watched' size entry₁ part')
include hc hw h'

/-- Who reads a cell that was there before: old objects, the clone, and what was made of it. -/
theorem readBy_iff {k : ℕ} (hk : k < c.next) :
    c'.ReadBy o watched' (some k) ↔ c.ReadBy o watched (some k) ∨
      entry₁ = some k ∧ part'.reads (watched' size) = true := by
  obtain ⟨hwi, -⟩ := hw.of_clone hc h.lt (h.bound o h.lt)
  -- the young ones read the cell that was borrowed, or new ones
  have hyo : ∀ q, size ≤ q → q < size' → (c'.handle q).cell = k → entry₁ = some k := by
    intro q hq hq' hqk
    have hcl := hw.cell (q := q) (by omega)
    cases hc <;> simp only [share, Cow.copy] at hcl ⊢ <;> grind
  constructor
  · rintro ⟨q, hlt, hq, hqk⟩
    by_cases hqs : q < size
    · obtain ⟨h1, h2⟩ := hwi.others q hqs hlt.ne'
      exact .inl ⟨q, hlt, h2 ▸ hq, h1 ▸ hqk⟩
    · have he := hyo q (by omega) (h'.watched_lt q hq) (Option.some.inj hqk).symm
      refine .inr ⟨he, ?_⟩
      by_cases hqe : q = size
      · subst hqe
        have how : part'.own = false := by
          by_contra hn
          exact (h'.apart (by simpa using hn)).1 (he.trans hqk)
        simp [Part.reads, how, hq]
      · have hl := h'.left.mpr ⟨q, by omega, hq, he.trans hqk⟩
        simp [Part.reads, hl]
  · rintro (⟨q, hlt, hq, hqk⟩ | ⟨he, hrd⟩)
    · obtain ⟨h1, h2⟩ := hwi.others q (h.watched_lt q hq) hlt.ne'
      exact ⟨q, hlt, h2 ▸ hq, h1 ▸ hqk⟩
    · rcases Bool.or_eq_true_iff.mp hrd with hl | hn
      · obtain ⟨q, hlt, hq, hqk⟩ := h'.left.mp hl
        exact ⟨q, h.lt.trans hlt, hq, he ▸ hqk⟩
      · simp only [Bool.and_eq_true, Bool.not_eq_true'] at hn
        exact ⟨size, h.lt, hn.2, he ▸ h'.borrowed hn.1⟩

/-- Back at the object after the work on a clone. -/
theorem back : Tracks c' size' watched' o entry (part.lend (part'.reads (watched' size))) := by
  obtain ⟨hwi, hh, -⟩ := hw.of_clone hc h.lt (h.bound o h.lt)
  have hlt := h.bound o h.lt
  have hrd : part'.reads (watched' size) = true → entry₁ = some (c.handle o).cell := by
    intro hrd
    cases hc with
    | share => rfl
    | copy => simp [h'.reads_of_none] at hrd
  have hcell : c'.ReadBy o watched' (some (c.handle o).cell) ↔
      c.ReadBy o watched (some (c.handle o).cell) ∨ part'.reads (watched' size) = true := by
    rw [h.readBy_iff hc hw h' hlt]
    exact or_congr_right (and_iff_right_of_imp hrd)
  have he : ∀ e ∈ entry, e < c'.next := fun e he => (h.entry_lt e he).trans_le hwi.next_le
  have hap : ∀ q < o, c'.handle q = c.handle q := fun q hq =>
    (hwi.others q (hq.trans h.lt) hq.ne).1
  cases how : part.own with
  | true =>
    have hl : part.lend (part'.reads (watched' size)) =
        ⟨true, part.lent || part'.reads (watched' size), part.left⟩ := by
      simp [Part.lend, how]
    rw [hl]
    refine ⟨h.lt.trans_le hwi.size_le, h'.bound, h'.watched_lt, by rw [hh, h.own, how], by simp, he,
      fun _ => ?_, fun _ => ?_, ?_⟩
    · rw [hh]
      exact ⟨(h.apart how).1, fun q hq => hap q hq ▸ (h.apart how).2 q hq⟩
    · rw [hh, hcell, ← h.lent how, Bool.or_eq_true]
    · rw [h.left]
      cases entry with
      | none => simp [ReadBy]
      | some e =>
        rw [h.readBy_iff hc hw h' (h.entry_lt e rfl)]
        refine (or_iff_left ?_).symm
        rintro ⟨he₁, hr⟩
        exact (h.apart how).1 (he₁.symm.trans (hrd hr))
  | false =>
    have hl : part.lend (part'.reads (watched' size)) =
        ⟨false, part.lent, part.left || part'.reads (watched' size)⟩ := by
      simp [Part.lend, how]
    have hb := h.borrowed how
    rw [hl]
    refine ⟨h.lt.trans_le hwi.size_le, h'.bound, h'.watched_lt, by rw [hh, h.own, how],
      fun _ => hh ▸ hb, he, by simp, by simp, ?_⟩
    have hle := h.left
    rw [hb] at hle ⊢
    rw [hcell, ← hle, Bool.or_eq_true]

end Back
end Tracks
end Cow
end SyslogNg
