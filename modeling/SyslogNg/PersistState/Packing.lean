import SyslogNg.Foundations.Run
import SyslogNg.PersistState.Store

/-!
# How entries are packed into a file

The entries of a file are put one after the other, each with its value and its key. Where the file
and its key blocks end depends only on the sizes of the entries and on their order. A value that
fits into one file may not fit into another, since the file grows by fixed amounts, and only when
little is left of it. With fewer entries, less of the file is used.
-/
namespace SyslogNg.Persist

open PersistState (roundUp)

structure Packing where
  used : ℕ
  size : ℕ
  /-- What is left in the last key block. -/
  room : ℕ
  deriving DecidableEq

/-- What an entry needs: the bytes of its key, and the size of its value. -/
structure Demand where
  span : ℕ
  size : ℕ
  deriving DecidableEq

namespace Packing

def initial : Packing := ⟨headerSize, fileInitialSize, initialKeyStoreSize⟩

/-- `size` bytes for a value with its header. -/
def take (p : Packing) (size : ℕ) : Packing :=
  { p with
    used := p.used + size + valueHeaderSize
    size :=
      if p.used + size + valueHeaderSize + fileWatermark < p.size then p.size
      else p.size + fileInitialSize }

/-- A key, which may need a new block. The last 8 bytes of a block are for the link. -/
def addKey (p : Packing) (span : ℕ) : Packing :=
  if span + 8 ≤ p.room then { p with room := p.room - span }
  else { p.take keyBlockSize with room := keyBlockSize - span }

def add (p : Packing) (d : Demand) : Packing := (p.take (roundUp d.size)).addKey d.span

def Fits (p : Packing) (d : Demand) : Prop := roundUp d.size + valueHeaderSize + p.used ≤ p.size

instance (p : Packing) (d : Demand) : Decidable (p.Fits d) := inferInstanceAs (Decidable (_ ≤ _))

/-- Each value fits when it is its turn. -/
abbrev Packs (p : Packing) (ds : List Demand) : Prop := Along add Fits p ds

variable {p q : Packing} {d : Demand} {ds es : List Demand}

theorem add_used : (p.add d).used = p.used + roundUp d.size + valueHeaderSize +
    if d.span + 8 ≤ p.room then 0 else keyBlockSize + valueHeaderSize := by
  unfold add addKey
  have hr : (p.take (roundUp d.size)).room = p.room := rfl
  rw [hr]
  split_ifs <;> rfl

theorem add_room : (p.add d).room =
    if d.span + 8 ≤ p.room then p.room - d.span else keyBlockSize - d.span := by
  unfold add addKey
  have hr : (p.take (roundUp d.size)).room = p.room := rfl
  rw [hr]
  split_ifs <;> rfl

/-! ### Fewer entries -/

/-- `p` has at least as much space left as `q`: it has as many key blocks with no less room in the
last one, or fewer. -/
structure Below (p q : Packing) : Prop where
  room : q.room ≤ keyBlockSize
  used : q.room ≤ p.room ∧ p.used ≤ q.used ∨ p.used + (keyBlockSize + valueHeaderSize) ≤ q.used

theorem Below.le (h : Below p q) : p.used ≤ q.used := by
  have := h.used
  omega

theorem Below.add_right (h : Below p q) (d : Demand) : Below p (q.add d) := by
  have hr := h.room
  have hu := h.used
  constructor
  · rw [add_room]
    split_ifs <;> omega
  · rw [add_room, add_used]
    split_ifs <;> omega

theorem Below.add (h : Below p q) (d : Demand) : Below (p.add d) (q.add d) := by
  have hr := h.room
  have hu := h.used
  constructor
  · exact (h.add_right d).room
  · rw [add_room, add_room, add_used, add_used]
    split_ifs <;> omega

theorem Below.foldl (h : Below p q) (hs : ds.Sublist es) :
    Below (ds.foldl Packing.add p) (es.foldl Packing.add q) := by
  induction hs generalizing p q with
  | slnil => exact h
  | cons d _ ih => exact ih (h.add_right d)
  | cons_cons d _ ih => exact ih (h.add d)

theorem used_le_of_sublist (hs : ds.Sublist es) :
    (ds.foldl add initial).used ≤ (es.foldl add initial).used := by
  have hi : Below initial initial := ⟨by decide, .inl ⟨le_rfl, le_rfl⟩⟩
  exact (hi.foldl hs).le

/-! ### The size of the file -/

theorem take_size_le {size : ℕ} (h : p.size ≤ p.used + fileWatermark + fileInitialSize) :
    (p.take size).size ≤ (p.take size).used + fileWatermark + fileInitialSize := by
  unfold take
  dsimp only
  split_ifs <;> omega

theorem add_size_le (h : p.size ≤ p.used + fileWatermark + fileInitialSize) :
    (p.add d).size ≤ (p.add d).used + fileWatermark + fileInitialSize := by
  unfold add addKey
  split_ifs
  · exact take_size_le h
  · exact take_size_le (take_size_le h)

/-- A file is never much larger than what is used of it. -/
theorem size_le (ds : List Demand) : (ds.foldl add initial).size ≤
    (ds.foldl add initial).used + fileWatermark + fileInitialSize := by
  induction ds using List.reverseRecOn with
  | nil => decide
  | append_singleton ds d ih =>
    rw [List.foldl_append]
    exact add_size_le ih

end Packing
end SyslogNg.Persist
