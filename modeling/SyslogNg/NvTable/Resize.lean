import SyslogNg.NvTable.Block

/-!
# NVTable: larger blocks

`nv_table_realloc` and `nv_table_clone` on the bytes of a block. The slots stay at its start while
the entries move with its end.
-/
namespace SyslogNg.NvTable

open NVTable

namespace Block

variable (b : Block)

/-- What `memcpy` copies first: `sizeof(NVTable)` counts the dummy member as well, so four bytes
more than the header and the slots. -/
def headerLength : ℕ := sizeofTable + 4 * b.numStatic + slotSize * b.numDyn

/-- The entries at the end of a block of another size -/
def movePayload (target : Image) (size : ℕ) : Image :=
  target.copy ((size : ℤ) - b.used) b.memory ((b.size : ℤ) - b.used) b.used

def copyTo (fresh : Image) (size : ℕ) : Block :=
  { b with
    size
    refCnt := 1
    borrowed := false
    memory := b.movePayload (fresh.copy 0 b.memory 0 b.headerLength) size }

/-- The block after `g_realloc`, which keeps the bytes up to the old size -/
def kept (fresh : Image) : Block := { b with memory := fresh.copy 0 b.memory 0 b.size }

/-- `g_realloc` and the `memmove` inside the block -/
def growInPlace (fresh : Image) (size : ℕ) : Block :=
  { b with size, memory := (b.kept fresh).movePayload (b.kept fresh).memory size }

/-- `nv_table_unref` of a block that others hold or that is borrowed -/
def unref : Block := { b with refCnt := (b.refCnt + (2 ^ 7 - 1)) % 2 ^ 7 }

/-- Whether `nv_table_realloc` has the block for itself. -/
def Exclusive : Prop := b.refCnt = 1 ∧ b.borrowed = false

instance : Decidable b.Exclusive := inferInstanceAs (Decidable (_ ∧ _))

/-- `nv_table_realloc`: the old block as others see it from now on and the new one. `fresh` is what
the memory holds that the allocator returns, behind the part that `g_realloc` keeps. -/
def realloc (fresh : Image) : Option (Block × Block) :=
  let newSize := getSize (b.size * 2)
  if newSize = b.size then none
  else if b.Exclusive then
    some (b.growInPlace fresh newSize, b.growInPlace fresh newSize)
  else some (b.unref, b.copyTo fresh newSize)

/-- `nv_table_clone`: the block only grows when there is room already. -/
def clone (fresh : Image) (additionalSpace : ℕ) : Block :=
  let gap : ℤ := (b.size : ℤ) - b.used - b.ofsTableTop
  b.copyTo fresh
    (getSize (if gap < additionalSpace then b.size else b.size + bound additionalSpace))

variable {b} {o : ByteOrder} {t : NVTable} {size : ℕ}

theorem payload_movePayload {b' : Block} (target : Image) (hs : b'.size = size)
    (hu : b'.used = b.used) (hm : b'.memory = b.movePayload target size) :
    b'.payload = b.payload := by
  rw [payload, hm, hs, hu, movePayload, Image.slice_copy_self]
  rfl

/-- The entries do not reach down to the slots. -/
theorem movePayload_of_lt (target : Image) {top : ℕ} (hr : b.used + top ≤ size) {i : ℤ}
    (hi : i < top) : b.movePayload target size i = target i :=
  Image.copy_of_not_mem (by omega)

theorem ofsTableTop_lt_headerLength : b.ofsTableTop + 4 = b.headerLength := by
  unfold ofsTableTop headerLength tableHdr sizeofTable
  omega

section

variable (hb : b.Represents o t) (hp : t.Placed) (fresh : Image) (hle : b.size ≤ size)
include hb hp fresh hle

theorem Represents.copyTo :
    (b.copyTo fresh size).Represents o { t with size := size, refCnt := 1, borrowed := false } := by
  have hf : b.used + b.ofsTableTop ≤ size := by
    have hf := hp.fits
    rw [hb.ofsTableTop, hb.used]
    have hs := hb.size
    omega
  refine hb.congr rfl rfl rfl rfl ?_ (payload_movePayload _ rfl rfl rfl)
  intro i hl hh
  have ht := ofsTableTop_lt_headerLength (b := b)
  dsimp only [Block.copyTo]
  rw [movePayload_of_lt _ hf hh, Image.copy_same_of_mem ⟨by omega, by omega⟩]

theorem Represents.growInPlace :
    (b.growInPlace fresh size).Represents o { t with size := size } := by
  have hf : b.used + b.ofsTableTop ≤ b.size := by
    rw [hb.ofsTableTop, hb.used, hb.size]
    exact hp.fits
  have hk : ∀ i : ℤ, 0 ≤ i → i < b.size → (b.kept fresh).memory i = b.memory i := by
    intro i hl hh
    exact Image.copy_same_of_mem ⟨hl, by omega⟩
  have hr : (b.kept fresh).used + b.ofsTableTop ≤ size := hf.trans hle
  have hs : ∀ i : ℤ, tableHdr ≤ i → i < b.ofsTableTop →
      (b.growInPlace fresh size).memory i = b.memory i := by
    intro i hl hh
    have hm : (b.growInPlace fresh size).memory i = (b.kept fresh).memory i :=
      movePayload_of_lt _ hr hh
    rw [hm, hk i (by omega) (by omega)]
  have hpy : (b.growInPlace fresh size).payload = b.payload := by
    have hm : (b.growInPlace fresh size).payload = (b.kept fresh).payload :=
      payload_movePayload (b.kept fresh).memory rfl rfl rfl
    have hu : (b.kept fresh).payload =
        (b.kept fresh).memory.slice ((b.size : ℤ) - b.used) b.used := rfl
    rw [hm, hu]
    exact Image.slice_congr fun i hl hh => hk i (by omega) (by omega)
  exact hb.congr rfl rfl rfl rfl hs hpy

end

theorem realloc_cases {fresh : Image} {old new : Block} (hr : b.realloc fresh = some (old, new)) :
    getSize (b.size * 2) ≠ b.size ∧
      (b.Exclusive ∧ new = b.growInPlace fresh (getSize (b.size * 2)) ∨
        ¬ b.Exclusive ∧ old = b.unref ∧ new = b.copyTo fresh (getSize (b.size * 2))) := by
  rw [realloc] at hr
  split_ifs at hr with hs he
  · cases hr
    exact ⟨hs, .inl ⟨he, rfl⟩⟩
  · cases hr
    exact ⟨hs, .inr ⟨he, rfl, rfl⟩⟩

theorem le_getSize_double (hp : t.Placed) (hb : b.size = t.size) :
    b.size ≤ getSize (b.size * 2) := by
  have hs := hp.size_le
  unfold getSize
  omega

/-- Both ways of `nv_table_realloc` give a block of the same table in the new size. -/
theorem Represents.realloc (hb : b.Represents o t) (hp : t.Placed) {fresh : Image}
    {old new : Block} (hr : b.realloc fresh = some (old, new)) : ∃ refCnt borrowed, new.Represents o
      { t with size := getSize (b.size * 2), refCnt := refCnt, borrowed := borrowed } := by
  have hle := le_getSize_double hp hb.size
  rcases (realloc_cases hr).2 with ⟨-, rfl⟩ | ⟨-, -, rfl⟩
  · exact ⟨t.refCnt, t.borrowed, hb.growInPlace hp fresh hle⟩
  · exact ⟨1, false, hb.copyTo hp fresh hle⟩

theorem Represents.clone (hb : b.Represents o t) (hp : t.Placed) (fresh : Image)
    (additionalSpace : ℕ) : ∃ size, b.size ≤ size ∧ (b.clone fresh additionalSpace).Represents o
      { t with size := size, refCnt := 1, borrowed := false } := by
  have hs := hp.size_le
  refine ⟨_, ?_, hb.copyTo hp fresh ?_⟩
  all_goals
    rw [hb.size]
    unfold getSize
    split_ifs <;> omega

/-- The entries and the slots are inside the block, and apart. -/
def Inside (b : Block) : Prop := b.used + b.ofsTableTop ≤ b.size

theorem Represents.inside {refCnt : ℕ} {borrowed : Bool} (hp : t.Placed) (hle : t.size ≤ size)
    (hb : b.Represents o { t with size := size, refCnt := refCnt, borrowed := borrowed }) :
    b.Inside := by
  have hf := hp.fits
  have ht : b.ofsTableTop = t.ofsTableTop := hb.ofsTableTop
  have hs : b.size = size := hb.size
  have hu : b.used = t.used := hb.used
  unfold Inside
  omega

theorem Represents.getValue_eq {b' : Block} {refCnt : ℕ} {borrowed : Bool} (hb : b.Represents o t)
    (hb' : b'.Represents o { t with size := size, refCnt := refCnt, borrowed := borrowed })
    (h : ℕ) :
    b'.getValue o h = b.getValue o h := by
  rw [hb.getValue, hb'.getValue, getValue_resize]

/-- Neither growing nor cloning changes a value, in any block of a table with any history: the
lookups of the new block are those of the old one and what it uses is inside of it. A block that is
shared or borrowed is left with all its bytes. -/
theorem resize_keeps_values {names : ℕ → NVName} (hr : (system names).Reachable t)
    (hb : b.Represents o t) (fresh : Image) : (∀ old new, b.realloc fresh = some (old, new) →
      (∀ h, new.getValue o h = b.getValue o h) ∧ new.Inside ∧
      (¬ b.Exclusive → old.memory = b.memory ∧ ∀ h, old.getValue o h = b.getValue o h)) ∧
    ∀ additionalSpace, (∀ h, (b.clone fresh additionalSpace).getValue o h = b.getValue o h) ∧
      (b.clone fresh additionalSpace).Inside := by
  have hp := placed_of_reachable hr
  constructor
  · intro old new hrl
    obtain ⟨refCnt, borrowed, hn⟩ := hb.realloc hp hrl
    refine ⟨hb.getValue_eq hn, hn.inside hp (hb.size ▸ le_getSize_double hp hb.size), ?_⟩
    intro hs
    rcases (realloc_cases hrl).2 with ⟨he, -⟩ | ⟨-, rfl, -⟩
    · exact absurd he hs
    · refine ⟨rfl, fun h => ?_⟩
      exact getValue_resize (b.toTable o) b.size ((b.refCnt + (2 ^ 7 - 1)) % 2 ^ 7) b.borrowed h
  · intro additionalSpace
    obtain ⟨size, hle, hn⟩ := hb.clone hp fresh additionalSpace
    exact ⟨hb.getValue_eq hn, hn.inside hp (hb.size ▸ hle)⟩

/-- The block of a table with two static values on a little-endian host, the first of which is set
to one byte -/
def oneValue : Block where
  size := 128
  used := 16
  numDyn := 0
  numStatic := 2
  refCnt := 2
  borrowed := false
  memory := (Image.zero.write 12 [0x10]).write 112
    [0, 0, 0, 0, 0x10, 0, 0, 0, 1, 0, 0, 0, 0, 0x76, 0, 0]

theorem resize_keeps_values_one : oneValue.getValue .little 1 = some (.ofBytes [0x76]) ∧
    ∀ additionalSpace, (oneValue.clone .zero additionalSpace).getValue .little 1 =
      some (.ofBytes [0x76]) := by
  let names : ℕ → NVName := fun _ => .empty
  have h0 : ((system names).restrict fun _ _ => True).Reachable (.new 2 0 0) :=
    .init (Or.inl ⟨2, 0, 0, rfl⟩)
  have h1 := (reachable_execTable h0 (.addValue 1 [0x76] true) trivial).of_restrict
  have hbl : oneValue.Represents .little
      (execTable names (.new 2 0 0) (.addValue 1 [0x76] true)) :=
    ⟨by decide +kernel, by decide +kernel, by decide +kernel, by decide +kernel, by decide +kernel⟩
  have hv : oneValue.getValue .little 1 = some (.ofBytes [0x76]) := by decide +kernel
  refine ⟨hv, fun additionalSpace => ?_⟩
  exact ((resize_keeps_values h1 hbl .zero).2 additionalSpace).1 1

end Block
end SyslogNg.NvTable
