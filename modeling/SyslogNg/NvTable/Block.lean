import SyslogNg.Foundations.ByteOrder
import SyslogNg.Foundations.Image
import SyslogNg.NvTable.Placement

/-!
# NVTable: the bytes of a table

The memory block of `NVTable`: after the header there are the offsets of the static values, then the
slots of the dynamic ones, and the entries are at the end. A host reads the numbers in its own byte
order, and the bit-fields of an entry from the end of the byte where its compiler begins.
-/
namespace SyslogNg.NvTable

open NVTable List

/-! ### Entries -/

def bytesAt (bytes : Bytes) (ofs len : ℕ) : Option Bytes :=
  if ofs + len ≤ bytes.length then some ((bytes.drop ofs).take len) else none

def u32At (o : ByteOrder) (bytes : Bytes) (ofs : ℕ) : Option ℕ := (bytesAt bytes ofs 4).map o.decode

/-- The `i`-th bit-field of one bit in a byte of flags -/
def flagBit (o : ByteOrder) (flags : UInt8) (i : ℕ) : Bool :=
  match o with
  | .little => flags.toNat.testBit i
  | .big => flags.toNat.testBit (7 - i)

def NVName.ofBytes (text : Bytes) : NVName := ⟨text.take 255, by simp⟩

/-- `vdirect`: the name and the value are behind the header, both with a NUL at the end. -/
def decodeDirect (o : ByteOrder) (bytes : Bytes) (nameLen : ℕ) : Option NVBody := do
  let valueLen ← u32At o bytes 8
  let name ← bytesAt bytes directHdr nameLen
  let value ← bytesAt bytes (directHdr + nameLen + 1) valueLen
  return .vdirect (.ofBytes name) value

def decodeIndirect (o : ByteOrder) (bytes : Bytes) (nameLen : ℕ) : Option NVBody := do
  let handle ← u32At o bytes 8
  let ofs ← u32At o bytes 12
  let len ← u32At o bytes 16
  let type ← bytes[20]?
  let name ← bytesAt bytes indirectNameOfs nameLen
  return .vindirect ⟨handle, ofs, len, type.toNat⟩ (.ofBytes name)

/-- The entry at the start of these bytes, with the bytes up to the end of the block -/
def decodeEntry (o : ByteOrder) (bytes : Bytes) : Option NVEntry := do
  let flags ← bytes[0]?
  let nameLen ← bytes[1]?
  let allocLen ← u32At o bytes 4
  let body ← if flagBit o flags 0 then decodeIndirect o bytes nameLen.toNat
    else decodeDirect o bytes nameLen.toNat
  return ⟨flagBit o flags 1, allocLen, body⟩

/-! ### Blocks -/

/-- The members of `struct _NVTable` and the bytes of the whole block -/
structure Block where
  size : ℕ
  used : ℕ
  numDyn : ℕ
  numStatic : ℕ
  /-- A bit-field of seven bits -/
  refCnt : ℕ
  borrowed : Bool
  memory : Image

namespace Block

variable (o : ByteOrder) (b : Block)

def ofsTableTop : ℕ := tableHdr + 4 * b.numStatic + slotSize * b.numDyn

def u32 (ofs : ℕ) : ℕ := o.decode (b.memory.slice ofs 4)

def staticEntries : List ℕ := (List.range b.numStatic).map fun i => b.u32 o (tableHdr + 4 * i)

def dynEntries : List NVDynValue :=
  (List.range b.numDyn).map fun i =>
    let slot := tableHdr + 4 * b.numStatic + slotSize * i
    ⟨b.u32 o slot, b.u32 o (slot + 4)⟩

def payload : Bytes := b.memory.slice ((b.size : ℤ) - b.used) b.used

/-- The table that the block is for a host with this byte order -/
def toTable : NVTable where
  size := b.size
  used := b.used
  staticEntries := b.staticEntries o
  dynEntries := b.dynEntries o
  refCnt := b.refCnt
  borrowed := b.borrowed
  entries ofs := if ofs ≤ b.used then decodeEntry o (b.payload.drop (b.used - ofs)) else none

def getValue (h : ℕ) : Option NVValue := (b.toTable o).getValue h

/-- The block of a table: other holders of the block do not matter, nor does what stands at
addresses that no slot has. -/
structure Represents (t : NVTable) : Prop where
  size : b.size = t.size
  used : b.used = t.used
  static : b.staticEntries o = t.staticEntries
  dyn : b.dynEntries o = t.dynEntries
  entries : ∀ ofs ∈ t.slotOffsets, ofs ≠ 0 → (b.toTable o).entries ofs = t.entries ofs

end Block

/-! ### Lookups -/

namespace NVTable

variable {t t' : NVTable}

theorem mem_slotOffsets_of_getEntry {h ofs : ℕ} (hg : (t.getEntry h).1 = some ofs) :
    ofs ∈ t.slotOffsets ∧ ofs ≠ 0 := by
  have hat : ∀ {l : List ℕ} {i : ℕ}, getEntryAtOfs (l.getD i 0) = some ofs → ofs ∈ l ∧ ofs ≠ 0 := by
    intro l i ho
    unfold getEntryAtOfs at ho
    split_ifs at ho with hz
    cases ho
    refine ⟨?_, hz⟩
    rw [getD_eq_getElem?_getD] at hz ⊢
    cases hi : l[i]? with
    | none => simp [hi] at hz
    | some x => exact mem_of_getElem? hi
  unfold getEntry at hg
  split_ifs at hg
  · obtain ⟨hm, hne⟩ := hat hg
    exact ⟨mem_append_left _ hm, hne⟩
  · unfold getEntrySlow at hg
    dsimp only at hg
    split at hg
    · next m _ =>
      have hdy : t.dynOfs m = (t.dynEntries.map NVDynValue.ofs).getD m 0 := by
        rw [dynOfs, getD_eq_getElem?_getD, getD_eq_getElem?_getD, List.getElem?_map]
        cases t.dynEntries[m]? <;> rfl
      rw [hdy] at hg
      obtain ⟨hm, hne⟩ := hat hg
      exact ⟨mem_append_right _ hm, hne⟩
    · cases hg

section

variable (hs : t'.staticEntries = t.staticEntries) (hd : t'.dynEntries = t.dynEntries)
  (he : ∀ ofs ∈ t.slotOffsets, ofs ≠ 0 → t'.entries ofs = t.entries ofs)
include hs hd he

/-- Lookups depend on the slots and on the entries at the addresses in them. -/
theorem getValueFrom_congr (fuel h : ℕ) : t'.getValueFrom fuel h = t.getValueFrom fuel h := by
  induction fuel generalizing h with
  | zero => rfl
  | succ fuel ih =>
    rw [getValueFrom, getValueFrom, getEntry_congr hs hd]
    cases hg : (t.getEntry h).1 with
    | none => rfl
    | some ofs =>
      obtain ⟨hm, hne⟩ := mem_slotOffsets_of_getEntry hg
      simp only [he ofs hm hne, ih]

theorem getValue_congr (h : ℕ) :
    t'.getValue h = t.getValue h := getValueFrom_congr hs hd he slotLimit h

end

/-- The size of the block and its holders do not matter for a lookup. -/
theorem getValue_resize (t : NVTable) (size refCnt : ℕ) (borrowed : Bool) (h : ℕ) :
    NVTable.getValue { t with size := size, refCnt := refCnt, borrowed := borrowed } h =
      t.getValue h := by
  apply getValue_congr
  · rfl
  · rfl
  · intro ofs _ _
    rfl

end NVTable

namespace Block

variable {o : ByteOrder} {b b' : Block} {t : NVTable}

section

variable (hb : b.Represents o t)
include hb

theorem Represents.getValue (h : ℕ) : b.getValue o h = t.getValue h :=
  getValue_congr hb.static hb.dyn hb.entries h

theorem Represents.numStatic : b.numStatic = t.numStatic := by
  rw [NVTable.numStatic, ← hb.static, staticEntries, length_map, length_range]

theorem Represents.numDyn : b.numDyn = t.dynEntries.length := by
  rw [← hb.dyn, dynEntries, length_map, length_range]

theorem Represents.ofsTableTop : b.ofsTableTop = t.ofsTableTop := by
  rw [Block.ofsTableTop, NVTable.ofsTableTop, hb.numStatic, hb.numDyn]

end

theorem u32_congr {ofs : ℕ} (h : ∀ i : ℤ, ofs ≤ i → i < ofs + 4 → b'.memory i = b.memory i) :
    b'.u32 o ofs = b.u32 o ofs := congrArg o.decode (Image.slice_congr h)

/-- The slots are the bytes between the header and the top of the offset table. -/
theorem slots_congr (hs : b'.numStatic = b.numStatic) (hd : b'.numDyn = b.numDyn)
    (hm : ∀ i : ℤ, tableHdr ≤ i → i < b.ofsTableTop → b'.memory i = b.memory i) :
    b'.staticEntries o = b.staticEntries o ∧ b'.dynEntries o = b.dynEntries o := by
  have hu32 : ∀ ofs, tableHdr ≤ ofs → ofs + 4 ≤ b.ofsTableTop → b'.u32 o ofs = b.u32 o ofs := by
    intro ofs hl hh
    exact u32_congr fun i hi hi' => hm i (by omega) (by omega)
  constructor
  · rw [staticEntries, hs]
    refine map_congr_left fun i hi => hu32 _ (by omega) ?_
    rw [mem_range] at hi
    unfold ofsTableTop
    omega
  · rw [dynEntries, hs, hd]
    refine map_congr_left fun i hi => ?_
    rw [mem_range] at hi
    have hsl : tableHdr + 4 * b.numStatic + slotSize * i + 8 ≤ b.ofsTableTop := by
      unfold ofsTableTop slotSize
      omega
    dsimp only
    rw [hu32 _ (by omega) (by omega), hu32 _ (by omega) (by omega)]

/-- A block with the same slots and the same payload holds the same table, whatever its size. -/
theorem Represents.congr (hb : b.Represents o t) {size refCnt : ℕ} {borrowed : Bool}
    (hsz : b'.size = size) (hu : b'.used = b.used) (hs : b'.numStatic = b.numStatic)
    (hd : b'.numDyn = b.numDyn)
    (hm : ∀ i : ℤ, tableHdr ≤ i → i < b.ofsTableTop → b'.memory i = b.memory i)
    (hp : b'.payload = b.payload) :
    b'.Represents o { t with size := size, refCnt := refCnt, borrowed := borrowed } := by
  obtain ⟨hst, hdy⟩ := slots_congr hs hd hm
  refine ⟨hsz, hu.trans hb.used, hst.trans hb.static, hdy.trans hb.dyn, ?_⟩
  intro ofs ho hne
  rw [← hb.entries ofs ho hne, toTable, toTable, hu, hp]

end Block
end SyslogNg.NvTable
