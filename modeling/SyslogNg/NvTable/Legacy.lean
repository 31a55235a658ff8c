import SyslogNg.NvTable.Serialize

/-!
# NVTable: tables of version 22

`lib/nvtable-serialize-legacy.c`. Tables were stored with narrower numbers: sizes and offsets are 16
bits wide and count units of four bytes. `nv_table_deserialize_22` reads such a table and writes its
entries one by one, in the wider layout, to the end of a new block.
-/
namespace SyslogNg.NvTable

open NVTable

/-! ### Stored tables -/

/-- What is stored of an `OldNVTable`; the offsets in the slots are in units of four bytes, too. -/
structure OldTable where
  size : ℕ
  used : ℕ
  staticEntries : List ℕ
  dynEntries : List NVDynValue
  payload : Bytes

/-- A slot of the old layout in 32 bits -/
def NVDynValue.packed (d : NVDynValue) : ℕ := d.handle * 2 ^ 16 + d.ofs

/-- What a host with this byte order wrote for such a table -/
def OldTable.serialize (o : ByteOrder) (s : OldTable) : Bytes :=
  writeNumber 4 (o.decode magicV2) ++ (writeNumber 1 (serializedFlag o) ++
    (writeNumber 2 s.size ++ (writeNumber 2 s.used ++ (writeNumber 2 s.dynEntries.length ++
      (writeNumber 1 s.staticEntries.length ++ (s.staticEntries.flatMap (writeNumber 2) ++
        ((s.dynEntries.map NVDynValue.packed).flatMap (writeNumber 4) ++ s.payload)))))))

/-! ### Entries -/

def swapU16 (o : ByteOrder) (m : Image) (a : ℤ) : Image :=
  m.write a (o.encode 2 (ByteOrder.swap 2 (o.decode (m.slice a 2))))

def oldEntrySwapBytes (o : ByteOrder) (m : Image) (a : ℤ) : Image :=
  let m := m.write a [reverse (m a)]
  let m := swapU16 o m (a + 2)
  if flagBit o (m a) 0 then swapU16 o (swapU16 o (swapU16 o m (a + 4)) (a + 6)) (a + 8)
  else swapU16 o m (a + 4)

/-- The old payload, the memory of the new block and `current_payload_pointer` in it -/
structure Conversion where
  old : Image
  memory : Image
  pointer : ℤ

def calculateNewAllocLen (o : ByteOrder) (old : Image) (a : ℤ) : ℕ :=
  o.decode (old.slice (a + 2) 2) * 4 + 12

/-- The members of a new entry with the same name and value -/
def directFields (o : ByteOrder) (old : Image) (a : ℤ) : List (ℕ × Bytes) :=
  let nameLen := (old (a + 1)).toNat
  let valueLen := o.decode (old.slice (a + 4) 2)
  [(0, [old a]), (1, [old (a + 1)]), (4, o.encode 4 (calculateNewAllocLen o old a)),
    (8, o.encode 4 valueLen), (12, old.slice (a + 6) (nameLen + valueLen + 2))]

/-- The members of a new entry with the same reference: the name is copied without its NUL. -/
def indirectFields (o : ByteOrder) (old : Image) (a : ℤ) : List (ℕ × Bytes) :=
  let nameLen := (old (a + 1)).toNat
  [(0, [old a]), (1, [old (a + 1)]), (4, o.encode 4 (calculateNewAllocLen o old a)),
    (8, o.encode 4 (o.decode (old.slice (a + 4) 2))), (20, [old (a + 10)]),
    (12, o.encode 4 (o.decode (old.slice (a + 6) 2))),
    (16, o.encode 4 (o.decode (old.slice (a + 8) 2))), (21, old.slice (a + 11) nameLen)]

def oldEntryLength (o : ByteOrder) (old : Image) (a : ℤ) : ℕ :=
  let nameLen := (old (a + 1)).toNat
  if flagBit o (old a) 0 then 11 + nameLen
  else 6 + nameLen + o.decode (old.slice (a + 4) 2) + 2

/-- `_deserialize_old_entry` with the entry `ofs` bytes before the end of an old payload of `len`
bytes: the place of the new entry. It fails where bytes behind the payload are read or bytes of the
new block below `top` are written. -/
def deserializeOldEntry (o : ByteOrder) (differentEndianness : Bool) (len : ℕ) (top : ℤ) (ofs : ℕ)
    (c : Conversion) : Option Conversion :=
  let a : ℤ := len - ofs
  if ofs < 6 then none
  else
    let old := if differentEndianness then oldEntrySwapBytes o c.old a else c.old
    let new := c.pointer - calculateNewAllocLen o old a
    if ofs < oldEntryLength o old a ∨ new < top then none
    else
      let fields := if flagBit o (old a) 0 then indirectFields o old a else directFields o old a
      some ⟨old, c.memory.writeAll new fields, new⟩

/-- The loops of `_deserialize_blob_v22` over the offsets in slots, which get the new ones. Only the
loop over the static entries tests for slots without a value. -/
def convertSlots (o : ByteOrder) (differentEndianness testsZero : Bool) (len : ℕ) (top : ℤ)
    (tableTop : ℕ) : List ℕ → Conversion → Option (List ℕ × Conversion)
  | [], c => some ([], c)
  | ofs :: rest, c =>
    if testsZero ∧ ofs = 0 then
      (convertSlots o differentEndianness testsZero len top tableTop rest c).map fun r =>
        (0 :: r.1, r.2)
    else do
      let c ← deserializeOldEntry o differentEndianness len top ofs c
      let r ← convertSlots o differentEndianness testsZero len top tableTop rest c
      return ((tableTop - c.pointer).toNat :: r.1, r.2)

/-! ### Tables -/

def calculateNewSize (size numStatic numDyn : ℕ) : ℕ :=
  size + 4 + 2 * numStatic + 4 * numDyn + (numStatic + numDyn) * 12

def convertOldDynEntry (packed : ℕ) : NVDynValue := ⟨packed / 2 ^ 16, packed % 2 ^ 16 * 4⟩

def newBlock (o : ByteOrder) (size used : ℕ) (static : List ℕ) (dyn : List NVDynValue)
    (memory : Image) : Block where
  size
  used
  numDyn := dyn.length
  numStatic := static.length
  refCnt := 1
  borrowed := false
  memory := memory.write tableHdr ((static ++ slotNumbers dyn).flatMap (o.encode 4))

def deserializeBlob22 (o : ByteOrder) (differentEndianness : Bool) (fresh : Image)
    (size used : ℕ) (static : List ℕ) (dyn : List NVDynValue) (input : Bytes) :
    Option (Block × Bytes) :=
  if used = 0 then some (newBlock o size used static dyn fresh, input)
  else do
    let blob ← readBytes used input
    let top : ℤ := tableHdr + 4 * static.length + slotSize * dyn.length
    let s ← convertSlots o differentEndianness true used top size static
      ⟨Image.zero.write 0 blob.1, fresh, size⟩
    let d ← convertSlots o differentEndianness false used top size (dyn.map NVDynValue.ofs) s.2
    let slots := List.zipWith (fun slot ofs => { slot with ofs := ofs }) dyn d.1
    return (newBlock o size (size - d.2.pointer).toNat s.1 slots d.2.memory, blob.2)

/-- `nv_table_deserialize_22`, with the rest of the archive -/
def deserialize22 (o : ByteOrder) (fresh : Image) (input : Bytes) : Option (Block × Bytes) := do
  let magic ← readNumber 4 input
  let flags ← readNumber 1 magic.2
  let swapped := (flags.1 % 2 == 1) != (o == .big)
  if o.encode 4 (if swapped then ByteOrder.swap 4 magic.1 else magic.1) = magicV2 then
    let size ← readNumber 2 flags.2
    let used ← readNumber 2 size.2
    let numDyn ← readNumber 2 used.2
    let numStatic ← readNumber 1 numDyn.2
    let static ← readNumbers 2 numStatic.1 numStatic.2
    let dyn ← readNumbers 4 numDyn.1 static.2
    deserializeBlob22 o swapped fresh (calculateNewSize (size.1 * 4) numStatic.1 numDyn.1)
      (used.1 * 4) (static.1.map (· * 4)) (dyn.1.map convertOldDynEntry) dyn.2
  else none

/-! ### What is stored -/

def NVBody.oldFootprint : NVBody → ℕ
  | .vdirect name value => 6 + name.len + value.length + 2
  | .vindirect _ name => 11 + name.len + 1

def OldBodyAt (w : ByteOrder) (p : Image) (a : ℤ) : NVBody → Prop
  | .vdirect name value => w.decode (p.slice (a + 4) 2) = value.length ∧
      p.slice (a + 6) name.len = name.text ∧ (name.text ≠ [] → p (a + 6 + name.len) = 0) ∧
      p.slice (a + 6 + name.len + 1) value.length = value
  | .vindirect slice name => w.decode (p.slice (a + 4) 2) = slice.handle ∧
      w.decode (p.slice (a + 6) 2) = slice.ofs ∧ w.decode (p.slice (a + 8) 2) = slice.len ∧
      (p (a + 10)).toNat = slice.type ∧ p.slice (a + 11) name.len = name.text

/-- An entry as a host with this byte order has it in memory -/
structure OldEntryAt (w : ByteOrder) (p : Image) (a : ℤ) (e : NVEntry) : Prop where
  indirect : flagBit w (p a) 0 = e.indirect
  referenced : flagBit w (p a) 1 = e.referenced
  nameLen : (p (a + 1)).toNat = e.name.len
  allocLen : w.decode (p.slice (a + 2) 2) * 4 = e.allocLen
  body : OldBodyAt w p a e.body

def OldTable.image (s : OldTable) : Image := Image.zero.write 0 s.payload

/-- A table as it is stored by a host with this byte order -/
structure OldTable.Stores (w : ByteOrder) (s : OldTable) (t : NVTable) : Prop where
  size_lt : s.size < 2 ^ 16
  used_lt : s.used < 2 ^ 16
  numStatic_lt : s.staticEntries.length < 2 ^ 8
  numDyn_lt : s.dynEntries.length < 2 ^ 16
  static_lt : ∀ ofs ∈ s.staticEntries, ofs < 2 ^ 16
  dyn_lt : ∀ d ∈ s.dynEntries, d.handle < 2 ^ 16 ∧ d.ofs < 2 ^ 16
  payload : s.payload.length = s.used * 4
  /-- Header and slots of the old layout, and the payload -/
  fits : 8 + 2 * s.staticEntries.length + 4 * s.dynEntries.length + s.used * 4 ≤ s.size * 4
  static : t.staticEntries = s.staticEntries.map (· * 4)
  dyn : t.dynEntries = s.dynEntries.map fun d => ⟨d.handle, d.ofs * 4⟩
  distinct : (t.slotOffsets.filter (· ≠ 0)).Nodup
  live : ∀ ofs ∈ t.slotOffsets, ofs ≠ 0 → ∃ e, t.entries ofs = some e ∧
    OldEntryAt w s.image ((s.used * 4 : ℕ) - ofs) e ∧ 0 ∉ e.name.text ∧
    e.body.oldFootprint ≤ e.allocLen ∧ e.allocLen ≤ ofs ∧ ofs ≤ s.used * 4
  apart : ∀ ofs ∈ t.slotOffsets, ∀ ofs' ∈ t.slotOffsets, ∀ e e', t.entries ofs = some e →
    t.entries ofs' = some e' → ofs ≠ 0 → ofs < ofs' → ofs + e'.allocLen ≤ ofs'

end SyslogNg.NvTable
