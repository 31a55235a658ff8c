import SyslogNg.Foundations.BinarySearch
import SyslogNg.Foundations.Bytes

/-!
# NVTable: layout and lookup

`lib/nvtable.h` packs a slot table at the start of one memory block and the stored
entries at its end. Entries are addressed by the distance of their first byte from
the end of the block, so growing the block does not change an address. The model
keeps the slot arrays and the byte accounting (`size`, `used`, `allocLen`) and
represents the stored bytes of one entry by a record; writing more bytes than the
entry owns is a failure of the model (`none`), never a silent success. Handles are
`guint32` numbers; 0 is no handle.
-/
namespace SyslogNg.NvTable

open BinarySearch

def maxBytes : ℕ := 256 * 1024 * 1024

/-- `NV_ENTRY_DIRECT_HDR`: offset of `vdirect.data` in an entry. -/
def directHdr : ℕ := 12

/-- `NV_ENTRY_INDIRECT_HDR`: `sizeof(NVEntry)`. -/
def indirectHdr : ℕ := 24

/-- Offset of `vindirect.name` in an entry, inside its trailing padding. -/
def indirectNameOfs : ℕ := 21

/-- Offset of `static_entries` in the table. -/
def tableHdr : ℕ := 12

/-- `sizeof(NVTable)`, which counts the alignment dummy as well. -/
def sizeofTable : ℕ := 16

def slotSize : ℕ := 8

def bound (x : ℕ) : ℕ := (x + 3) / 4 * 4

def getSize (size : ℕ) : ℕ := min size maxBytes

/-- The registry refuses names longer than 255 bytes, so a length fits `name_len`. -/
structure NVName where
  text : Bytes
  length_le : text.length ≤ 255
  deriving DecidableEq

def NVName.len (n : NVName) : ℕ := n.text.length

def NVName.empty : NVName := ⟨[], by simp⟩

structure NVReferencedSlice where
  handle : ℕ
  ofs : ℕ
  len : ℕ
  type : ℕ
  deriving DecidableEq

/-- The union of `NVEntry`; its tag is the `indirect` bit. -/
inductive NVBody
  | vdirect (name : NVName) (value : Bytes)
  | vindirect (slice : NVReferencedSlice) (name : NVName)
  deriving DecidableEq

structure NVEntry where
  referenced : Bool
  allocLen : ℕ
  body : NVBody
  deriving DecidableEq

def NVEntry.indirect (e : NVEntry) : Bool :=
  match e.body with
  | .vdirect .. => false
  | .vindirect .. => true

/-- Bytes an entry occupies from its header to the last terminating NUL. -/
def NVEntry.footprint (e : NVEntry) : ℕ :=
  match e.body with
  | .vdirect name value => directHdr + name.len + 1 + value.length + 1
  | .vindirect _ name => indirectNameOfs + name.len + 1

structure NVDynValue where
  handle : ℕ
  ofs : ℕ
  deriving DecidableEq

structure NVTable where
  size : ℕ
  used : ℕ
  staticEntries : List ℕ
  dynEntries : List NVDynValue
  refCnt : ℕ
  borrowed : Bool
  /-- The entry that starts at the given distance from the end of the block. -/
  entries : ℕ → Option NVEntry

/-- More than the number of slots a table can hold: `num_static_entries` is a
`guint8`, `num_dyn_entries` a `guint16`. -/
def slotLimit : ℕ := 2 ^ 16 + 2 ^ 8

namespace NVTable

variable (t : NVTable)

def numStatic : ℕ := t.staticEntries.length

/-- `nv_table_get_ofs_table_top`, from the start of the block. -/
def ofsTableTop : ℕ := tableHdr + 4 * t.numStatic + slotSize * t.dynEntries.length

/-- `nv_table_get_bottom - nv_table_get_ofs_table_top`, a signed pointer difference. -/
def freeGap : ℤ := (t.size : ℤ) - t.used - t.ofsTableTop

/-- The pointer difference is compared with a `gsize`, so as an unsigned 64-bit value. -/
def allocCheck (allocSize : ℕ) : Bool := decide ((allocSize : ℤ) ≤ t.freeGap % 2 ^ 64)

def getEntryAtOfs (ofs : ℕ) : Option ℕ := if ofs = 0 then none else some ofs

def dynHandle (i : ℕ) : ℕ := (t.dynEntries.getD i ⟨0, 0⟩).handle

def dynOfs (i : ℕ) : ℕ := (t.dynEntries.getD i ⟨0, 0⟩).ofs

/-- Address of the entry and position of the slot, both possibly NULL. -/
def getEntrySlow (handle : ℕ) : Option ℕ × Option ℕ :=
  let n := t.dynEntries.length
  match search t.dynHandle handle n 0 ((n : ℤ) - 1) with
  | .found m => (getEntryAtOfs (t.dynOfs m), some m)
  | .missing _ => (none, none)

def getEntry (handle : ℕ) : Option ℕ × Option ℕ :=
  if handle = 0 then (none, none)
  else if handle ≤ t.numStatic then
    (getEntryAtOfs (t.staticEntries.getD (handle - 1) 0), none)
  else t.getEntrySlow handle

end NVTable

/-- A value as callers get it: the bytes it points to and the reported length,
which is a `gssize` and negative when a slice wraps around. -/
structure NVValue where
  bytes : Bytes
  length : ℤ
  deriving DecidableEq

def NVValue.null : NVValue := ⟨[], 0⟩

def NVValue.ofBytes (v : Bytes) : NVValue := ⟨v, v.length⟩

/-- The arithmetic of `nv_table_resolve_indirect`: `ofs + len` is a `guint32` sum. -/
def NVReferencedSlice.cut (s : NVReferencedSlice) (referenced : NVValue) : NVValue :=
  if (s.ofs : ℤ) > referenced.length then .null
  else
    let length := min (((s.ofs + s.len) % 2 ^ 32 : ℕ) : ℤ) referenced.length - s.ofs
    ⟨(referenced.bytes.drop s.ofs).take length.toNat, length⟩

namespace NVTable

/-- `nv_table_get_value` and `nv_table_resolve_indirect` call each other; a chain of
references longer than the number of slots would never end. -/
def getValueFrom (t : NVTable) : ℕ → ℕ → Option NVValue
  | 0, _ => none
  | fuel + 1, handle =>
    match (t.getEntry handle).1 with
    | none => some .null
    | some ofs =>
      match t.entries ofs with
      | none => none
      | some e =>
        match e.body with
        | .vdirect _ value => some (.ofBytes value)
        | .vindirect slice _ => (getValueFrom t fuel slice.handle).map slice.cut

def getValue (t : NVTable) (handle : ℕ) : Option NVValue :=
  t.getValueFrom slotLimit handle

/-- `nv_table_resolve_indirect` of an entry that holds this slice. -/
def resolveIndirect (t : NVTable) (slice : NVReferencedSlice) : Option NVValue :=
  (t.getValue slice.handle).map slice.cut

def resolveEntry (t : NVTable) (e : NVEntry) : Option NVValue :=
  match e.body with
  | .vdirect _ value => some (.ofBytes value)
  | .vindirect slice _ => t.resolveIndirect slice

def isValueSet (t : NVTable) (handle : ℕ) : Bool := (t.getEntry handle).1.isSome

end NVTable
end SyslogNg.NvTable
