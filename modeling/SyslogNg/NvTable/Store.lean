import SyslogNg.NvTable.Table

/-!
# NVTable: storing values

Direct and indirect sets of `lib/nvtable.c`, and the two ways a table is copied to a
larger block. Every function returns `none` where the C code would dereference a NULL
or unallocated entry, write past the bytes an entry owns, or recurse without end; a
failed allocation is the ordinary result `ok = false`.
-/
namespace SyslogNg.NvTable

open BinarySearch

/-- Return value, table after the call and `*new_entry`. -/
structure AddResult where
  ok : Bool
  table : NVTable
  newEntry : Bool

namespace NVTable

variable (t : NVTable)

/-- Store an entry at an address, provided it fits the bytes the address owns. -/
def writeEntry (ofs : ℕ) (e : NVEntry) : Option NVTable :=
  if e.footprint ≤ e.allocLen then
    some { t with entries := Function.update t.entries ofs (some e) }
  else none

/-- `nv_table_alloc_value`: the table with the bytes taken and the address and
`alloc_len` of the new entry. -/
def allocValue (allocSize : ℕ) : Option (NVTable × ℕ × ℕ) :=
  let allocSize := bound allocSize
  if t.allocCheck allocSize then
    some ({ t with used := t.used + allocSize }, t.used + allocSize, allocSize)
  else none

/-- `nv_table_reserve_table_entry`. The search compares through a `guint16`, and
`num_dyn_entries` is a `guint16` counter. -/
def reserveTableEntry (handle : ℕ) (dynSlot : Option ℕ) : Bool × NVTable × Option ℕ :=
  if dynSlot.isNone ∧ t.numStatic < handle then
    if t.allocCheck slotSize then
      let n := t.dynEntries.length
      match search (fun i => t.dynHandle i % 2 ^ 16) handle n 0 ((n : ℤ) - 1) with
      | .found ndx =>
        (true, { t with dynEntries := (t.dynEntries.insertIdx ndx ⟨handle, 0⟩).take n }, some ndx)
      | .missing ndx =>
        (true, { t with dynEntries :=
          (t.dynEntries.insertIdx ndx ⟨handle, 0⟩).take ((n + 1) % 2 ^ 16) }, some ndx)
    else (false, t, dynSlot)
  else (true, t, dynSlot)

/-- `nv_table_set_table_entry`. Handle 0 would write `static_entries[-1]`. -/
def setTableEntry (handle : ℕ) (ofs : ℕ) (dynSlot : Option ℕ) : Option NVTable :=
  if handle ≤ t.numStatic then
    if handle = 0 then none
    else some { t with staticEntries := t.staticEntries.set (handle - 1) ofs }
  else
    dynSlot.map fun i => { t with dynEntries := t.dynEntries.set i ⟨handle, ofs⟩ }

/-- Names are stored for values from `num_static_entries` up. -/
def storedName (handle : ℕ) (name : NVName) : NVName :=
  if t.numStatic ≤ handle then name else .empty

/-- Reserve a slot, allocate the bytes, fill the entry and publish its address. -/
def storeNew (handle : ℕ) (dynSlot : Option ℕ) (allocSize : ℕ) (body : NVBody)
    (newEntry : Bool) : Option AddResult :=
  match t.reserveTableEntry handle dynSlot with
  | (false, t, _) => some ⟨false, t, newEntry⟩
  | (true, t, dynSlot) =>
    match t.allocValue allocSize with
    | none => some ⟨false, t, newEntry⟩
    | some (t, ofs, allocLen) =>
      ((t.writeEntry ofs ⟨false, allocLen, body⟩).bind
        (·.setTableEntry handle ofs dynSlot)).map (⟨true, ·, newEntry⟩)

/-- Overwrite an entry whose bytes are large enough: a direct entry keeps its name,
an indirect one is converted. -/
def storeInPlace (ofs : ℕ) (e : NVEntry) (name : NVName) (value : Bytes) : Option NVTable :=
  match e.body with
  | .vdirect oldName _ => t.writeEntry ofs { e with body := .vdirect oldName value }
  | .vindirect .. => t.writeEntry ofs { e with body := .vdirect name value }

/-- Handle and address stored in the `i`-th slot, static slots first. -/
def slotAt (i : ℕ) : Option (ℕ × ℕ) :=
  if i < t.numStatic then some (i + 1, t.staticEntries.getD i 0)
  else (t.dynEntries[i - t.numStatic]?).map fun d => (d.handle, d.ofs)

end NVTable

/-- The loops of `nv_table_foreach_entry`, which read the slots as they go. -/
def foreachEntryFrom (func : ℕ → ℕ → NVTable → Option (Bool × NVTable)) :
    ℕ → ℕ → NVTable → Option (Bool × NVTable)
  | 0, _, _ => none
  | fuel + 1, i, t =>
    match t.slotAt i with
    | none => some (false, t)
    | some (handle, ofs) =>
      if ofs = 0 then foreachEntryFrom func fuel (i + 1) t
      else
        match func handle ofs t with
        | none => none
        | some (true, t) => some (true, t)
        | some (false, t) => foreachEntryFrom func fuel (i + 1) t

def foreachEntry (func : ℕ → ℕ → NVTable → Option (Bool × NVTable)) (t : NVTable) :
    Option (Bool × NVTable) :=
  foreachEntryFrom func slotLimit 0 t

/-- `nv_table_make_direct`, with `nv_table_add_value` as a parameter. A `gssize`
length is passed on as a `gsize`. -/
def makeDirect
    (addValue : NVTable → ℕ → NVName → Bytes → ℕ → Bool → Option AddResult)
    (refHandle handle : ℕ) (ofs : ℕ) (t : NVTable) : Option (Bool × NVTable) :=
  match t.entries ofs with
  | none => none
  | some e =>
    match e.body with
    | .vdirect .. => some (false, t)
    | .vindirect slice name =>
      if slice.handle = refHandle then
        match t.resolveIndirect slice with
        | none => none
        | some v =>
          (addValue t handle name v.bytes (v.length % 2 ^ 64).toNat false).map
            fun r => (!r.ok, r.table)
      else some (false, t)

/-- The part of `nv_table_add_value` after the referrers were made direct: overwrite
the entry when the value fits its bytes, else allocate another one. -/
def storeExisting (t : NVTable) (handle : ℕ) (ofs : ℕ) (dynSlot : Option ℕ)
    (name : NVName) (value : Bytes) (valueLen : ℕ) : Option AddResult :=
  match t.entries ofs with
  | none => none
  | some e =>
    if valueLen + directHdr + name.len + 2 ≤ e.allocLen then
      (t.storeInPlace ofs e name value).map (⟨true, ·, false⟩)
    else
      t.storeNew handle dynSlot (directHdr + name.len + valueLen + 2)
        (.vdirect (t.storedName handle name) value) false

/-- `nv_table_add_value` and the calls it makes of itself through
`nv_table_make_direct`. `wantNew` says whether the caller passed `new_entry`. -/
def addValueFrom : ℕ → NVTable → ℕ → NVName → Bytes → ℕ → Bool → Option AddResult
  | 0 => fun _ _ _ _ _ _ => none
  | fuel + 1 => fun t handle name value valueLen wantNew =>
    let valueLen := getSize valueLen
    let value := value.take valueLen
    match t.getEntry handle with
    | (none, dynSlot) =>
      if wantNew = false ∧ valueLen = 0 then some ⟨true, t, false⟩
      else t.storeNew handle dynSlot (directHdr + name.len + valueLen + 2)
        (.vdirect (t.storedName handle name) value) wantNew
    | (some ofs, dynSlot) =>
      match t.entries ofs with
      | none => none
      | some e =>
        if e.indirect = false ∧ e.referenced = true then
          match foreachEntry (makeDirect (addValueFrom fuel) handle) t with
          | none => none
          | some (true, t) => some ⟨false, t, false⟩
          | some (false, t) => storeExisting t handle ofs dynSlot name value valueLen
        else storeExisting t handle ofs dynSlot name value valueLen

def addValue : NVTable → ℕ → NVName → Bytes → ℕ → Bool → Option AddResult :=
  addValueFrom slotLimit

/-- `nv_table_set_indirect_entry`: an entry that is already indirect keeps its name. -/
def setIndirectBody (t : NVTable) (handle : ℕ) (body : NVBody) (name : NVName)
    (slice : NVReferencedSlice) : NVBody :=
  match body with
  | .vindirect _ oldName => .vindirect slice oldName
  | .vdirect .. => .vindirect slice (t.storedName handle name)

def NVTable.markReferenced (t : NVTable) (ofs : ℕ) : Option NVTable :=
  match t.entries ofs with
  | none => none
  | some e => t.writeEntry ofs { e with referenced := true }

/-- The clipping done by `nv_table_copy_referenced_value` on the caller's slice, whose
length is a `guint32`. -/
def NVReferencedSlice.narrow (s : NVReferencedSlice) (refLength : ℤ) : NVReferencedSlice :=
  if (s.ofs : ℤ) > refLength then { s with len := 0, ofs := 0 }
  else
    let length := min (((s.ofs + s.len) % 2 ^ 32 : ℕ) : ℤ) refLength - s.ofs
    { s with len := (length % 2 ^ 32).toNat }

/-- `nv_table_copy_referenced_value`; the narrowed slice stays with the caller. -/
def copyReferencedValue (t : NVTable) (refOfs : Option ℕ) (handle : ℕ) (name : NVName)
    (slice : NVReferencedSlice) (wantNew : Bool) : Option (AddResult × NVReferencedSlice) :=
  match (refOfs.bind t.entries).bind t.resolveEntry with
  | none => none
  | some ref =>
    let slice := slice.narrow ref.length
    (addValue t handle name (ref.bytes.drop slice.ofs) slice.len wantNew).map (·, slice)

/-- The last part of `nv_table_add_value_indirect`, for a target without usable bytes. -/
def storeNewIndirect (t : NVTable) (handle : ℕ) (dynSlot : Option ℕ) (name : NVName)
    (slice : NVReferencedSlice) (refOfs : ℕ) (newEntry : Bool) : Option AddResult :=
  match t.storeNew handle dynSlot (indirectHdr + name.len + 1)
    (.vindirect slice (t.storedName handle name)) newEntry with
  | none => none
  | some r =>
    if r.ok then (r.table.markReferenced refOfs).map ({ r with table := · })
    else some r

/-- The part of `nv_table_add_value_indirect` after the walk over the referrers. -/
def storeExistingIndirect (t : NVTable) (handle : ℕ) (ofs : ℕ) (dynSlot : Option ℕ)
    (name : NVName) (slice : NVReferencedSlice) (refOfs : ℕ) : Option AddResult :=
  match t.entries ofs with
  | none => none
  | some e =>
    if indirectHdr + name.len + 1 ≤ e.allocLen then
      match t.writeEntry ofs { e with body := setIndirectBody t handle e.body name slice } with
      | none => none
      | some t => (t.markReferenced refOfs).map (⟨true, ·, false⟩)
    else storeNewIndirect t handle dynSlot name slice refOfs false

/-- `nv_table_add_value_indirect` when the referenced entry is direct and not the
target itself. The source takes a completed walk (`FALSE`) for the failure. -/
def setIndirect (t : NVTable) (handle : ℕ) (name : NVName)
    (slice : NVReferencedSlice) (refOfs : ℕ) (wantNew : Bool) : Option AddResult :=
  match t.getEntry handle with
  | (none, dynSlot) =>
    if wantNew = false ∧ slice.len = 0 then some ⟨true, t, false⟩
    else storeNewIndirect t handle dynSlot name slice refOfs wantNew
  | (some ofs, dynSlot) =>
    match t.entries ofs with
    | none => none
    | some e =>
      if e.indirect = false ∧ e.referenced = true then
        match foreachEntry (makeDirect addValue handle) t with
        | none => none
        | some (false, t) => some ⟨false, t, false⟩
        | some (true, t) => storeExistingIndirect t handle ofs dynSlot name slice refOfs
      else storeExistingIndirect t handle ofs dynSlot name slice refOfs

def addValueIndirect (t : NVTable) (handle : ℕ) (name : NVName)
    (slice : NVReferencedSlice) (wantNew : Bool) : Option (AddResult × NVReferencedSlice) :=
  let refOfs := (t.getEntry slice.handle).1
  if (refOfs.bind t.entries).any NVEntry.indirect ∨ handle = slice.handle then
    copyReferencedValue t refOfs handle name slice wantNew
  else
    match refOfs with
    | none => some (⟨true, t, false⟩, slice)
    | some refOfs => (setIndirect t handle name slice refOfs wantNew).map (·, slice)

def NVTable.init (allocLength numStaticEntries : ℕ) : NVTable where
  size := getSize allocLength
  used := 0
  staticEntries := List.replicate (numStaticEntries % 2 ^ 8) 0
  dynEntries := []
  refCnt := 1
  borrowed := false
  entries := fun _ => none

def getAllocSize (numStaticEntries numDynValues initLength : ℕ) : ℕ :=
  let size := bound initLength +
    bound (sizeofTable + numStaticEntries * 4 + numDynValues * slotSize)
  if size < 128 then 128 else if maxBytes < size then maxBytes else size

def NVTable.new (numStaticEntries numDynValues initLength : ℕ) : NVTable :=
  .init (getAllocSize numStaticEntries numDynValues initLength) numStaticEntries

/-- `nv_table_init_borrowed`, with its assertion. -/
def NVTable.initBorrowed (spaceLen numStaticEntries : ℕ) : Option NVTable :=
  let spaceLen := spaceLen / 4 * 4
  if numStaticEntries * 4 + sizeofTable < spaceLen then
    some { NVTable.init (bound spaceLen) numStaticEntries with borrowed := true }
  else none

/-- `nv_table_realloc`: `none` when the table cannot grow. The first table is the old
block as other holders of a reference see it, the second the block to use from now on. -/
def NVTable.realloc (t : NVTable) : Option (NVTable × NVTable) :=
  let newSize := getSize (t.size * 2)
  if newSize = t.size then none
  else if t.refCnt = 1 ∧ t.borrowed = false then
    let grown := { t with size := newSize }
    some (grown, grown)
  else some ({ t with refCnt := t.refCnt - 1 },
    { t with size := newSize, refCnt := 1, borrowed := false })

def NVTable.clone (t : NVTable) (additionalSpace : ℕ) : NVTable :=
  let newSize := if t.freeGap < additionalSpace then t.size else t.size + bound additionalSpace
  { t with size := getSize newSize, refCnt := 1, borrowed := false }

end SyslogNg.NvTable
