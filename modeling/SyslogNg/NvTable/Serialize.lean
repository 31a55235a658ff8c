import SyslogNg.NvTable.Block

/-!
# NVTable: stored tables

`lib/nvtable-serialize.c`. The members of the table and its slots are written as numbers of the
archive, in an order that does not depend on the host, but the entries are written as they are in
memory. A host of the other byte order swaps them after it has read the table.
-/
namespace SyslogNg.NvTable

open NVTable List Option Nat Image ByteOrder NVName NVEntry

/-! ### Swapping the bytes of an entry -/

/-- `reverse`: the bits of a byte from the other end -/
def reverse (b : UInt8) : UInt8 :=
  let b := (b &&& 0xF0) >>> 4 ||| (b &&& 0x0F) <<< 4
  let b := (b &&& 0xCC) >>> 2 ||| (b &&& 0x33) <<< 2
  (b &&& 0xAA) >>> 1 ||| (b &&& 0x55) <<< 1

def swapU32 (o : ByteOrder) (m : Image) (a : ℤ) : Image :=
  m.write a (o.encode 4 (ByteOrder.swap 4 (o.decode (m.slice a 4))))

/-- `nv_entry_swap_bytes`: which members there are is read from the flags in the order of the
host. -/
def entrySwapBytes (o : ByteOrder) (m : Image) (a : ℤ) : Image :=
  let m := m.write a [reverse (m a)]
  let m := swapU32 o m (a + 4)
  if flagBit o (m a) 0 then swapU32 o (swapU32 o (swapU32 o m (a + 8)) (a + 12)) (a + 16)
  else swapU32 o m (a + 8)

/-! ### Serialization -/

def magicV2 : Bytes := [0x4e, 0x56, 0x54, 0x32]

/-- `NVT_SF_BE`, for the byte order of the host that writes -/
def serializedFlag (o : ByteOrder) : ℕ := if o = .big then 1 else 0

def slotNumbers (slots : List NVDynValue) : List ℕ := slots.flatMap fun d => [d.handle, d.ofs]

namespace Block

variable (o : ByteOrder) (b : Block)

def writeStruct : Bytes :=
  writeNumber 4 b.size ++ (writeNumber 4 b.used ++ (writeNumber 2 b.numDyn ++
    (writeNumber 1 b.numStatic ++ ((b.staticEntries o).flatMap (writeNumber 4) ++
      (slotNumbers (b.dynEntries o)).flatMap (writeNumber 4)))))

def serialize : Bytes :=
  writeNumber 4 (o.decode magicV2) ++ (writeNumber 1 (serializedFlag o) ++
    (b.writeStruct o ++ b.payload))

/-- One slot of `nv_table_data_swap_bytes`, with its offset at this place -/
def swapSlot (b : Block) (slot : ℕ) : Block :=
  let ofs := b.u32 o slot
  if ofs = 0 then b else { b with memory := entrySwapBytes o b.memory ((b.size : ℤ) - ofs) }

def slotPlaces : List ℕ :=
  (List.range b.numStatic).map (fun i => tableHdr + 4 * i) ++
    (List.range b.numDyn).map fun i => tableHdr + 4 * b.numStatic + slotSize * i + 4

def dataSwapBytes : Block := b.slotPlaces.foldl (swapSlot o) b

/-- The block that `nv_table_deserialize_newest` fills: the slots, then the blob at its end -/
def filled (fresh : Image) (size used numDyn numStatic : ℕ) (slots : List ℕ) (blob : Bytes) :
    Block where
  size
  used
  numDyn
  numStatic
  refCnt := 1
  borrowed := false
  memory := (fresh.write tableHdr (slots.flatMap (o.encode 4))).write ((size : ℤ) - used) blob

end Block

/-- `nv_table_deserialize_newest` on a host with this byte order, with the rest of the archive.
`fresh` is what the memory holds that `g_realloc` returns. -/
def deserializeNewest (o : ByteOrder) (fresh : Image) (input : Bytes) : Option (Block × Bytes) := do
  let magic ← readNumber 4 input
  let flags ← readNumber 1 magic.2
  let swapped := (flags.1 % 2 == 1) != (o == .big)
  if o.encode 4 (if swapped then ByteOrder.swap 4 magic.1 else magic.1) = magicV2 then
    let size ← readNumber 4 flags.2
    let used ← readNumber 4 size.2
    let numDyn ← readNumber 2 used.2
    let numStatic ← readNumber 1 numDyn.2
    let static ← readNumbers 4 numStatic.1 numStatic.2
    let dyn ← readNumbers 4 (2 * numDyn.1) static.2
    let blob ← readBytes used.1 dyn.2
    let b := Block.filled o fresh size.1 used.1 numDyn.1 numStatic.1 (static.1 ++ dyn.1) blob.1
    return (if swapped then b.dataSwapBytes o else b, blob.2)
  else none

/-! ### One entry -/

section Entry

variable {o : ByteOrder} {m : Image} {a : ℤ} {n : ℕ}

theorem flagBit_reverse (flags : UInt8) {i : ℕ} (hi : i < 2) :
    flagBit o (reverse flags) i = flagBit o.other flags i := by
  have ha : ∀ k : Fin 256, ∀ i : Fin 2, ∀ o ∈ [little, .big],
      flagBit o (reverse (UInt8.ofNat k)) i = flagBit o.other (UInt8.ofNat k) i := by
    decide +kernel
  have hf := ha ⟨flags.toNat, flags.toNat_lt⟩ ⟨i, hi⟩ o (by cases o <;> simp)
  simpa only [UInt8.ofNat_toNat] using hf

theorem write_swap (o : ByteOrder) (m : Image) (a : ℤ) (w : ℕ) :
    m.write a (o.encode w (ByteOrder.swap w (o.decode (m.slice a w)))) =
      m.write a (m.slice a w).reverse := by
  have hs := o.encode_swap_decode (m.slice a w)
  rw [length_slice] at hs
  rw [hs]

theorem bytesAt_slice {k len : ℕ} : bytesAt (m.slice a n) k len =
    if k + len ≤ n then some (m.slice (a + k) len) else none := by
  rw [bytesAt, length_slice]
  split
  · rw [drop_slice, take_slice (by omega)]
  · rfl

theorem u32At_slice {k : ℕ} : u32At o (m.slice a n) k =
    if k + 4 ≤ n then some (o.decode (m.slice (a + k) 4)) else none := by
  rw [u32At, bytesAt_slice]
  split <;> rfl

theorem byteAt_eq_some {k : ℕ} {byte : UInt8} :
    (m.slice a n)[k]? = some byte ↔ k < n ∧ m (a + k) = byte := by
  rw [getElem?_slice, ite_none_right_eq_some, Option.some.injEq]

theorem bytesAt_eq_some {k len : ℕ} {bytes : Bytes} :
    bytesAt (m.slice a n) k len = some bytes ↔ k + len ≤ n ∧ m.slice (a + k) len = bytes := by
  rw [bytesAt_slice, ite_none_right_eq_some, Option.some.injEq]

theorem u32At_eq_some {k number : ℕ} :
    u32At o (m.slice a n) k = some number ↔ k + 4 ≤ n ∧ o.decode (m.slice (a + k) 4) = number := by
  rw [u32At_slice, ite_none_right_eq_some, Option.some.injEq]

/-- Members of an entry with numbers of `w` bytes, up to its names and values: the indirect ones
have two numbers more. -/
def swappedLength (w : ℕ) (indirect : Bool) : ℕ := w * if indirect then 5 else 3

/-- The flags and the numbers of an entry may be written differently, if they are read as they
were; behind them `n` bytes in all belong to the entry. -/
structure SameHead (o o' : ByteOrder) (w : ℕ) (a : ℤ) (indirect : Bool) (n : ℕ) (m m' : Image) :
    Prop where
  flags : ∀ i < 2, flagBit o' (m' a) i = flagBit o (m a) i
  nameLen : m' (a + 1) = m (a + 1)
  numbers : ∀ k < if indirect then 4 else 2, o'.decode (m'.slice (a + (w + w * k : ℕ)) w) =
    o.decode (m.slice (a + (w + w * k : ℕ)) w)
  rest : ∀ i, a + swappedLength w indirect ≤ i → i < a + n → m' i = m i

theorem SameHead.of_eq {w : ℕ} {indirect : Bool} {m' : Image} (hw : 2 ≤ w)
    (hn : swappedLength w indirect ≤ n) (h : ∀ i, a ≤ i → i < a + n → m' i = m i) :
    SameHead o o w a indirect n m m' := by
  have hl : ∀ k < if indirect then 4 else 2, w + w * k + w ≤ n := by
    intro k hk
    refine le_trans ?_ hn
    rw [swappedLength, add_comm w, add_assoc, ← Nat.mul_two, ← mul_add]
    exact Nat.mul_le_mul_left w (by split_ifs at hk ⊢ <;> omega)
  have h0 := hl 0 (by split <;> omega)
  refine ⟨fun i _ => ?_, h _ (by omega) (by omega), fun k hk => ?_, fun i hi => h i (by omega)⟩
  · rw [h a le_rfl (by omega)]
  · have hk := hl k hk
    rw [slice_congr fun i hi hi' => h i (by omega) (by omega)]

/-- The memory at an entry after its bytes were swapped, and what is outside of its members -/
theorem sameHead_reverseNumbers (o : ByteOrder) (m : Image) (a : ℤ) {w : ℕ} (hw : 2 ≤ w)
    (indirect : Bool) (n : ℕ) :
    let m' := (m.write a [reverse (m a)]).reverseNumbers w (a + w) (if indirect then 4 else 2)
    SameHead o.other o w a indirect n m m' ∧
      ∀ i, i < a ∨ a + swappedLength w indirect ≤ i → m' i = m i := by
  intro m'
  have hs : ∀ i, i ≠ a → m.write a [reverse (m a)] i = m i :=
    fun i hi => write_singleton_of_ne hi
  have ho : ∀ i, i < a ∨ a + swappedLength w indirect ≤ i → m' i = m i := by
    intro i hi
    unfold m'
    unfold swappedLength at hi
    cases indirect <;> simp only [Bool.false_eq_true, if_false, if_true] at hi ⊢ <;>
      rw [reverseNumbers_of_not_mem (by omega), hs i (by omega)]
  refine ⟨⟨fun i hi => ?_, ?_, fun k hk => ?_, fun i hi _ => ho i (.inr hi)⟩, ho⟩
  · unfold m'
    rw [reverseNumbers_of_not_mem (.inl (by omega)), write_singleton_self, flagBit_reverse _ hi]
  · unfold m'
    rw [reverseNumbers_of_not_mem (.inl (by omega)), hs _ (by omega)]
  · unfold m'
    rw [cast_add, ← add_assoc, slice_reverseNumbers hk, slice_congr fun i hi _ => hs i (by omega),
      decode_reverse]

theorem entrySwapBytes_eq : entrySwapBytes o m a = (m.write a [reverse (m a)]).reverseNumbers 4
    (a + (4 : ℕ)) (if flagBit o.other (m a) 0 then 4 else 2) := by
  have hf : flagBit o (swapU32 o (m.write a [reverse (m a)]) (a + 4) a) 0 =
      flagBit o.other (m a) 0 := by
    rw [swapU32, write_of_lt (by omega), write_singleton_self, flagBit_reverse (m a) (by omega)]
  simp only [entrySwapBytes, hf]
  split <;> simp only [swapU32, write_swap, reverseNumbers, add_assoc] <;> norm_num

variable {o' : ByteOrder} {m' : Image} {e : NVEntry}

def BodyAt (o : ByteOrder) (m : Image) (a : ℤ) : NVBody → Prop
  | .vdirect name value => o.decode (m.slice (a + 8) 4) = value.length ∧
      m.slice (a + 12) name.len = name.text ∧
      m.slice (a + 12 + name.len + 1) value.length = value
  | .vindirect slice name => o.decode (m.slice (a + 8) 4) = slice.handle ∧
      o.decode (m.slice (a + 12) 4) = slice.ofs ∧ o.decode (m.slice (a + 16) 4) = slice.len ∧
      (m (a + 20)).toNat = slice.type ∧ m.slice (a + 21) name.len = name.text

structure EntryAt (o : ByteOrder) (m : Image) (a : ℤ) (e : NVEntry) : Prop where
  indirect : flagBit o (m a) 0 = e.indirect
  referenced : flagBit o (m a) 1 = e.referenced
  nameLen : (m (a + 1)).toNat = e.name.len
  allocLen : o.decode (m.slice (a + 4) 4) = e.allocLen
  body : BodyAt o m a e.body

theorem NVName.ofBytes_text (name : NVName) : NVName.ofBytes name.text = name := by
  obtain ⟨text, hl⟩ := name
  simp only [ofBytes, mk.injEq]
  exact take_of_length_le hl

theorem EntryAt.decodeEntry (h : EntryAt o m a e) (hn : e.footprint ≤ n + 1) :
    NvTable.decodeEntry o (m.slice a n) = some e := by
  obtain ⟨hi, hr, hnl, hal, hb⟩ := h
  obtain ⟨referenced, allocLen, body⟩ := e
  have hhd : (if NVEntry.indirect ⟨referenced, allocLen, body⟩
        then decodeIndirect o (m.slice a n) (NVEntry.name ⟨referenced, allocLen, body⟩).len
        else decodeDirect o (m.slice a n) (NVEntry.name ⟨referenced, allocLen, body⟩).len) =
          some body → 8 ≤ n →
      NvTable.decodeEntry o (m.slice a n) = some ⟨referenced, allocLen, body⟩ := by
    intro hd hl
    simp only [NvTable.decodeEntry, bind_eq_bind, bind_eq_some_iff, byteAt_eq_some, u32At_eq_some]
    refine ⟨m a, ⟨by omega, by simp⟩, m (a + 1), ⟨by omega, rfl⟩, _, ⟨hl, hal⟩, ?_⟩
    rw [hi, hnl, hr]
    split_ifs at hd ⊢ <;> rw [hd] <;> rfl
  cases body with
  | vdirect name value =>
    obtain ⟨hvl, hnm, hv⟩ := hb
    simp only [footprint, directHdr] at hn
    refine hhd ?_ (by omega)
    simp only [NVEntry.indirect, NVEntry.name, Bool.false_eq_true, if_false, decodeDirect,
      bind_eq_bind,
      bind_eq_some_iff, u32At_eq_some, bytesAt_eq_some, directHdr, Option.pure_def]
    refine ⟨_, ⟨by omega, hvl⟩, _, ⟨by omega, hnm⟩, value, ⟨by omega, ?_⟩, ?_⟩
    · push_cast
      rwa [← add_assoc, ← add_assoc]
    · rw [ofBytes_text]
  | vindirect slice name =>
    obtain ⟨hh, ho, hln, ht, hnm⟩ := hb
    simp only [footprint, indirectNameOfs] at hn
    refine hhd ?_ (by omega)
    simp only [NVEntry.indirect, NVEntry.name, if_true, decodeIndirect, bind_eq_bind,
      bind_eq_some_iff,
      u32At_eq_some, byteAt_eq_some, bytesAt_eq_some, indirectNameOfs, Option.pure_def]
    refine ⟨_, ⟨by omega, hh⟩, _, ⟨by omega, ho⟩, _, ⟨by omega, hln⟩, m (a + 20), ⟨by omega, rfl⟩,
      _, ⟨by omega, hnm⟩, ?_⟩
    rw [ht, ofBytes_text]

theorem text_ofBytes {text : Bytes} (h : text.length ≤ 255) : (NVName.ofBytes text).text = text :=
  take_of_length_le h

/-- What is read is an entry whose bytes, but for the last NUL, are all there. -/
theorem entryAt_of_decodeEntry (h : decodeEntry o (m.slice a n) = some e) :
    EntryAt o m a e ∧ e.footprint ≤ n + 1 := by
  simp only [decodeEntry, bind_eq_bind, bind_eq_some_iff, byteAt_eq_some, u32At_eq_some, cast_zero,
    add_zero, cast_one] at h
  obtain ⟨_, ⟨-, rfl⟩, _, ⟨-, rfl⟩, _, ⟨-, rfl⟩, h⟩ := h
  have hlt := (m (a + 1)).toNat_lt
  have ht (k : ℤ) : (ofBytes (m.slice k (m (a + 1)).toNat)).text =
      m.slice k (m (a + 1)).toNat := text_ofBytes (by rw [length_slice]; omega)
  have hln (k : ℤ) : (ofBytes (m.slice k (m (a + 1)).toNat)).len = (m (a + 1)).toNat := by
    rw [len, ht, length_slice]
  cases hi : flagBit o (m a) 0 with
  | false =>
    simp only [hi, Bool.false_eq_true, if_false, decodeDirect, bind_eq_bind,
      bind_eq_some_iff, Option.pure_def, Option.some.injEq, u32At_eq_some, bytesAt_eq_some] at h
    obtain ⟨_, ⟨_, ⟨-, rfl⟩, _, ⟨-, rfl⟩, value, ⟨hle, hv⟩, rfl⟩, rfl⟩ := h
    have hl : value.length = o.decode (m.slice (a + 8) 4) := by
      rw [← hv, length_slice]
      rfl
    refine ⟨⟨hi, rfl, (hln _).symm, rfl, hl.symm, ?_, ?_⟩, ?_⟩
    · rw [hln, ht]
      rfl
    · rw [hln, hl, ← hv]
      push_cast [directHdr]
      rw [← add_assoc, ← add_assoc]
    · simp only [footprint, hln, hl]
      exact succ_le_succ hle
  | true =>
    simp only [hi, if_true, decodeIndirect, bind_eq_bind, bind_eq_some_iff,
      Option.pure_def, Option.some.injEq, u32At_eq_some, byteAt_eq_some, bytesAt_eq_some] at h
    obtain ⟨_, ⟨_, ⟨-, rfl⟩, _, ⟨-, rfl⟩, _, ⟨-, rfl⟩, _, ⟨-, rfl⟩, _, ⟨hle, rfl⟩, rfl⟩, rfl⟩ := h
    refine ⟨⟨hi, rfl, (hln _).symm, rfl, rfl, rfl, rfl, rfl, ?_⟩, ?_⟩
    · rw [hln, ht]
      rfl
    · simp only [footprint, hln]
      omega

theorem EntryAt.transfer (h : EntryAt o m a e)
    (hs : SameHead o o' 4 a e.indirect e.footprint m m') : EntryAt o' m' a e := by
  obtain ⟨hin, hr, hnl, hal, hb⟩ := h
  obtain ⟨hf, hnm, hn, hrs⟩ := hs
  obtain ⟨referenced, allocLen, body⟩ := e
  rw [← hf 0 (by omega)] at hin
  rw [← hf 1 (by omega)] at hr
  rw [← hnm] at hnl
  cases body with
  | vdirect name value =>
    obtain ⟨hvl, ht, hv⟩ := hb
    simp only [NVEntry.indirect, swappedLength, footprint, directHdr, Bool.false_eq_true,
      if_false] at hn hrs
    refine ⟨hin, hr, hnl, (hn 0 (by omega)).trans hal, (hn 1 (by omega)).trans hvl, ?_, ?_⟩
    · rw [slice_congr fun i hi hi' => hrs i (by omega) (by omega), ht]
    · rw [slice_congr fun i hi hi' => hrs i (by omega) (by omega), hv]
  | vindirect slice name =>
    obtain ⟨hh, ho, hl, hty, ht⟩ := hb
    simp only [NVEntry.indirect, swappedLength, footprint, indirectNameOfs, if_true]
      at hn hrs
    refine ⟨hin, hr, hnl, (hn 0 (by omega)).trans hal,
      (hn 1 (by omega)).trans hh, (hn 2 (by omega)).trans ho,
      (hn 3 (by omega)).trans hl, ?_, ?_⟩
    · rw [hrs _ (by omega) (by omega), hty]
    · rw [slice_congr fun i hi hi' => hrs i (by omega) (by omega), ht]

theorem swappedLength_le (e : NVEntry) : swappedLength 4 e.indirect ≤ e.footprint := by
  obtain ⟨referenced, allocLen, body⟩ := e
  cases body <;> simp only [NVEntry.indirect, swappedLength, footprint, directHdr,
    indirectNameOfs] <;> simp <;> omega

theorem EntryAt.congr (h : EntryAt o m a e)
    (hs : ∀ i : ℤ, a ≤ i → i < a + e.footprint → m' i = m i) : EntryAt o m' a e :=
  h.transfer (.of_eq (by omega) (swappedLength_le e) hs)

theorem EntryAt.swapped (h : EntryAt o.other m a e) : EntryAt o (entrySwapBytes o m a) a e := by
  obtain ⟨hs, -⟩ := sameHead_reverseNumbers o m a (w := 4) (by omega) e.indirect e.footprint
  rw [← h.indirect, ← entrySwapBytes_eq, h.indirect] at hs
  exact h.transfer hs

/-- What is read of an entry is inside its footprint. -/
theorem decodeEntry_congr (hd : decodeEntry o (m.slice a n) = some e)
    (h : ∀ i : ℤ, a ≤ i → i < a + e.footprint → m' i = m i) :
    decodeEntry o (m'.slice a n) = some e := by
  obtain ⟨hat, hle⟩ := entryAt_of_decodeEntry hd
  exact (hat.congr h).decodeEntry hle

end Entry

namespace Block

variable {o : ByteOrder} {b c : Block} {t : NVTable}

theorem toTable_entries {ofs : ℕ} (ho : ofs ≤ b.used) :
    (b.toTable o).entries ofs = decodeEntry o (b.memory.slice ((b.size : ℤ) - ofs) ofs) := by
  have hpl : (b.size : ℤ) - b.used + (b.used - ofs : ℕ) = b.size - ofs := by omega
  have hl : b.used - (b.used - ofs) = ofs := by omega
  change (if ofs ≤ b.used then decodeEntry o (b.payload.drop (b.used - ofs)) else none) = _
  rw [if_pos ho, payload, drop_slice, hpl, hl]

theorem map_slotPlaces : b.slotPlaces.map (b.u32 o) =
    b.staticEntries o ++ (b.dynEntries o).map NVDynValue.ofs := by
  rw [slotPlaces, dynEntries, map_append, List.map_map, List.map_map, List.map_map]
  rfl

theorem slotPlaces_bounds {place : ℕ} (h : place ∈ b.slotPlaces) :
    tableHdr ≤ place ∧ place + 4 ≤ b.ofsTableTop := by
  rw [slotPlaces, mem_append, List.mem_map, List.mem_map] at h
  unfold ofsTableTop slotSize
  rcases h with ⟨i, hi, rfl⟩ | ⟨i, hi, rfl⟩
  · rw [mem_range] at hi
    omega
  · rw [mem_range] at hi
    unfold slotSize
    omega

/-- The entries at these offsets were swapped already, the others are as the host of the other byte
order wrote them. -/
structure SwappedAt (o : ByteOrder) (t : NVTable) (b : Block) (done : List ℕ) (c : Block) :
    Prop where
  header : c = { b with memory := c.memory }
  slots : ∀ i : ℤ, tableHdr ≤ i → i < b.ofsTableTop → c.memory i = b.memory i
  swapped : ∀ ofs ∈ t.slotOffsets, ofs ≠ 0 → ofs ∈ done →
    decodeEntry o (c.memory.slice ((b.size : ℤ) - ofs) ofs) = t.entries ofs
  kept : ∀ ofs ∈ t.slotOffsets, ofs ≠ 0 → ofs ∉ done →
    decodeEntry o.other (c.memory.slice ((b.size : ℤ) - ofs) ofs) = t.entries ofs

theorem SwappedAt.u32 {done : List ℕ} (h : SwappedAt o t b done c) {place : ℕ}
    (hpl : place ∈ b.slotPlaces) : c.u32 o place = b.u32 o place := by
  obtain ⟨hl, hh⟩ := slotPlaces_bounds hpl
  exact u32_congr fun i hi hi' => h.slots i (by omega) (by omega)

/-- Swapping one more entry leaves the other ones and the slots alone. -/
theorem SwappedAt.swapEntry (hp : t.Placed) (hsize : b.size = t.size)
    (ht : b.ofsTableTop = t.ofsTableTop) {done : List ℕ} (h : SwappedAt o t b done c) {ofs : ℕ}
    (hof : ofs ∈ t.slotOffsets) (hne : ofs ≠ 0) (hn : ofs ∉ done) : SwappedAt o t b (ofs :: done)
      { c with memory := entrySwapBytes o c.memory ((b.size : ℤ) - ofs) } := by
  obtain ⟨e, he⟩ := hp.live ofs hof hne
  have hb := hp.bytes ofs e he
  have hf := hp.fits
  have hdc := (h.kept ofs hof hne hn).trans he
  obtain ⟨hat, hle⟩ := entryAt_of_decodeEntry hdc
  have hl := swappedLength_le e
  obtain ⟨-, hs⟩ := sameHead_reverseNumbers o c.memory ((b.size : ℤ) - ofs) (w := 4) (by omega)
    e.indirect 0
  rw [← hat.indirect, ← entrySwapBytes_eq, hat.indirect] at hs
  have ho : ∀ ofs' ∈ t.slotOffsets, ofs' ≠ 0 → ofs' ≠ ofs → ∀ order,
      decodeEntry order (c.memory.slice ((b.size : ℤ) - ofs') ofs') = t.entries ofs' →
      decodeEntry order ((entrySwapBytes o c.memory ((b.size : ℤ) - ofs)).slice
        ((b.size : ℤ) - ofs') ofs') = t.entries ofs' := by
    intro ofs' hof' hne' hdf order hol
    obtain ⟨e', he'⟩ := hp.live ofs' hof' hne'
    have hb' := hp.bytes ofs' e' he'
    rw [he'] at hol ⊢
    refine decodeEntry_congr hol fun i hi hi' => hs i ?_
    rcases Nat.lt_or_gt_of_ne hdf with hlt | hlt
    · have ha := hp.apart ofs' ofs e' e he' he hlt
      omega
    · have ha := hp.apart ofs ofs' e e' he he' hlt
      omega
  refine ⟨by rw [h.header], ?_, ?_, ?_⟩
  · intro i hlw hh
    refine (hs i (.inl ?_)).trans (h.slots i hlw hh)
    omega
  · intro ofs' hof' hne' hd
    rcases eq_or_ne ofs' ofs with rfl | hdf
    · exact (hat.swapped.decodeEntry hle).trans he.symm
    · refine ho ofs' hof' hne' hdf o (h.swapped ofs' hof' hne' ?_)
      exact (mem_cons.mp hd).resolve_left hdf
  · intro ofs' hof' hne' hd
    rw [mem_cons, not_or] at hd
    exact ho ofs' hof' hne' hd.1 o.other (h.kept ofs' hof' hne' hd.2)

theorem SwappedAt.congr {done done' : List ℕ} (h : SwappedAt o t b done c)
    (hd : ∀ ofs ≠ 0, ofs ∈ done' ↔ ofs ∈ done) : SwappedAt o t b done' c :=
  ⟨h.header, h.slots, fun ofs ho hne hm => h.swapped ofs ho hne ((hd ofs hne).1 hm),
    fun ofs ho hne hm => h.kept ofs ho hne fun hm' => hm ((hd ofs hne).2 hm')⟩

/-- The loop over the slots: the offsets are read from slots that the swaps did not touch, and each
entry is met once. -/
theorem SwappedAt.foldl (hp : t.Placed) (hsize : b.size = t.size)
    (ht : b.ofsTableTop = t.ofsTableTop) {places : List ℕ} {done : List ℕ}
    (h : SwappedAt o t b done c) (hpl : places ⊆ b.slotPlaces)
    (ho : places.map (b.u32 o) ⊆ t.slotOffsets) (hd : ((places.map (b.u32 o)).filter (· ≠ 0)).Nodup)
    (hf : ∀ ofs ∈ places.map (b.u32 o), ofs ≠ 0 → ofs ∉ done) :
    SwappedAt o t b (places.map (b.u32 o) ++ done) (places.foldl (swapSlot o) c) := by
  induction places generalizing c done with
  | nil => exact h
  | cons place places ih =>
    rw [cons_subset] at hpl
    rw [map_cons, cons_subset] at ho
    rw [map_cons, filter_cons] at hd
    rw [map_cons, forall_mem_cons] at hf
    have hr := h.u32 hpl.1
    rw [foldl_cons, swapSlot, hr]
    split
    · next hz =>
      rw [if_neg (by simp [hz])] at hd
      refine (ih h hpl.2 ho.2 hd hf.2).congr ?_
      intro ofs hne
      rw [map_cons, cons_append, mem_cons, hz]
      exact or_iff_right hne
    · next hn =>
      rw [if_pos (by simpa using hn), nodup_cons] at hd
      have hc : c.size = b.size := by rw [h.header]
      have hnx := h.swapEntry hp hsize ht ho.1 hn (hf.1 hn)
      rw [← hc] at hnx
      refine (ih hnx hpl.2 ho.2 hd.2 ?_).congr ?_
      · intro ofs hof hne
        rw [mem_cons, not_or]
        refine ⟨?_, hf.2 ofs hof hne⟩
        rintro rfl
        exact hd.1 (mem_filter.mpr ⟨hof, by simpa using hne⟩)
      · intro ofs _
        simp only [map_cons, mem_cons, mem_append]
        tauto

section

variable (hp : t.Placed) (hsize : b.size = t.size) (hused : b.used = t.used)
  (hstatic : b.staticEntries o = t.staticEntries) (hdyn : b.dynEntries o = t.dynEntries)
include hp hsize hused hstatic hdyn

theorem represents_of_swappedAt (h : SwappedAt o t b t.slotOffsets c) : c.Represents o t := by
  have hc : c.size = b.size := by rw [h.header]
  have hcs : c.used = b.used := by rw [h.header]
  have hns : c.numStatic = b.numStatic := by rw [h.header]
  have hnd : c.numDyn = b.numDyn := by rw [h.header]
  obtain ⟨hs, hd⟩ := slots_congr hns hnd h.slots
  refine ⟨hc.trans hsize, hcs.trans hused, hs.trans hstatic, hd.trans hdyn, ?_⟩
  intro ofs ho hne
  obtain ⟨e, he⟩ := hp.live ofs ho hne
  have hb := hp.bytes ofs e he
  rw [toTable_entries (by omega), hc]
  exact h.swapped ofs ho hne ho

/-- A table as the host of the other byte order wrote it is the same table after the swap. -/
theorem represents_dataSwapBytes (hen : ∀ ofs ∈ t.slotOffsets, ofs ≠ 0 →
      (b.toTable o.other).entries ofs = t.entries ofs) : (b.dataSwapBytes o).Represents o t := by
  have ho : b.slotPlaces.map (b.u32 o) = t.slotOffsets := by
    rw [map_slotPlaces, hstatic, hdyn]
    rfl
  have hst : SwappedAt o t b [] b := by
    refine ⟨rfl, fun _ _ _ => rfl, by simp, ?_⟩
    intro ofs hof hne _
    obtain ⟨e, he⟩ := hp.live ofs hof hne
    have hb := hp.bytes ofs e he
    rw [← hen ofs hof hne, toTable_entries (by omega)]
  have ht : b.ofsTableTop = t.ofsTableTop := by
    have hs := congrArg List.length hstatic
    have hd := congrArg List.length hdyn
    rw [staticEntries, length_map, length_range] at hs
    rw [dynEntries, length_map, length_range] at hd
    rw [ofsTableTop, NVTable.ofsTableTop, NVTable.numStatic, hs, hd]
  have hed := hst.foldl hp hsize ht (List.Subset.refl b.slotPlaces)
    (by rw [ho]; exact List.Subset.refl _) (by rw [ho]; exact hp.distinct) (by simp)
  rw [ho, append_nil] at hed
  exact represents_of_swappedAt hp hsize hused hstatic hdyn hed

end

/-! ### Reading a table back -/

theorem getElem_slotNumbers {slots : List NVDynValue} {i : ℕ} (hi : i < slots.length)
    (h0 : 2 * i < (slotNumbers slots).length) (h1 : 2 * i + 1 < (slotNumbers slots).length) :
    (slotNumbers slots)[2 * i] = slots[i].handle ∧
      (slotNumbers slots)[2 * i + 1] = slots[i].ofs := by
  induction slots generalizing i with
  | nil => simp at hi
  | cons d slots ih =>
    have hc : slotNumbers (d :: slots) = d.handle :: d.ofs :: slotNumbers slots := rfl
    cases i with
    | zero => exact ⟨rfl, rfl⟩
    | succ i =>
      simp only [hc, length_cons] at h0 h1
      exact ih (by simpa using hi) (by omega) (by omega)

theorem length_slotNumbers (slots : List NVDynValue) :
    (slotNumbers slots).length = 2 * slots.length := by
  induction slots with
  | nil => rfl
  | cons d slots ih =>
    have hc : slotNumbers (d :: slots) = d.handle :: d.ofs :: slotNumbers slots := rfl
    rw [hc, length_cons, length_cons, ih, length_cons]
    ring

section Filled

variable {fresh : Image} {size used : ℕ} {static : List ℕ} {dyn : List NVDynValue} {blob : Bytes}

theorem u32_filled {numDyn numStatic : ℕ} {slots : List ℕ}
    (hroom : used + tableHdr + 4 * slots.length ≤ size) (hslots : ∀ n ∈ slots, n < 256 ^ 4) {i : ℕ}
    (hi : i < slots.length) :
    (filled o fresh size used numDyn numStatic slots blob).u32 o (tableHdr + 4 * i) = slots[i] := by
  have hb : (slots.flatMap (o.encode 4)).length = 4 * slots.length :=
    length_flatMap_encode
  have hs : (filled o fresh size used numDyn numStatic slots blob).memory.slice
      ((tableHdr + 4 * i : ℕ) : ℤ) 4 = o.encode 4 slots[i] := by
    have hc : ((tableHdr + 4 * i : ℕ) : ℤ) = (tableHdr : ℤ) + (4 * i : ℕ) := by push_cast; rfl
    rw [filled, slice_write_of_disjoint (.inl (by omega)), hc,
      slice_write_of_le (by omega), take_drop_flatMap_encode hi]
  rw [u32, hs, decode_encode _ (hslots _ (getElem_mem hi))]

section

variable (hroom : used + tableHdr + 4 * (static ++ slotNumbers dyn).length ≤ size)
  (hslots : ∀ n ∈ static ++ slotNumbers dyn, n < 256 ^ 4)
include hroom hslots

theorem staticEntries_filled :
    (filled o fresh size used dyn.length static.length (static ++ slotNumbers dyn)
      blob).staticEntries o = static := by
  apply ext_getElem
  · simp [staticEntries, filled]
  · intro i hi hi'
    have hl : i < (static ++ slotNumbers dyn).length := by
      rw [length_append]
      omega
    simp only [staticEntries, getElem_map, getElem_range]
    rw [u32_filled hroom hslots hl, getElem_append_left hi']

theorem dynEntries_filled :
    (filled o fresh size used dyn.length static.length (static ++ slotNumbers dyn)
      blob).dynEntries o = dyn := by
  have hl := length_slotNumbers dyn
  apply ext_getElem
  · simp [dynEntries, filled]
  · intro i hi hi'
    have hr (k : ℕ) (hk : k < (slotNumbers dyn).length) :
        (filled o fresh size used dyn.length static.length (static ++ slotNumbers dyn) blob).u32 o
          (tableHdr + 4 * (static.length + k)) = (slotNumbers dyn)[k] := by
      rw [u32_filled hroom hslots (by rw [length_append]; omega), getElem_append_right (by omega)]
      simp only [Nat.add_sub_cancel_left]
    have hh := hr (2 * i) (by omega)
    have ho := hr (2 * i + 1) (by omega)
    obtain ⟨hf, hs⟩ := getElem_slotNumbers hi' (by omega) (by omega)
    have hpl : tableHdr + 4 * static.length + slotSize * i =
        tableHdr + 4 * (static.length + 2 * i) := by
      rw [show slotSize = 8 from rfl]
      ring
    have hpl' : tableHdr + 4 * static.length + slotSize * i + 4 =
        tableHdr + 4 * (static.length + (2 * i + 1)) := by
      rw [show slotSize = 8 from rfl]
      ring
    have hns : (filled o fresh size used dyn.length static.length
        (static ++ slotNumbers dyn) blob).numStatic = static.length := rfl
    simp only [dynEntries, getElem_map, getElem_range, hns]
    rw [hpl', hpl, hh, ho, hf, hs]

end

theorem payload_filled {numDyn numStatic : ℕ} {slots : List ℕ} (hb : blob.length = used) :
    (filled o fresh size used numDyn numStatic slots blob).payload = blob := by
  have hs : ((fresh.write tableHdr (slots.flatMap (o.encode 4))).write ((size : ℤ) - used)
      blob).slice ((size : ℤ) - used) blob.length = blob := slice_write_self
  rwa [hb] at hs

end Filled

theorem u32_lt (ofs : ℕ) : b.u32 o ofs < 256 ^ 4 := by
  have hlt := o.decode_lt (b.memory.slice ofs 4)
  rwa [length_slice] at hlt

theorem staticEntries_lt : ∀ n ∈ b.staticEntries o, n < 256 ^ 4 := by
  intro n hn
  obtain ⟨i, -, rfl⟩ := List.mem_map.mp hn
  exact u32_lt _

theorem slotNumbers_lt : ∀ n ∈ slotNumbers (b.dynEntries o), n < 256 ^ 4 := by
  intro n hn
  obtain ⟨d, hd, hn⟩ := mem_flatMap.mp hn
  obtain ⟨i, -, rfl⟩ := List.mem_map.mp hd
  rcases mem_pair.mp hn with rfl | rfl
  · exact u32_lt _
  · exact u32_lt _

/-- The block that a host fills with what a host with byte order `w` has written -/
def received (o w : ByteOrder) (fresh : Image) (b : Block) : Block :=
  filled o fresh b.size b.used (b.dynEntries w).length (b.staticEntries w).length
    (b.staticEntries w ++ slotNumbers (b.dynEntries w)) b.payload

theorem magic_accepted (o w : ByteOrder) :
    o.encode 4 (if (serializedFlag w % 2 == 1) != (o == .big) then
      ByteOrder.swap 4 (w.decode magicV2) else w.decode magicV2) = magicV2 := by
  cases o <;> cases w <;> decide

theorem swapped_iff (o w : ByteOrder) :
    ((serializedFlag w % 2 == 1) != (o == .big)) = !(w == o) := by
  cases o <;> cases w <;> rfl

theorem deserializeNewest_serialize {w : ByteOrder} (hsize : b.size < 256 ^ 4)
    (hused : b.used < 256 ^ 4) (hdyn : b.numDyn < 256 ^ 2) (hstatic : b.numStatic < 256 ^ 1)
    (fresh : Image) (rest : Bytes) : deserializeNewest o fresh (b.serialize w ++ rest) =
      some (if w = o then received o w fresh b else (received o w fresh b).dataSwapBytes o,
        rest) := by
  have hm : w.decode magicV2 < 256 ^ 4 := w.decode_lt magicV2
  have hf : serializedFlag w < 256 ^ 1 := by cases w <;> decide
  have hns : (b.staticEntries w).length = b.numStatic := by simp [staticEntries]
  have hnd : (b.dynEntries w).length = b.numDyn := by simp [dynEntries]
  have hslots : readNumbers 4 b.numStatic ((b.staticEntries w).flatMap (writeNumber 4) ++
      ((slotNumbers (b.dynEntries w)).flatMap (writeNumber 4) ++ (b.payload ++ rest))) =
      some (b.staticEntries w, (slotNumbers (b.dynEntries w)).flatMap (writeNumber 4) ++
        (b.payload ++ rest)) := by
    rw [← hns]
    exact readNumbers_append staticEntries_lt _
  have hpr : readNumbers 4 (2 * b.numDyn) ((slotNumbers (b.dynEntries w)).flatMap
      (writeNumber 4) ++ (b.payload ++ rest)) =
      some (slotNumbers (b.dynEntries w), b.payload ++ rest) := by
    rw [← hnd, ← length_slotNumbers]
    exact readNumbers_append slotNumbers_lt _
  have hb : readBytes b.used (b.payload ++ rest) = some (b.payload, rest) := by
    have hl : b.payload.length = b.used := by rw [payload, length_slice]
    rw [← hl]
    exact readBytes_append b.payload rest
  simp only [deserializeNewest, serialize, writeStruct, append_assoc,
    readNumber_append hm, readNumber_append hf, readNumber_append hsize,
    readNumber_append hused, readNumber_append hdyn, readNumber_append hstatic, hslots, hpr,
    hb, magic_accepted, bind_eq_bind, bind_some]
  rw [swapped_iff, received, hns, hnd]
  by_cases hs : w = o
  · simp
  · simp

theorem toTable_entries_received {w v : ByteOrder} {fresh : Image} (ofs : ℕ) :
    ((received o w fresh b).toTable v).entries ofs = (b.toTable v).entries ofs := by
  have hpy : (received o w fresh b).payload = b.payload :=
    payload_filled (by rw [payload, length_slice])
  have hused : (received o w fresh b).used = b.used := rfl
  simp only [toTable, hpy, hused]

/-- A host of either byte order reads the table that was written. -/
theorem represents_deserialized {w : ByteOrder} (hp : t.Placed) (hb : b.Represents w t)
    (fresh : Image) : (if w = o then received o w fresh b
      else (received o w fresh b).dataSwapBytes o).Represents o t := by
  have hf := hp.fits
  have hroom : b.used + tableHdr +
      4 * (b.staticEntries w ++ slotNumbers (b.dynEntries w)).length ≤ b.size := by
    rw [length_append, length_slotNumbers, hb.static, hb.dyn, hb.used, hb.size]
    rw [NVTable.ofsTableTop, NVTable.numStatic, show slotSize = 8 from rfl] at hf
    omega
  have hslots : ∀ n ∈ b.staticEntries w ++ slotNumbers (b.dynEntries w), n < 256 ^ 4 := by
    intro n hn
    rcases mem_append.mp hn with hn | hn
    · exact staticEntries_lt n hn
    · exact slotNumbers_lt n hn
  have hstatic : (received o w fresh b).staticEntries o = t.staticEntries :=
    (staticEntries_filled hroom hslots).trans hb.static
  have hdyn : (received o w fresh b).dynEntries o = t.dynEntries :=
    (dynEntries_filled hroom hslots).trans hb.dyn
  split_ifs with hs
  · subst hs
    refine ⟨hb.size, hb.used, hstatic, hdyn, fun ofs hof hne => ?_⟩
    rw [toTable_entries_received, hb.entries ofs hof hne]
  · have ho : w = o.other := (o.eq_or_eq_other w).resolve_left hs
    refine represents_dataSwapBytes hp hb.size hb.used hstatic hdyn fun ofs hof hne => ?_
    rw [toTable_entries_received, ← ho, hb.entries ofs hof hne]

theorem Represents.entryOf (hb : b.Represents o t) (h : ℕ) :
    (b.toTable o).entryOf h = t.entryOf h := by
  have ha : (b.toTable o).addr = t.addr := addr_congr hb.static hb.dyn
  rw [NVTable.entryOf, NVTable.entryOf, ha]
  cases hg : t.addr h with
  | none => rfl
  | some ofs =>
    obtain ⟨hm, hne⟩ := mem_slotOffsets_of_getEntry hg
    exact hb.entries ofs hm hne

/-- A table with any history, written by a host of the one byte order and read by a host of the
other, has the same lookups: the block that is read is a block of the same table, every handle has
the name and the value that it had for the host that wrote it. -/
theorem deserialize_other_order {names : ℕ → NVName} (hr : (system names).Reachable t)
    (hb : b.Represents o.other t) (fresh : Image) (rest : Bytes) :
    ∃ b' : Block, deserializeNewest o fresh (b.serialize o.other ++ rest) = some (b', rest) ∧
      b'.Represents o t ∧ ∀ h, ((b'.toTable o).entryOf h).map NVEntry.name =
          ((b.toTable o.other).entryOf h).map NVEntry.name ∧
        b'.getValue o h = b.getValue o.other h := by
  have hp := placed_of_reachable hr
  have hf := hp.fits
  have hsize : b.size < 256 ^ 4 := by
    have hle := hp.size_le
    rw [hb.size]
    unfold maxBytes at hle
    omega
  have hused : b.used < 256 ^ 4 := by
    rw [hb.size] at hsize
    rw [hb.used]
    omega
  have hdyn : b.numDyn < 256 ^ 2 := by
    have hlt := hp.dyn_lt
    rw [hb.numDyn]
    omega
  have hstatic : b.numStatic < 256 ^ 1 := by
    have hlt := hp.static_lt
    rw [hb.numStatic]
    omega
  have hrd :=
    deserializeNewest_serialize (o := o) (w := o.other) hsize hused hdyn hstatic fresh rest
  have hs := represents_deserialized (o := o) hp hb fresh
  refine ⟨_, hrd, hs, fun h => ⟨?_, ?_⟩⟩
  · rw [hs.entryOf, hb.entryOf]
  · rw [hs.getValue, hb.getValue]

/-- The block of a table with two static values on a big-endian host, the second of which is set to
one byte -/
def bigEndianValue : Block where
  size := 128
  used := 16
  numDyn := 0
  numStatic := 2
  refCnt := 1
  borrowed := false
  memory := (Image.zero.write 16 [0, 0, 0, 0x10]).write 112
    [0, 0, 0, 0, 0, 0, 0, 0x10, 0, 0, 0, 1, 0, 0x76, 0, 0]

theorem deserialize_other_order_two : bigEndianValue.getValue .big 2 = some (.ofBytes [0x76]) ∧
    ∃ b' : Block, deserializeNewest .little .zero (bigEndianValue.serialize .big) = some (b', []) ∧
      b'.getValue .little 2 = some (.ofBytes [0x76]) := by
  let names : ℕ → NVName := fun _ => .empty
  have h0 : ((system names).restrict fun _ _ => True).Reachable (.new 2 0 0) :=
    .init (Or.inl ⟨2, 0, 0, rfl⟩)
  have h1 := (reachable_execTable h0 (.addValue 2 [0x76] true) trivial).of_restrict
  have hb : bigEndianValue.Represents (other .little)
      (execTable names (.new 2 0 0) (.addValue 2 [0x76] true)) :=
    ⟨by decide +kernel, by decide +kernel, by decide +kernel, by decide +kernel, by decide +kernel⟩
  have hv : bigEndianValue.getValue .big 2 = some (.ofBytes [0x76]) := by decide +kernel
  obtain ⟨b', hr, -, hs⟩ := deserialize_other_order h1 hb .zero []
  exact ⟨hv, b', hr, (hs 2).2.trans hv⟩

end Block

end SyslogNg.NvTable
