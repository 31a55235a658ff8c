import SyslogNg.NvTable.Legacy
import SyslogNg.NvTable.Resize

/-!
# NVTable: values of upgraded tables

A table that was stored by a writer of version 22 is read with all its values, except that a dynamic
slot without a value is taken for one with a value, whose entry would be behind the payload, and
that the names of references are left without their NUL.
-/
namespace SyslogNg.NvTable

open NVTable List Nat Image NVBody

/-! ### Old entries -/

section Old

variable {o : ByteOrder} {p p' : Image} {a : ℤ} {e : NVEntry}

theorem oldEntrySwapBytes_eq (o : ByteOrder) (m : Image) (a : ℤ) :
    oldEntrySwapBytes o m a = (m.write a [reverse (m a)]).reverseNumbers 2 (a + (2 : ℕ))
      (if flagBit o.other (m a) 0 then 4 else 2) := by
  have hf : flagBit o (swapU16 o (m.write a [reverse (m a)]) (a + 2) a) 0 =
      flagBit o.other (m a) 0 := by
    rw [swapU16, write_of_lt (by omega), write_singleton_self, flagBit_reverse (m a) (by omega)]
  simp only [oldEntrySwapBytes, hf]
  split <;> simp only [swapU16, write_swap, reverseNumbers, add_assoc] <;> norm_num

theorem OldEntryAt.transfer {o' : ByteOrder} (h : OldEntryAt o p a e)
    (hs : SameHead o o' 2 a e.indirect e.body.oldFootprint p p') : OldEntryAt o' p' a e := by
  obtain ⟨hin, hr, hl, hal, hb⟩ := h
  obtain ⟨hf, hnl, hn, hrs⟩ := hs
  obtain ⟨referenced, allocLen, body⟩ := e
  rw [← hf 0 (by omega)] at hin
  rw [← hf 1 (by omega)] at hr
  rw [← hnl] at hl
  cases body with
  | vdirect name value =>
    obtain ⟨hvl, hnm, he, hv⟩ := hb
    simp only [NVEntry.indirect, swappedLength, oldFootprint, Bool.false_eq_true,
      if_false] at hn hrs
    refine ⟨hin, hr, hl, (congrArg (· * 4) (hn 0 (by omega))).trans hal,
      (hn 1 (by omega)).trans hvl, ?_, fun hne => ?_, ?_⟩
    · rw [slice_congr fun i hi hi' => hrs i (by omega) (by push_cast; omega), hnm]
    · rw [hrs _ (by omega) (by push_cast; omega), he hne]
    · rw [slice_congr fun i hi hi' => hrs i (by omega) (by push_cast; omega), hv]
  | vindirect slice name =>
    obtain ⟨hh, ho, hln, ht, hnm⟩ := hb
    simp only [NVEntry.indirect, swappedLength, oldFootprint, if_true] at hn hrs
    refine ⟨hin, hr, hl, (congrArg (· * 4) (hn 0 (by omega))).trans hal,
      (hn 1 (by omega)).trans hh, (hn 2 (by omega)).trans ho,
      (hn 3 (by omega)).trans hln, ?_, ?_⟩
    · rw [hrs _ (by omega) (by push_cast; omega), ht]
    · rw [slice_congr fun i hi hi' => hrs i (by omega) (by push_cast; omega), hnm]

theorem swappedLength_le_oldFootprint (e : NVEntry) :
    swappedLength 2 e.indirect ≤ e.body.oldFootprint := by
  unfold NVEntry.indirect
  cases e.body <;> simp only [swappedLength, oldFootprint] <;> simp <;> omega

/-- An entry of the other byte order is in the order of the host after its bytes were swapped. -/
theorem OldEntryAt.swapped (h : OldEntryAt o.other p a e) :
    OldEntryAt o (oldEntrySwapBytes o p a) a e ∧
      ∀ i, i < a ∨ a + e.body.oldFootprint ≤ i → oldEntrySwapBytes o p a i = p i := by
  have hl := swappedLength_le_oldFootprint e
  obtain ⟨hs, ho⟩ := sameHead_reverseNumbers o p a (w := 2) (by omega) e.indirect
    e.body.oldFootprint
  rw [← h.indirect, ← oldEntrySwapBytes_eq, h.indirect] at hs ho
  exact ⟨h.transfer hs, fun i hi => ho i (by omega)⟩

/-- Entries depend on their own bytes. -/
theorem OldEntryAt.congr (h : OldEntryAt o p a e)
    (hs : ∀ i, a ≤ i → i < a + e.body.oldFootprint → p' i = p i) : OldEntryAt o p' a e :=
  h.transfer (.of_eq (by omega) (swappedLength_le_oldFootprint e) hs)

end Old

/-! ### New entries -/

section New

variable {o : ByteOrder} {m : Image} {a : ℤ} {e : NVEntry}

/-- An entry in the room that the upgrade has for it -/
def NVEntry.widened (e : NVEntry) : NVEntry := { e with allocLen := e.allocLen + 12 }

theorem NVEntry.footprint_widened (e : NVEntry) :
    e.widened.footprint ≤ e.body.oldFootprint + 12 := by
  obtain ⟨referenced, allocLen, body⟩ := e
  cases body <;> simp only [NVEntry.widened, NVEntry.footprint, oldFootprint, directHdr,
    indirectNameOfs] <;> omega

variable {old : Image} {q : ℤ}

theorem decode_encode_u16 (k : ℤ) : o.decode (o.encode 4 (o.decode (old.slice k 2))) =
    o.decode (old.slice k 2) := by
  have hlt := o.decode_lt (old.slice k 2)
  rw [length_slice] at hlt
  exact o.decode_encode (by omega)

theorem decode_newAllocLen (h : OldEntryAt o old q e) :
    o.decode (o.encode 4 (calculateNewAllocLen o old q)) = e.widened.allocLen := by
  have hlt := o.decode_lt (old.slice (q + 2) 2)
  rw [length_slice] at hlt
  have ha := h.allocLen
  rw [o.decode_encode (by unfold calculateNewAllocLen; omega), calculateNewAllocLen, ha]
  rfl

def newFields (o : ByteOrder) (old : Image) (q : ℤ) : List (ℕ × Bytes) :=
  if flagBit o (old q) 0 then indirectFields o old q else directFields o old q

variable {fields : List (ℕ × Bytes)}

section

variable (h : fields.Pairwise fun f g => f.1 + f.2.length ≤ g.1 ∨ g.1 + g.2.length ≤ f.1)
include h

theorem byte_writeAll {k : ℕ} {b : UInt8}
    (hf : (k, [b]) ∈ fields) : m.writeAll a fields (a + k) = b := by
  have hs : (m.writeAll a fields).slice (a + k) 1 = [b] := slice_writeAll h hf
  rw [slice_one] at hs
  exact singleton_inj.mp hs

theorem number_writeAll {k n : ℕ} (hf : (k, o.encode 4 n) ∈ fields) :
    (m.writeAll a fields).slice (a + k) 4 = o.encode 4 n := by
  have hs : (m.writeAll a fields).slice (a + k) (o.encode 4 n).length = o.encode 4 n :=
    slice_writeAll h hf
  rwa [ByteOrder.length_encode] at hs

theorem data_writeAll {i len k : ℕ} {j : ℤ} (hf : (i, old.slice j len) ∈ fields) (hk : k < len) :
    m.writeAll a fields (a + i + k) = old (j + k) := by
  have hs : (m.writeAll a fields).slice (a + i) (old.slice j len).length = old.slice j len :=
    slice_writeAll h hf
  rw [length_slice] at hs
  exact slice_eq_slice_iff.mp hs k hk

end

theorem pairwise_directFields (o : ByteOrder) (old : Image) (q : ℤ) :
    (directFields o old q).Pairwise fun f g =>
      f.1 + f.2.length ≤ g.1 ∨ g.1 + g.2.length ≤ f.1 := by
  simp [directFields]

theorem pairwise_indirectFields (o : ByteOrder) (old : Image) (q : ℤ) :
    (indirectFields o old q).Pairwise fun f g =>
      f.1 + f.2.length ≤ g.1 ∨ g.1 + g.2.length ≤ f.1 := by
  simp [indirectFields]

theorem data_writeAll_direct {k : ℕ}
    (hk : k < (old (q + 1)).toNat + o.decode (old.slice (q + 4) 2) + 2) :
    m.writeAll a (directFields o old q) (a + 12 + k) = old (q + 6 + k) :=
  data_writeAll (pairwise_directFields o old q) (i := 12) (by simp [directFields]) hk

theorem entryAt_of_fields (h : OldEntryAt o old q e)
    (hp : fields.Pairwise fun f g => f.1 + f.2.length ≤ g.1 ∨ g.1 + g.2.length ≤ f.1)
    (hf : (0, [old q]) ∈ fields) (hnl : (1, [old (q + 1)]) ∈ fields)
    (hal : (4, o.encode 4 (calculateNewAllocLen o old q)) ∈ fields)
    (hb : BodyAt o (m.writeAll a fields) a e.body) :
    EntryAt o (m.writeAll a fields) a e.widened := by
  have hf : m.writeAll a fields (a + (0 : ℕ)) = old q := byte_writeAll hp hf
  rw [cast_zero, add_zero] at hf
  refine ⟨?_, ?_, ?_, ?_, hb⟩
  · rw [hf, h.indirect]
    rfl
  · rw [hf, h.referenced]
    rfl
  · exact (congrArg UInt8.toNat (byte_writeAll hp hnl)).trans h.nameLen
  · exact (congrArg o.decode (number_writeAll hp hal)).trans (decode_newAllocLen h)

theorem entryAt_direct {referenced : Bool} {allocLen : ℕ} {name : NVName} {value : Bytes}
    (h : OldEntryAt o old q ⟨referenced, allocLen, .vdirect name value⟩) :
    EntryAt o (m.writeAll a (directFields o old q)) a
      (NVEntry.widened ⟨referenced, allocLen, .vdirect name value⟩) := by
  have hpr := pairwise_directFields o old q
  obtain ⟨ho, hn, -, hv⟩ := h.body
  have hl : (old (q + 1)).toNat = name.len := h.nameLen
  refine entryAt_of_fields h hpr (by simp [directFields]) (by simp [directFields])
    (by simp [directFields]) ⟨?_, ?_, ?_⟩
  · have hvl : (m.writeAll a (directFields o old q)).slice (a + (8 : ℕ)) 4 =
        o.encode 4 (o.decode (old.slice (q + 4) 2)) := number_writeAll hpr (by simp [directFields])
    exact (congrArg o.decode hvl).trans ((decode_encode_u16 _).trans ho)
  · rw [← hn]
    exact slice_eq_slice_iff.mpr fun k hk => data_writeAll_direct (by omega)
  · conv_rhs => rw [← hv]
    refine slice_eq_slice_iff.mpr fun k hk => ?_
    have hp : a + 12 + name.len + 1 + k = a + 12 + (name.len + 1 + k : ℕ) := by
      push_cast
      ring
    have hp' : q + 6 + name.len + 1 + k = q + 6 + (name.len + 1 + k : ℕ) := by
      push_cast
      ring
    rw [hp, hp']
    exact data_writeAll_direct (by omega)

theorem entryAt_indirect {referenced : Bool} {allocLen : ℕ} {slice : NVReferencedSlice}
    {name : NVName} (h : OldEntryAt o old q ⟨referenced, allocLen, .vindirect slice name⟩) :
    EntryAt o (m.writeAll a (indirectFields o old q)) a
      (NVEntry.widened ⟨referenced, allocLen, .vindirect slice name⟩) := by
  have hp := pairwise_indirectFields o old q
  obtain ⟨hh, ho, hln, ht, hnm⟩ := h.body
  have hl : (old (q + 1)).toNat = name.len := h.nameLen
  have hn {k number : ℕ} {j : ℤ} (hol : o.decode (old.slice j 2) = number)
      (hf : (k, o.encode 4 (o.decode (old.slice j 2))) ∈ indirectFields o old q) :
      o.decode ((m.writeAll a (indirectFields o old q)).slice (a + k) 4) = number :=
    (congrArg o.decode (number_writeAll hp hf)).trans ((decode_encode_u16 _).trans hol)
  refine entryAt_of_fields h hp (by simp [indirectFields]) (by simp [indirectFields])
    (by simp [indirectFields]) ⟨?_, ?_, ?_, ?_, ?_⟩
  · exact hn hh (by simp [indirectFields])
  · exact hn ho (by simp [indirectFields])
  · exact hn hln (by simp [indirectFields])
  · have hta : m.writeAll a (indirectFields o old q) (a + (20 : ℕ)) = old (q + 10) :=
      byte_writeAll hp (by simp [indirectFields])
    exact (congrArg UInt8.toNat hta).trans ht
  · have hd : (21, old.slice (q + 11) (old (q + 1)).toNat) ∈ indirectFields o old q := by
      simp [indirectFields]
    rw [← hnm]
    exact slice_eq_slice_iff.mpr fun k hk => data_writeAll hp hd (by omega)

end New

/-! ### One entry -/

/-- Where `nv_entry_get_name` points to -/
def NVEntry.nameOfs (e : NVEntry) : ℕ := if e.indirect then indirectNameOfs else directHdr

theorem NVEntry.name_footprint (e : NVEntry) :
    e.nameOfs + e.name.len + 1 ≤ e.widened.footprint := by
  obtain ⟨referenced, allocLen, body⟩ := e
  cases body with
  | vdirect name value =>
    change directHdr + name.len + 1 ≤ directHdr + name.len + 1 + value.length + 1
    omega
  | vindirect slice name => exact le_rfl

theorem EntryAt.name {o : ByteOrder} {m : Image} {a : ℤ} {e : NVEntry}
    (h : EntryAt o m a e.widened) :
    m.slice (a + e.nameOfs) e.name.len = e.name.text := by
  have hb := h.body
  obtain ⟨referenced, allocLen, body⟩ := e
  cases body with
  | vdirect name value => exact hb.2.1
  | vindirect slice name => exact hb.2.2.2.2

/-- What is behind the name of a new entry: the old NUL, or whatever the memory held before -/
def NameEnd (fresh m : Image) (a : ℤ) : NVBody → Prop
  | .vdirect name _ => name.text ≠ [] → m (a + 12 + name.len) = 0
  | .vindirect _ name => m (a + 21 + name.len) = fresh (a + 21 + name.len)

/-- An old entry is in the memory of the new block, `ofs` bytes before its end. -/
structure Converted (o : ByteOrder) (fresh m : Image) (size ofs : ℕ) (e : NVEntry) : Prop where
  footprint : e.widened.footprint ≤ e.allocLen + 12
  room : e.allocLen + 12 ≤ ofs
  decoded : decodeEntry o (m.slice ((size : ℤ) - ofs) ofs) = some e.widened
  name : m.slice ((size : ℤ) - ofs + e.nameOfs) e.name.len = e.name.text
  nameEnd : NameEnd fresh m ((size : ℤ) - ofs) e.body

theorem Converted.congr {o : ByteOrder} {fresh m m' : Image} {size ofs : ℕ} {e : NVEntry}
    (h : Converted o fresh m size ofs e)
    (hs : ∀ i : ℤ, (size : ℤ) - ofs ≤ i → i < (size : ℤ) - ofs + (e.allocLen + 12) →
      m' i = m i) : Converted o fresh m' size ofs e := by
  have hf := h.footprint
  have hn := e.name_footprint
  refine ⟨hf, h.room, ?_, ?_, ?_⟩
  · exact decodeEntry_congr h.decoded fun i hi hi' => hs i hi (by omega)
  · rw [slice_congr fun i hi hi' => hs i (by omega) (by omega)]
    exact h.name
  · have he := h.nameEnd
    obtain ⟨referenced, allocLen, body⟩ := e
    cases body with
    | vdirect name value =>
      simp only [NVEntry.widened, NVEntry.footprint, directHdr] at hf
      intro hne
      rw [hs _ (by omega) (by dsimp only; omega)]
      exact he hne
    | vindirect slice name =>
      simp only [NVEntry.widened, NVEntry.footprint, indirectNameOfs] at hf
      change m' _ = _
      rw [hs _ (by omega) (by dsimp only; omega)]
      exact he

/-- What one call of `_deserialize_old_entry` does -/
structure EntryStep (o : ByteOrder) (fresh : Image) (size len ofs : ℕ) (e : NVEntry)
    (c c' : Conversion) : Prop where
  pointer : c'.pointer = c.pointer - (e.allocLen + 12)
  memory : ∀ i, i < c'.pointer ∨ c.pointer ≤ i → c'.memory i = c.memory i
  old : ∀ i, i < (len : ℤ) - ofs ∨ (len : ℤ) - ofs + e.body.oldFootprint ≤ i → c'.old i = c.old i
  converted : Converted o fresh c'.memory size ((size : ℤ) - c'.pointer).toNat e

section Step

variable {o : ByteOrder} {fresh : Image} {size len ofs : ℕ} {top : ℤ} {e : NVEntry} {c : Conversion}

theorem oldEntryLength_le {old : Image} {q : ℤ} (h : OldEntryAt o old q e) :
    oldEntryLength o old q ≤ e.body.oldFootprint := by
  have hi := h.indirect
  have hnl := h.nameLen
  have hb := h.body
  obtain ⟨referenced, allocLen, body⟩ := e
  cases body with
  | vdirect name value =>
    have hf : flagBit o (old q) 0 = false := hi
    have hl : (old (q + 1)).toNat = name.len := hnl
    obtain ⟨hvl, -⟩ := hb
    rw [oldEntryLength, hf, hvl, hl]
    exact le_rfl
  | vindirect slice name =>
    have hf : flagBit o (old q) 0 = true := hi
    have hl : (old (q + 1)).toNat = name.len := hnl
    rw [oldEntryLength, hf, hl]
    exact le_succ _

theorem writeAll_newFields {old m : Image} {q a : ℤ} (h : OldEntryAt o old q e) :
    EntryAt o (m.writeAll a (newFields o old q)) a e.widened ∧
      NameEnd m (m.writeAll a (newFields o old q)) a e.body ∧
      ∀ i, i < a ∨ a + e.widened.footprint ≤ i → m.writeAll a (newFields o old q) i = m i := by
  have hin := h.indirect
  have hnl := h.nameLen
  have hb := h.body
  obtain ⟨referenced, allocLen, body⟩ := e
  cases body with
  | vdirect name value =>
    have hfl : flagBit o (old q) 0 = false := hin
    have hl : (old (q + 1)).toNat = name.len := hnl
    obtain ⟨hvl, -, he, -⟩ := hb
    have hf : newFields o old q = directFields o old q := by
      rw [newFields, hfl, if_neg Bool.false_ne_true]
    rw [hf]
    refine ⟨entryAt_direct h, fun hne => ?_, fun i hi => writeAll_of_not_mem ?_⟩
    · rw [data_writeAll_direct (by omega)]
      exact he hne
    · simp only [NVEntry.widened, NVEntry.footprint, directHdr] at hi
      simp only [directFields, mem_cons, not_mem_nil, or_false, forall_eq_or_imp,
        forall_eq, length_singleton, ByteOrder.length_encode, length_slice, hl]
      omega
  | vindirect slice name =>
    have hfl : flagBit o (old q) 0 = true := hin
    have hl : (old (q + 1)).toNat = name.len := hnl
    have hf : newFields o old q = indirectFields o old q := by
      rw [newFields, hfl, if_pos rfl]
    have hs : ∀ i, i < a ∨ a + (21 + name.len) ≤ i →
        m.writeAll a (indirectFields o old q) i = m i := by
      intro i hi
      apply writeAll_of_not_mem
      simp only [indirectFields, mem_cons, not_mem_nil, or_false, forall_eq_or_imp,
        forall_eq, length_singleton, ByteOrder.length_encode, length_slice]
      omega
    rw [hf]
    refine ⟨entryAt_indirect h, hs _ (by omega), fun i hi => hs i ?_⟩
    simp only [NVEntry.widened, NVEntry.footprint, indirectNameOfs] at hi
    omega

theorem deserializeOldEntry_spec {w : ByteOrder} (o : ByteOrder) (top : ℤ)
    (hol : OldEntryAt w c.old ((len : ℤ) - ofs) e)
    (hft : e.body.oldFootprint ≤ e.allocLen) (hof : e.allocLen ≤ ofs)
    (hr : top + (e.allocLen + 12) ≤ c.pointer) (hpn : c.pointer ≤ size)
    (hf : ∀ i < c.pointer, c.memory i = fresh i) :
    ∃ c', deserializeOldEntry o (!(w == o)) len top ofs c = some c' ∧
      EntryStep o fresh size len ofs e c c' := by
  set q : ℤ := (len : ℤ) - ofs with hq
  -- the old entry in the order of the host
  obtain ⟨old, ho, he, hs⟩ : ∃ old,
      (if !(w == o) then oldEntrySwapBytes o c.old q else c.old) = old ∧ OldEntryAt o old q e ∧
        ∀ i, i < q ∨ q + e.body.oldFootprint ≤ i → old i = c.old i := by
    by_cases hs : w = o
    · subst hs
      exact ⟨c.old, by simp, hol, fun _ _ => rfl⟩
    · have hot : w = o.other := (o.eq_or_eq_other w).resolve_left hs
      rw [hot] at hol
      exact ⟨oldEntrySwapBytes o c.old q, by simp [hs], hol.swapped⟩
  have hln : 8 ≤ e.body.oldFootprint := by
    cases e.body <;> simp only [oldFootprint] <;> omega
  have hrd := oldEntryLength_le he
  have hal : calculateNewAllocLen o old q = e.allocLen + 12 := by
    rw [calculateNewAllocLen, he.allocLen]
  have hw := e.footprint_widened
  set new : ℤ := c.pointer - (e.allocLen + 12 : ℕ) with hn
  obtain ⟨hat, hen, hfr⟩ := writeAll_newFields he
  have hp : (size : ℤ) - (((size : ℤ) - new).toNat : ℕ) = new := by omega
  refine ⟨⟨old, c.memory.writeAll new (newFields o old q), new⟩, ?_, ?_, ?_, hs, ?_⟩
  · rw [deserializeOldEntry]
    dsimp only
    rw [← hq, ho, if_neg (by omega), hal, if_neg (by omega)]
    rfl
  · rfl
  · intro i hi
    dsimp only at hi ⊢
    exact hfr i (by omega)
  · refine ⟨by omega, by dsimp only; omega, ?_, ?_, ?_⟩
    · dsimp only
      rw [hp]
      exact hat.decodeEntry (by omega)
    · rw [hp]
      exact hat.name
    · rw [hp]
      cases hb : e.body with
      | vdirect name value =>
        rw [hb] at hen
        exact hen
      | vindirect slice name =>
        rw [hb] at hen hw
        have hen' := hen
        change c.memory.writeAll new (newFields o old q) (new + 21 + name.len) = _
        rw [hen', hf]
        simp only [hb, oldFootprint] at hft
        omega

end Step

/-! ### The loops -/

section Loop

variable {o w : ByteOrder} {fresh : Image} {size : ℕ} {top : ℤ} {s : OldTable} {t : NVTable}

def newNeed (t : NVTable) (ofs : ℕ) : ℕ :=
  if ofs = 0 then 0 else ((t.entries ofs).map fun e => e.allocLen + 12).getD 0

theorem newNeed_of_entry {ofs : ℕ} {e : NVEntry} (hne : ofs ≠ 0) (he : t.entries ofs = some e) :
    newNeed t ofs = e.allocLen + 12 := by
  rw [newNeed, if_neg hne, he]
  rfl

/-- The offset of a slot before the upgrade and after it -/
def SlotConverted (o : ByteOrder) (fresh m : Image) (size : ℕ) (pointer : ℤ) (t : NVTable)
    (ofs ofs' : ℕ) : Prop :=
  (ofs = 0 ∧ ofs' = 0) ∨ (ofs ≠ 0 ∧ ofs' ≠ 0 ∧ (ofs' : ℤ) ≤ size - pointer ∧
    ∃ e, t.entries ofs = some e ∧ Converted o fresh m size ofs' e)

theorem SlotConverted.congr {m m' : Image} {pointer pointer' : ℤ} {ofs ofs' : ℕ}
    (h : SlotConverted o fresh m size pointer t ofs ofs') (hle : pointer' ≤ pointer)
    (hs : ∀ i, pointer ≤ i → m' i = m i) : SlotConverted o fresh m' size pointer' t ofs ofs' := by
  rcases h with h | ⟨hne, hne', hp, e, he, hc⟩
  · exact .inl h
  · refine .inr ⟨hne, hne', by omega, e, he, hc.congr fun i hi _ => hs i (by omega)⟩

theorem EntryStep.old_entry {ofs ofs' : ℕ} {e e' : NVEntry} {c c' : Conversion}
    (hs : s.Stores w t) (hst : EntryStep o fresh size (s.used * 4) ofs e c c')
    (hm : ofs ∈ t.slotOffsets) (hm' : ofs' ∈ t.slotOffsets) (he : t.entries ofs = some e)
    (he' : t.entries ofs' = some e') (hne : ofs ≠ 0) (hne' : ofs' ≠ 0) (hd : ofs' ≠ ofs)
    (h : OldEntryAt w c.old ((s.used * 4 : ℕ) - ofs') e') :
    OldEntryAt w c'.old ((s.used * 4 : ℕ) - ofs') e' := by
  have hl : ∀ {ofs : ℕ} {e : NVEntry}, ofs ∈ t.slotOffsets → ofs ≠ 0 → t.entries ofs = some e →
      e.body.oldFootprint ≤ e.allocLen := by
    intro ofs e hm hne he
    obtain ⟨e₁, he₁, -, -, hf, -⟩ := hs.live ofs hm hne
    rw [he, Option.some.injEq] at he₁
    rwa [he₁]
  have hf := hl hm hne he
  have hf' := hl hm' hne' he'
  refine h.congr fun i hi hi' => hst.old i ?_
  rcases Nat.lt_or_gt_of_ne hd with hlt | hlt
  · have ha := hs.apart ofs' hm' ofs hm e' e he' he hne' hlt
    omega
  · have ha := hs.apart ofs hm ofs' hm' e e' he he' hne hlt
    omega

theorem convertSlots_spec (o : ByteOrder) (fresh : Image) (size : ℕ) (top : ℤ) (hs : s.Stores w t)
    (testsZero : Bool) {slots : List ℕ} {c : Conversion}
    (hz : testsZero = true ∨ ∀ ofs ∈ slots, ofs ≠ 0) (hmm : ∀ ofs ∈ slots, ofs ∈ t.slotOffsets)
    (hd : (slots.filter (· ≠ 0)).Nodup)
    (hol : ∀ ofs ∈ slots, ofs ≠ 0 → ∀ e, t.entries ofs = some e →
      OldEntryAt w c.old ((s.used * 4 : ℕ) - ofs) e)
    (hr : top + (slots.map (newNeed t)).sum ≤ c.pointer) (hp : c.pointer ≤ size)
    (_ : 0 ≤ top) (hf : ∀ i < c.pointer, c.memory i = fresh i) :
    ∃ slots' c', convertSlots o (!(w == o)) testsZero (s.used * 4) top size slots c =
        some (slots', c') ∧ c'.pointer = c.pointer - (slots.map (newNeed t)).sum ∧
      (∀ i, i < c'.pointer ∨ c.pointer ≤ i → c'.memory i = c.memory i) ∧
      (∀ ofs ∈ t.slotOffsets, ofs ≠ 0 → ofs ∉ slots → ∀ e, t.entries ofs = some e →
        OldEntryAt w c.old ((s.used * 4 : ℕ) - ofs) e →
        OldEntryAt w c'.old ((s.used * 4 : ℕ) - ofs) e) ∧
      List.Forall₂ (SlotConverted o fresh c'.memory size c'.pointer t) slots slots' := by
  induction slots generalizing c with
  | nil =>
    refine ⟨[], c, rfl, ?_, fun _ _ => rfl, fun _ _ _ _ _ _ h => h, .nil⟩
    simp
  | cons ofs rest ih =>
    rw [map_cons, sum_cons] at hr ⊢
    have hmr : ∀ ofs' ∈ rest, ofs' ∈ t.slotOffsets := fun ofs' h' =>
      hmm ofs' (mem_cons_of_mem _ h')
    have hzr := hz.imp_right fun hal ofs' h' => hal ofs' (mem_cons_of_mem _ h')
    by_cases hne : ofs = 0
    · have ht : testsZero = true := hz.resolve_right fun hal =>
        hal ofs mem_cons_self hne
      have hn : newNeed t ofs = 0 := by rw [newNeed, if_pos hne]
      rw [hn] at hr ⊢
      rw [filter_cons_of_neg (by simpa using hne)] at hd
      obtain ⟨slots', c', hc, hed, hm, hoo, hsl⟩ := ih hzr hmr
        hd (fun ofs' h' => hol ofs' (mem_cons_of_mem _ h')) (by simpa using hr)
        hp hf
      refine ⟨0 :: slots', c', ?_, by simpa using hed, hm, ?_, .cons (.inl ⟨hne, rfl⟩) hsl⟩
      · rw [convertSlots, if_pos ⟨ht, hne⟩, hc]
        rfl
      · intro ofs' hof' hne' hnt
        exact hoo ofs' hof' hne' fun h' => hnt (mem_cons_of_mem _ h')
    · have hof := hmm ofs mem_cons_self
      obtain ⟨e, he, -, -, hft, ha, -⟩ := hs.live ofs hof hne
      rw [newNeed_of_entry hne he] at hr ⊢
      rw [filter_cons_of_pos (by simpa using hne), nodup_cons] at hd
      obtain ⟨c₁, hen, hst⟩ := deserializeOldEntry_spec o top
        (hol ofs mem_cons_self hne e he) hft ha (by omega) hp hf
      have hsp := hst.pointer
      have ho : ∀ ofs' ∈ rest, ofs' ≠ 0 → ofs' ≠ ofs := by
        rintro ofs' h' hne' rfl
        exact hd.1 (mem_filter.mpr ⟨h', by simpa using hne'⟩)
      obtain ⟨slots', c', hc, hed, hm, hoo, hsl⟩ := ih hzr hmr
        hd.2
        (fun ofs' h' hne' e' he' => hst.old_entry hs hof (hmr ofs' h') he he' hne hne'
          (ho ofs' h' hne') (hol ofs' (mem_cons_of_mem _ h') hne' e' he'))
        (by omega) (by omega)
        (fun i hi => by rw [hst.memory i (.inl hi), hf i (by omega)])
      have hfr : SlotConverted o fresh c'.memory size c'.pointer t ofs
          ((size : ℤ) - c₁.pointer).toNat := by
        refine .inr ⟨hne, by omega, by omega, e, he, hst.converted.congr fun i hi _ => ?_⟩
        exact hm i (.inr (by omega))
      refine ⟨((size : ℤ) - c₁.pointer).toNat :: slots', c', ?_, by omega, ?_, ?_,
        .cons hfr hsl⟩
      · rw [convertSlots, if_neg fun h => hne h.2, hen]
        simp only [Option.bind_eq_bind, Option.bind_some, hc, Option.pure_def]
      · intro i hi
        rw [hm i (by omega), hst.memory i (by omega)]
      · intro ofs' hof' hne' hnt e' he' hat
        rw [mem_cons, not_or] at hnt
        exact hoo ofs' hof' hne' hnt.2 e' he'
          (hst.old_entry hs hof hof' he he' hne hne' hnt.1 hat)

end Loop

/-! ### The new size -/

theorem sum_map_filter_ne_zero {f : ℕ → ℕ} (hf : f 0 = 0) (l : List ℕ) :
    (l.map f).sum = ((l.filter (· ≠ 0)).map f).sum := by
  induction l with
  | nil => rfl
  | cons x l ih =>
    rw [map_cons, sum_cons, ih]
    by_cases hx : x = 0
    · simp [hx, hf]
    · simp [hx]

section Size

variable {w : ByteOrder} {s : OldTable} {t : NVTable}

def oldRoom (t : NVTable) (ofs : ℕ) : ℕ := ((t.entries ofs).map NVEntry.allocLen).getD 0

theorem OldTable.Stores.oldRoom (hs : s.Stores w t) {ofs : ℕ} (hm : ofs ∈ t.slotOffsets)
    (hne : ofs ≠ 0) : oldRoom t ofs ≤ ofs ∧ ofs ≤ s.used * 4 ∧
      newNeed t ofs = NvTable.oldRoom t ofs + 12 := by
  obtain ⟨e, he, -, -, -, ha, hu⟩ := hs.live ofs hm hne
  have hr : NvTable.oldRoom t ofs = e.allocLen := by rw [NvTable.oldRoom, he]; rfl
  rw [hr, newNeed_of_entry hne he]
  exact ⟨ha, hu, rfl⟩

/-- Entries that do not overlap fit into the payload together. -/
theorem OldTable.Stores.sum_oldRoom_le (hs : s.Stores w t) :
    ((t.slotOffsets.filter (· ≠ 0)).map (NvTable.oldRoom t)).sum ≤ s.used * 4 := by
  set live := (t.slotOffsets.filter (· ≠ 0)).toFinset with hl
  have hm : ∀ ofs ∈ live, ofs ∈ t.slotOffsets ∧ ofs ≠ 0 := by
    intro ofs ho
    rw [List.mem_toFinset, mem_filter] at ho
    exact ⟨ho.1, by simpa using ho.2⟩
  have hd : ∀ x ∈ live, ∀ y ∈ live, x ≠ y → Disjoint
      (Finset.Ioc (x - NvTable.oldRoom t x) x) (Finset.Ioc (y - NvTable.oldRoom t y) y) := by
    have hlt : ∀ x ∈ live, ∀ y ∈ live, x < y → Disjoint
        (Finset.Ioc (x - NvTable.oldRoom t x) x) (Finset.Ioc (y - NvTable.oldRoom t y) y) := by
      intro x hx y hy hxy
      obtain ⟨ex, hex, -⟩ := hs.live x (hm x hx).1 (hm x hx).2
      obtain ⟨ey, hey, -⟩ := hs.live y (hm y hy).1 (hm y hy).2
      have ha := hs.apart x (hm x hx).1 y (hm y hy).1 ex ey hex hey (hm x hx).2 hxy
      have hr : NvTable.oldRoom t y = ey.allocLen := by rw [NvTable.oldRoom, hey]; rfl
      rw [Finset.disjoint_left]
      intro i hi hi'
      rw [Finset.mem_Ioc] at hi hi'
      omega
    intro x hx y hy hne
    rcases Nat.lt_or_gt_of_ne hne with hxy | hxy
    · exact hlt x hx y hy hxy
    · exact (hlt y hy x hx hxy).symm
  calc ((t.slotOffsets.filter (· ≠ 0)).map (NvTable.oldRoom t)).sum
      = ∑ ofs ∈ live, NvTable.oldRoom t ofs := (sum_toFinset _ hs.distinct).symm
    _ = ∑ ofs ∈ live, (Finset.Ioc (ofs - NvTable.oldRoom t ofs) ofs).card := by
      refine Finset.sum_congr rfl fun ofs ho => ?_
      have hle := (hs.oldRoom (hm ofs ho).1 (hm ofs ho).2).1
      rw [card_Ioc]
      omega
    _ = (live.biUnion fun ofs => Finset.Ioc (ofs - NvTable.oldRoom t ofs) ofs).card :=
      (Finset.card_biUnion hd).symm
    _ ≤ (Finset.Ioc 0 (s.used * 4)).card := by
      refine Finset.card_le_card fun i hi => ?_
      obtain ⟨ofs, ho, hi⟩ := Finset.mem_biUnion.mp hi
      have hle := (hs.oldRoom (hm ofs ho).1 (hm ofs ho).2).2.1
      rw [Finset.mem_Ioc] at hi ⊢
      omega
    _ = s.used * 4 := by rw [card_Ioc]; omega

theorem OldTable.Stores.sum_newNeed_le (hs : s.Stores w t) :
    (t.slotOffsets.map (newNeed t)).sum ≤ s.used * 4 + 12 * t.slotOffsets.length := by
  have hz : newNeed t 0 = 0 := if_pos rfl
  have hn : (t.slotOffsets.filter (· ≠ 0)).map (newNeed t) =
      (t.slotOffsets.filter (· ≠ 0)).map fun ofs => NvTable.oldRoom t ofs + 12 := by
    refine map_congr_left fun ofs ho => ?_
    rw [mem_filter] at ho
    exact (hs.oldRoom ho.1 (by simpa using ho.2)).2.2
  have hl := length_filter_le (· ≠ 0) t.slotOffsets
  have hr := hs.sum_oldRoom_le
  rw [sum_map_filter_ne_zero hz, hn, sum_map_add, map_const', sum_replicate, smul_eq_mul]
  omega

end Size

end SyslogNg.NvTable
