import SyslogNg.PersistState.Layout

/-!
# Adding a key

`persist_state_add_key` puts a key at the end of the current key block, or into a new block that is
linked from it. The layout stays, with one more key.
-/
namespace SyslogNg.Persist

open List Nat Image SerializeArchive PersistState

variable {s : PersistState} {own : ℤ → Owner} {recs : List (Name × ℕ)} {handles : List ℕ}
  {key : Name} {handle : ℕ}

def putKey (m : Image) (ofs : ℤ) (key : Name) (handle : ℕ) : Image :=
  ((m.write ofs (be32 key.length)).write (ofs + 4) key).write (ofs + 4 + key.length) (be32 handle)

section PutKey

variable {m : Image} {ofs i : ℤ}

theorem keyAt_putKey (hkey : ValidName key) (hh : handle < 2 ^ 32) :
    KeyAt (putKey m ofs key handle) ofs key handle := by
  have hl := hkey.length
  have hf : (m.write ofs (be32 key.length)).read32 ofs = key.length :=
    read32_write_self (by omega)
  constructor
  · refine (read32_congr fun i _ hi => ?_).trans hf
    unfold putKey
    rw [write_of_lt (by omega), write_of_lt (by omega)]
  · refine (slice_congr fun i _ hi => ?_).trans
      (slice_write_self (m := m.write ofs (be32 key.length)))
    exact write_of_lt hi
  · exact read32_write_self hh

theorem putKey_of_not_mem (hi : ¬(ofs ≤ i ∧ i < ofs + keySpan key)) :
    putKey m ofs key handle i = m i := by
  unfold keySpan at hi
  unfold putKey
  rw [write_of_not_mem (by rw [length_be32]; omega), write_of_not_mem (by omega),
    write_of_not_mem (by rw [length_be32]; omega)]

end PutKey

theorem keyArchive_len (h : Layout s own recs handles) :
    s.keyArchive.len = s.currentKeySize - s.currentKeyOfs - 8 := by
  have hr := h.reserved
  have hb := h.block
  unfold keyBlockSize at hb
  unfold keyArchive
  dsimp only
  omega

theorem keyArchive_buff : s.keyArchive.buff = s.place.addr := cast_add _ _

section

variable (h : Layout s own recs handles)
include h

section

variable (hkey : ValidName key)
include hkey

theorem serializeKey_of_le (hh : handle < 2 ^ 32)
    (hf : s.currentKeyOfs + keySpan key + 8 ≤ s.currentKeySize) :
    (s.serializeKey key handle).1.error = false ∧ (s.serializeKey key handle).1.pos = keySpan key ∧
      (s.serializeKey key handle).2 = putKey s.currentMap s.place.addr key handle := by
  have hl := hkey.length
  have hne : key.length ≠ 0 := fun hz => hkey.ne (length_eq_zero_iff.mp hz)
  have hln := keyArchive_len h
  have hp : s.keyArchive.pos = 0 := rfl
  unfold keySpan at hf
  unfold serializeKey
  rw [writeCstring_of_le rfl (by omega) hne (by omega)]
  rw [writeUint32_of_le rfl (by dsimp only; omega) hh]
  refine ⟨rfl, by unfold keySpan; dsimp only; omega, ?_⟩
  rw [hp, keyArchive_buff]
  unfold putKey
  push_cast
  simp only [add_zero, add_assoc]

theorem serializeKey_of_gt (hgt : s.currentKeyOfs + keySpan key + 8 > s.currentKeySize) :
    (s.serializeKey key handle).1.error = true ∧
      ∀ i, own i ≠ .room → (s.serializeKey key handle).2 i = s.currentMap i := by
  have hl := hkey.length
  have hne : key.length ≠ 0 := fun hz => hkey.ne (length_eq_zero_iff.mp hz)
  have hln := keyArchive_len h
  have hp : s.keyArchive.pos = 0 := rfl
  unfold keySpan at hgt
  constructor
  · unfold serializeKey
    by_cases hn : 4 + key.length ≤ s.currentKeySize - s.currentKeyOfs - 8
    · rw [writeCstring_of_le rfl (by omega) hne (by omega)]
      apply writeBytes_of_gt
      rw [length_be32]
      dsimp only
      omega
    · have hf : (s.keyArchive.writeCstring s.currentMap key).1.error = true :=
        writeCstring_of_gt rfl (by omega) hne (by omega)
      rw [writeUint32, writeBytes_of_error hf]
      exact hf
  · intro i hi
    have hc : SerializeArchive.Confined s.keyArchive s.currentMap
        (s.keyArchive.writeCstring s.currentMap key) :=
      writeCstring_confined (Nat.zero_le _)
    apply (hc.trans (writeBytes_confined hc.pos)).map
    rintro ⟨hlo, hhi⟩
    rw [keyArchive_buff] at hlo hhi
    have ha : s.place.addr = s.currentKeyBlock + s.currentKeyOfs := rfl
    exact hi (h.room i hlo (by omega))

theorem writeKey_of_le
    (hh : handle < 2 ^ 32) (hf : s.currentKeyOfs + keySpan key + 8 ≤ s.currentKeySize) :
    s.writeKey key handle = ({ s with
          currentMap := (putKey s.currentMap s.place.addr key handle).write keyCountOfs
            (be32 (((putKey s.currentMap s.place.addr key handle).read32 keyCountOfs + 1) % 2 ^ 32))
          currentKeyOfs := s.currentKeyOfs + keySpan key }, true) := by
  obtain ⟨he, hp, hm⟩ := serializeKey_of_le h hkey hh hf
  unfold writeKey
  dsimp only
  rw [he, hp, hm, if_neg Bool.false_ne_true]

theorem writeKey_of_gt (hgt : s.currentKeyOfs + keySpan key + 8 > s.currentKeySize) :
    s.writeKey key handle = ({ s with currentMap := (s.serializeKey key handle).2 }, false) := by
  unfold writeKey
  dsimp only
  rw [(serializeKey_of_gt h hkey hgt).1, if_pos rfl]

theorem Layout.writeKey (hmm : handle ∈ handles) (hn : handle ∉ recs.map Prod.snd)
    (hf : s.currentKeyOfs + keySpan key + 8 ≤ s.currentKeySize) :
    Layout (s.writeKey key handle).1 (assign own s.place.addr (s.place.addr + keySpan key) .key)
        (recs ++ [(key, handle)]) handles ∧ KeepsValues s own (s.writeKey key handle).1
        (assign own s.place.addr (s.place.addr + keySpan key) .key) := by
  have hsz := h.size
  have hwt := h.watermark
  have hh : handle < 2 ^ 32 := by
    have hle := h.value_le (h.handles handle hmm)
    omega
  have hc : recs.length + 1 < 2 ^ 32 := by
    have hle := h.length_le
    omega
  rw [writeKey_of_le h hkey hh hf]
  let own' := assign own s.place.addr (s.place.addr + keySpan key) .key
  let m₁ := putKey s.currentMap s.place.addr key handle
  let m₂ := m₁.write keyCountOfs (be32 ((m₁.read32 keyCountOfs + 1) % 2 ^ 32))
  have had : s.place.addr = s.currentKeyBlock + s.currentKeyOfs := rfl
  have hr : OwnedBy own s.place.addr (s.place.addr + keySpan key) .room :=
    h.room.mono le_rfl (by omega)
  have how {i : ℤ} (hi : own i ≠ .room) : own' i = own i := assign_of_ne hr hi
  have hm₁ {i : ℤ} (hi : own i ≠ .room) : m₁ i = s.currentMap i :=
    putKey_of_not_mem fun hmm => hi (hr i hmm.1 hmm.2)
  have hm₂ {i : ℤ} (hi : own i ≠ .header) : m₂ i = m₁ i := by
    apply write_of_ownedBy (h.head.mono _ _) hi
    · exact Int.natCast_nonneg 8
    · exact Int.ofNat_le.mpr (by decide : 12 ≤ 64)
  obtain ⟨hm, hrd⟩ := h.header_congr fun i hi => hm₁ (hi.trans_ne Owner.noConfusion)
  have hk : KeepsValues s own { s with currentMap := m₂ } own' := by
    intro i v hi
    have hne : own i ≠ .room := hi.trans_ne Owner.noConfusion
    refine ⟨(how hne).trans hi, (hm₂ ?_).trans (hm₁ hne)⟩
    rw [hi]
    exact Owner.noConfusion
  refine ⟨?_, hk⟩
  have hch : KeyChain m₂ own' s.currentOfs .initial recs s.place := by
    refine h.chain.congr (fun i hi => ?_) (fun i hi => ?_) le_rfl
    · rw [how (hi.trans_ne Owner.noConfusion), hi]
    · rw [hm₂ (hi.trans_ne Owner.noConfusion), hm₁ (hi.trans_ne Owner.noConfusion)]
  have hl : KeyChain m₂ own' s.currentOfs s.place [(key, handle)]
      { s.place with pos := s.place.pos + keySpan key } := by
    refine .key hkey ?_ ownedBy_assign ?_ .nil
    · apply (keyAt_putKey hkey hh).congr
      intro i hlo hhi
      apply hm₂
      rw [hr i hlo hhi]
      exact Owner.noConfusion
    · exact (Nat.le_add_right _ 8).trans hf
  exact
    { h with
      fresh := by
        intro i hi
        have hfr := h.fresh i hi
        exact (how (hfr.trans_ne Owner.noConfusion)).trans hfr
      owned := fun i v hi => h.owned i v (of_assign hi Owner.noConfusion)
      head := h.head.assign_of_ne hr Owner.noConfusion
      magic := by
        rw [← hm]
        exact slice_congr fun i _ hi => write_of_lt (by unfold keyCountOfs; omega)
      count := by
        rw [length_append]
        have hw : m₂.read32 keyCountOfs = (m₁.read32 keyCountOfs + 1) % 2 ^ 32 :=
          read32_write_self (mod_lt _ (by norm_num))
        rw [hrd, mod_eq_of_lt hc] at hw
        exact hw
      chain := hch.append hl
      room := by
        have hrs : OwnedBy own (s.place.addr + keySpan key) (s.currentKeyBlock + s.currentKeySize)
            .room := h.room.mono (by omega) le_rfl
        have hrs' : OwnedBy own' (s.place.addr + keySpan key) (s.currentKeyBlock + s.currentKeySize)
            .room := hrs.assign_of_disjoint (.inr le_rfl)
        have hs : ((s.currentKeyBlock : ℤ) + (s.currentKeyOfs + keySpan key : ℕ)) =
            s.place.addr + keySpan key := by
          rw [had, cast_add, add_assoc]
        exact hrs'.mono hs.ge le_rfl
      reserved := hf
      values := by
        intro found hfn
        rcases mem_append.mp hfn with hol | hol
        · exact hk.valueAt (h.values found hol)
        · rw [mem_singleton.mp hol]
          exact hk.valueAt (h.handles handle hmm)
      handles := fun other ho => hk.valueAt (h.handles other ho)
      nodup := by
        rw [map_append, nodup_append]
        refine ⟨h.nodup, nodup_singleton _, ?_⟩
        rintro a ha b hb rfl
        rw [mem_singleton.mp hb] at ha
        exact hn ha }

end

/-! ### A new key block -/

theorem linkArchive_len : s.linkArchive.len = s.currentKeySize - s.currentKeyOfs := by
  have hr := h.reserved
  have hb := h.block
  unfold keyBlockSize at hb
  unfold linkArchive
  dsimp only
  omega

theorem chainTo_map {newBlock : ℕ} (hlt : newBlock < 2 ^ 32) : (s.chainTo newBlock).currentMap =
      (s.currentMap.write s.place.addr (be32 0)).write (s.place.addr + 4) (be32 newBlock) := by
  have hl := linkArchive_len h
  have hr := h.reserved
  have hp : s.linkArchive.pos = 0 := rfl
  have hb : s.linkArchive.buff = s.place.addr := cast_add _ _
  unfold chainTo
  rw [writeCstring_nil rfl (by omega)]
  dsimp only
  rw [writeUint32_of_le rfl (by dsimp only; omega) hlt, hp, hb]
  simp

end

/-- The link and the header of the new block belong to the keys, and its bytes are what is left. -/
def linkOwners (own : ℤ → Owner) (addr : ℤ) (newBlock : ℕ) : ℤ → Owner :=
  assign (assign (assign own addr (addr + 8) .key) (newBlock - valueHeaderSize) newBlock .key)
    newBlock (newBlock + keyBlockSize) .room

theorem linkOwners_of_ne {addr i : ℤ} {newBlock : ℕ} (hr : OwnedBy own addr (addr + 8) .room)
    (hv : OwnedBy own (newBlock - valueHeaderSize) (newBlock + keyBlockSize) (.value newBlock))
    (hi : own i ≠ .room) (hne : own i ≠ .value newBlock) :
    linkOwners own addr newBlock i = own i := by
  have ho : ¬((newBlock : ℤ) - valueHeaderSize ≤ i ∧ i < newBlock + keyBlockSize) :=
    fun hm => hne (hv i hm.1 hm.2)
  unfold linkOwners
  rw [assign_of_not_mem (by omega), assign_of_not_mem (by omega), assign_of_ne hr hi]

section

variable (h : Layout s own recs handles)
include h

theorem Layout.chainTo {newBlock : ℕ}
    (hge : headerSize + valueHeaderSize ≤ newBlock) (hs : s.currentMap.read32
      (newBlock - valueHeaderSize) = keyBlockSize)
    (hvl : OwnedBy own (newBlock - valueHeaderSize) (newBlock + keyBlockSize) (.value newBlock))
    (hrc : newBlock ∉ recs.map Prod.snd) (hha : newBlock ∉ handles) :
    Layout (s.chainTo newBlock) (linkOwners own s.place.addr newBlock) recs handles ∧
      ∀ i handle, handle ≠ newBlock → own i = .value handle →
        linkOwners own s.place.addr newBlock i = .value handle ∧
          (s.chainTo newBlock).currentMap i = s.currentMap i := by
  have hle := h.owned_le hvl Owner.noConfusion (by unfold valueHeaderSize; omega)
  have hlt : newBlock < 2 ^ 32 := by
    have := h.size
    have := h.watermark
    omega
  have ha : s.place.addr = s.currentKeyBlock + s.currentKeyOfs := rfl
  have hr := h.reserved
  have hrm : OwnedBy own s.place.addr (s.place.addr + 8) .room := h.room.mono le_rfl (by omega)
  let own' := linkOwners own s.place.addr newBlock
  have ho {i : ℤ} (hi : own i ≠ .room) (hne : own i ≠ .value newBlock) : own' i = own i :=
    linkOwners_of_ne hrm hvl hi hne
  have hmp {i : ℤ} (hi : own i ≠ .room) : (s.chainTo newBlock).currentMap i = s.currentMap i := by
    have hot : ¬(s.place.addr ≤ i ∧ i < s.place.addr + 8) := fun hm => hi (hrm i hm.1 hm.2)
    rw [chainTo_map h hlt, write_of_not_mem (by rw [length_be32]; omega),
      write_of_not_mem (by rw [length_be32]; omega)]
  have hh := h.header_congr fun i hi => hmp (hi.trans_ne Owner.noConfusion)
  have hk : ∀ i handle, handle ≠ newBlock → own i = .value handle →
      own' i = .value handle ∧ (s.chainTo newBlock).currentMap i = s.currentMap i := by
    intro i handle hne hi
    have hi' : own i ≠ .room := hi.trans_ne Owner.noConfusion
    refine ⟨(ho hi' ?_).trans hi, hmp hi'⟩
    rw [hi]
    exact fun heq => hne (Owner.value.inj heq)
  have hva {handle : ℕ} (hne : handle ≠ newBlock) (hv : ValueAt s.currentMap own handle) :
      ValueAt (s.chainTo newBlock).currentMap own' handle :=
    hv.congr (fun i hi => (hk i handle hne hi).1)
      (hv.read32_congr fun i hi => (hk i handle hne hi).2)
  have hc : KeyChain (s.chainTo newBlock).currentMap own' s.currentOfs .initial recs s.place := by
    refine h.chain.congr (fun i hi => ?_) (fun i hi => ?_) le_rfl
    · rw [ho (hi.trans_ne Owner.noConfusion) (hi.trans_ne Owner.noConfusion), hi]
    · exact hmp (hi.trans_ne Owner.noConfusion)
  have hl : KeyChain (s.chainTo newBlock).currentMap own' s.currentOfs s.place []
      ⟨newBlock, keyBlockSize, 0⟩ := by
    refine .link ⟨?_, ?_, ?_⟩ ?_ hr ?_ ((Nat.le_add_right _ _).trans hge) (by omega) .nil
    · have hfr : (s.currentMap.write s.place.addr (be32 0)).read32 s.place.addr = 0 :=
        read32_write_self (by norm_num)
      rw [chainTo_map h hlt]
      refine Eq.trans ?_ hfr
      exact read32_congr fun i _ hi => write_of_lt hi
    · rw [chainTo_map h hlt]
      exact read32_write_self hlt
    · rw [← hs]
      apply read32_congr
      intro i hlo hhi
      have hi := hvl i hlo (by unfold valueHeaderSize at hhi; omega)
      exact hmp (hi.trans_ne Owner.noConfusion)
    · intro i hlo hhi
      have hot : ¬((newBlock : ℤ) - valueHeaderSize ≤ i ∧ i < newBlock + keyBlockSize) := by
        intro hm
        have hi := hvl i hm.1 hm.2
        rw [hrm i hlo hhi] at hi
        cases hi
      have hl : own' i = assign own s.place.addr (s.place.addr + 8) .key i :=
        (assign_of_not_mem (by omega)).trans (assign_of_not_mem (by omega))
      exact hl.trans (assign_of_mem hlo hhi)
    · exact ownedBy_assign.assign_of_disjoint (.inl le_rfl)
  refine ⟨?_, hk⟩
  exact
    { h with
      fresh := by
        intro i hi
        have hf := h.fresh i hi
        exact (ho (hf.trans_ne Owner.noConfusion)
          (hf.trans_ne Owner.noConfusion)).trans hf
      owned := by
        intro i v hi
        have hnr := of_assign hi Owner.noConfusion
        exact h.owned i v (of_assign (of_assign hnr Owner.noConfusion) Owner.noConfusion)
      head := by
        intro i hlo hhi
        have hh := h.head i hlo hhi
        exact (ho (hh.trans_ne Owner.noConfusion)
          (hh.trans_ne Owner.noConfusion)).trans hh
      magic := hh.1
      count := hh.2
      chain := by
        have := hc.append hl
        rw [append_nil] at this
        exact this
      room := ownedBy_assign
      reserved := le_of_ble_eq_true rfl
      block := le_rfl
      values := by
        intro key hkey
        refine hva (fun heq => hrc ?_) (h.values key hkey)
        exact heq ▸ List.mem_map_of_mem hkey
      handles := by
        intro handle hhn
        exact hva (fun heq => hha (heq ▸ hhn)) (h.handles handle hhn) }

/-! ### Both attempts -/

theorem Layout.writeKey_packing (hkey : ValidName key)
    (hm : handle ∈ handles) (hf : s.currentKeyOfs + keySpan key + 8 ≤ s.currentKeySize) :
    (s.writeKey key handle).2 = true ∧ (s.writeKey key handle).1.packing =
      { s.packing with room := s.packing.room - keySpan key } := by
  rw [writeKey_of_le h hkey (h.handle_lt hm) hf]
  refine ⟨rfl, ?_⟩
  unfold packing
  rw [sub_add_eq]

theorem Layout.addKeyBlock (hkey : ValidName key)
    (hm : handle ∈ handles) (hn : handle ∉ recs.map Prod.snd)
    (hrm : s.currentSize + fileInitialSize < 2 ^ 32) : (s.addKeyBlock key handle true).2 = true ∧
      (s.addKeyBlock key handle true).1.packing =
        { s.packing.take keyBlockSize with room := keyBlockSize - keySpan key } ∧
      ∃ own', Layout (s.addKeyBlock key handle true).1 own' (recs ++ [(key, handle)]) handles ∧
        KeepsValues s own (s.addKeyBlock key handle true).1 own' := by
  have hr : roundUp keyBlockSize = keyBlockSize := by decide
  have hfr : s.CheckFreeSpace (roundUp keyBlockSize) := by
    have hw := h.watermark
    have hal := h.aligned
    have hpg := h.page
    rw [hr]
    unfold PersistState.CheckFreeSpace valueHeaderSize keyBlockSize
    unfold fileWatermark at hw
    omega
  obtain ⟨own₁, hl, ha⟩ := h.allocValue hfr (by decide) hrm true 0
  let t := (s.allocValue keyBlockSize true 0 true).1
  let newBlock := (s.allocValue keyBlockSize true 0 true).2
  have hhn : newBlock = s.currentOfs + 8 := ha.handle_eq
  have hge := h.ge
  have holder {v : ℕ} (hv : ValueAt s.currentMap own v) : v ≠ newBlock := by
    have hle := h.value_le hv
    omega
  have ho : OwnedBy own₁ (newBlock - valueHeaderSize) (newBlock + keyBlockSize)
    (.value newBlock) := by
    have ho := ha.owns
    rwa [hr] at ho
  obtain ⟨hln, hk⟩ : Layout (t.chainTo newBlock) (linkOwners own₁ t.place.addr newBlock) recs
      handles ∧ _ := by
    apply hl.chainTo _ ha.size ho
    · intro hrc
      obtain ⟨found, hfn, heq⟩ := List.mem_map.mp hrc
      exact holder (h.values found hfn) heq
    · exact fun hh => holder (h.handles newBlock hh) rfl
    · unfold valueHeaderSize
      omega
  have had : s.addKeyBlock key handle true = (t.chainTo newBlock).writeKey key handle :=
    if_neg (by omega : newBlock ≠ 0)
  have hf : (t.chainTo newBlock).currentKeyOfs + keySpan key + 8 ≤
      (t.chainTo newBlock).currentKeySize := by
    have hlh := hkey.length
    change 0 + keySpan key + 8 ≤ keyBlockSize
    unfold keySpan keyBlockSize
    omega
  have hp : (t.chainTo newBlock).packing = { t.packing with room := keyBlockSize } := rfl
  obtain ⟨hs, hrm'⟩ := hln.writeKey_packing hkey hm hf
  obtain ⟨hl', hk'⟩ := hln.writeKey hkey hm hn hf
  rw [had]
  refine ⟨hs, ?_, _, hl', ?_⟩
  · rw [hrm', hp, ha.packing, hr]
  · refine KeepsValues.trans ?_ hk'
    intro i v hi
    obtain ⟨ho₁, hm₁⟩ := ha.keeps.keepsValues i v hi
    obtain ⟨ho₂, hm₂⟩ := hk i v (by have := h.owned i v hi; omega) ho₁
    exact ⟨ho₂, hm₂.trans hm₁⟩

theorem Layout.setKeys (keys : Name → Option ℕ) :
    Layout { s with keys := keys } own recs handles := { h with }

/-- A key is always added, since the watermark leaves space for another key block. -/
theorem Layout.addKey (hkey : ValidName key)
    (hm : handle ∈ handles) (hn : handle ∉ recs.map Prod.snd)
    (hr : s.currentSize + fileInitialSize < 2 ^ 32) : (s.addKey key handle true).2 = true ∧
      (s.addKey key handle true).1.packing = s.packing.addKey (keySpan key) ∧
      ∃ own', Layout (s.addKey key handle true).1 own' (recs ++ [(key, handle)]) handles ∧
        KeepsValues s own (s.addKey key handle true).1 own' := by
  let t : PersistState := { s with keys := Function.update s.keys key (some handle) }
  have ht : Layout t own recs handles := h.setKeys _
  have had : s.addKey key handle true =
      if (t.writeKey key handle).2 then t.writeKey key handle
      else (t.writeKey key handle).1.addKeyBlock key handle true := rfl
  have hpr : s.packing.room = s.currentKeySize - s.currentKeyOfs := rfl
  rw [had]
  by_cases hf : s.currentKeyOfs + keySpan key + 8 ≤ s.currentKeySize
  · obtain ⟨hs, hp⟩ := ht.writeKey_packing hkey hm hf
    rw [if_pos hs, Packing.addKey, if_pos (by omega)]
    exact ⟨hs, hp, _, ht.writeKey hkey hm hn hf⟩
  · have hgt := not_le.mp hf
    have ha : t.writeKey key handle = _ := writeKey_of_gt ht hkey hgt
    have hsm : ∀ i, own i ≠ .room → (t.serializeKey key handle).2 i = t.currentMap i :=
      (serializeKey_of_gt ht hkey hgt).2
    rw [ha, if_neg Bool.false_ne_true, Packing.addKey, if_neg (by omega)]
    obtain ⟨hs, hp, own', hl, hk⟩ :=
      (ht.modifyRoom hsm).addKeyBlock hkey hm hn hr
    refine ⟨hs, hp, own', hl, ?_⟩
    refine KeepsValues.trans (fun i v hi => ⟨hi, ?_⟩) hk
    exact hsm i (hi.trans_ne Owner.noConfusion)

end

end SyslogNg.Persist
