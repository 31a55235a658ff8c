import SyslogNg.NvTable.SlotOrder

/-!
# NVTable: memory layout

The block invariant behind every operation: the slot arrays and the stored entries
do not meet, entries occupy disjoint byte ranges and stay inside the bytes they own,
and every non-zero offset in a slot is the address of exactly one stored entry. On
such a table a store replaces the entry of one handle and leaves all others alone.
-/
namespace SyslogNg.NvTable

open NVTable Function List Option

namespace NVTable

def addr (t : NVTable) (h : ℕ) : Option ℕ := (t.getEntry h).1

def entryOf (t : NVTable) (h : ℕ) : Option NVEntry := (t.addr h).bind t.entries

variable {t t' : NVTable} {h : ℕ} {dynSlot : Option ℕ} {e : NVEntry}

theorem addr_congr (hs : t'.staticEntries = t.staticEntries) (hd : t'.dynEntries = t.dynEntries) :
    t'.addr = t.addr := by
  funext k
  rw [addr, getEntry_congr hs hd, addr]

theorem getEntryAtOfs_pos {ofs : ℕ} (h0 : ofs ≠ 0) : getEntryAtOfs ofs = some ofs := if_neg h0

theorem addr_zero : t.addr 0 = none := by rw [addr, getEntry_zero]

theorem addr_static (h0 : h ≠ 0) (hs : h ≤ t.numStatic) :
    t.addr h = getEntryAtOfs (t.staticEntries.getD (h - 1) 0) := by
  rw [addr, getEntry_static h0 hs]

theorem addr_static_congr (hs : t'.staticEntries = t.staticEntries) {k : ℕ}
    (hk : k ≤ t.numStatic) : t'.addr k = t.addr k := by
  by_cases hk0 : k = 0
  · rw [hk0, addr_zero, addr_zero]
  · rw [addr_static hk0 hk, addr_static hk0 (numStatic_congr hs ▸ hk), hs]

section

variable (hs : t.Sorted)
include hs

theorem Sorted.addr_mem {d : NVDynValue} (hd : d ∈ t.dynEntries) :
    t.addr d.handle = getEntryAtOfs d.ofs := by
  obtain ⟨i, hi, rfl⟩ := mem_iff_getElem.mp hd
  rw [addr, ← dynHandle_eq hi, hs.getEntry_slot hi, dynOfs_eq hi]

theorem Sorted.addr_none (ho : ¬ Owned t h) : t.addr h = none := by
  rw [addr, getEntry_not_owned hs ho]

theorem Sorted.owned_of_addr {o : ℕ} (ha : t.addr h = some o) : Owned t h := by
  by_contra ho
  rw [hs.addr_none ho] at ha
  cases ha

/-- A slot that was just inserted holds no address, so no lookup changes. -/
theorem Sorted.addr_insertSlot {ndx : ℕ} (ha : t.InsertAt h ndx)
    (hd : t.numStatic < h) (hmm : h ∉ t.handles) : (t.insertSlot ndx h).addr = t.addr := by
  have hs' := hs.insertSlot ha hd
  have hdy : ∀ d, d ∈ (t.insertSlot ndx h).dynEntries ↔ d = ⟨h, 0⟩ ∨ d ∈ t.dynEntries :=
    fun d => mem_insertIdx ha.le
  funext k
  by_cases hst : k ≤ t.numStatic
  · exact addr_static_congr (by rfl) hst
  by_cases hkh : k = h
  · subst hkh
    have h0 := hs'.addr_mem ((hdy ⟨k, 0⟩).mpr (Or.inl rfl))
    rw [h0, hs.addr_none (not_or.mpr ⟨hst, hmm⟩)]
    rfl
  by_cases hmm' : k ∈ t.handles
  · obtain ⟨d, hd, rfl⟩ := List.mem_map.mp hmm'
    rw [hs.addr_mem hd, hs'.addr_mem ((hdy d).mpr (Or.inr hd))]
  · have hmm'' : k ∉ (t.insertSlot ndx h).handles := by
      rw [mem_handles_insertSlot ha]
      exact not_or.mpr ⟨hkh, hmm'⟩
    rw [hs.addr_none (not_or.mpr ⟨hst, hmm'⟩), hs'.addr_none (not_or.mpr ⟨hst, hmm''⟩)]

/-- Publishing an address changes the lookup of its handle only. -/
theorem Sorted.addr_setTableEntry {ofs : ℕ} (hof : ofs ≠ 0)
    (hsl : ∀ i, dynSlot = some i → i < t.dynEntries.length ∧ t.dynHandle i = h)
    (hse : t.setTableEntry h ofs dynSlot = some t') : t'.addr = update t.addr h (some ofs) := by
  obtain ⟨hn, hd⟩ := setTableEntry_slots (fun i hi => (hsl i hi).2) hse
  have hs' := hs.congr hn hd
  rw [setTableEntry] at hse
  split_ifs at hse with hsc hz
  · cases hse
    funext k
    by_cases hk0 : k = 0
    · have hne : k ≠ h := by omega
      rw [update_of_ne hne, hk0, addr_zero, addr_zero]
    by_cases hst : k ≤ t.numStatic
    · rw [addr_static hk0 (hn ▸ hst)]
      by_cases hkh : k = h
      · subst hkh
        have hlt : k - 1 < t.staticEntries.length := by
          rw [numStatic] at hst
          omega
        simp [hlt, getEntryAtOfs_pos hof]
      · rw [update_of_ne hkh, addr_static hk0 hst]
        have hne : h - 1 ≠ k - 1 := by omega
        simp [List.getElem?_set_ne hne]
    · have hne : k ≠ h := by omega
      rw [update_of_ne hne, addr, addr, getEntry_dynamic (by omega), getEntry_dynamic (by omega)]
      rfl
  · obtain ⟨i, rfl, rfl⟩ := map_eq_some_iff.mp hse
    obtain ⟨hi, hih⟩ := hsl i rfl
    funext k
    by_cases hkh : k = h
    · subst hkh
      rw [update_self, ← getEntryAtOfs_pos hof]
      exact hs'.addr_mem (mem_set hi _)
    rw [update_of_ne hkh]
    by_cases ho : Owned t k
    · rcases ho with hst | hmm
      · exact addr_static_congr (by rfl) hst
      · obtain ⟨j, hj, rfl⟩ := mem_handles_iff.mp hmm
        have hij : i ≠ j := by
          rintro rfl
          exact hkh hih
        have hg : t.dynEntries[j] ∈ t.dynEntries.set i ⟨h, ofs⟩ := by
          refine mem_iff_getElem.mpr ⟨j, by simpa using hj, ?_⟩
          rw [getElem_set_ne hij]
        rw [dynHandle_eq hj, hs.addr_mem (getElem_mem hj)]
        exact hs'.addr_mem hg
    · have ho' : ¬ Owned { t with dynEntries := t.dynEntries.set i ⟨h, ofs⟩ } k := by
        simpa only [Owned, hn, hd] using ho
      rw [hs.addr_none ho, hs'.addr_none ho']

end

/-- The bytes of the block are used consistently. -/
structure Memory (t : NVTable) : Prop where
  sorted : t.Sorted
  below : ∀ h ∈ t.handles, h < 2 ^ 16
  static_lt : t.numStatic < 2 ^ 8
  fits : t.used + t.ofsTableTop ≤ t.size
  size_le : t.size ≤ maxBytes
  live : ∀ h o, t.addr h = some o → ∃ e, t.entries o = some e
  inj : ∀ h k o, t.addr h = some o → t.addr k = some o → h = k
  bytes : ∀ o e, t.entries o = some e → e.footprint ≤ e.allocLen ∧ e.allocLen ≤ o ∧ o ≤ t.used
  apart : ∀ o o' e e', t.entries o = some e → t.entries o' = some e' → o < o' →
    o + e'.allocLen ≤ o'

/-- The gap is a distance inside the block, so its comparison as an unsigned number is the same. -/
theorem allocCheck_iff_of_fits (hf : t.used + t.ofsTableTop ≤ t.size)
    (hsz : t.size ≤ maxBytes) {n : ℕ} : t.allocCheck n = true ↔ (n : ℤ) ≤ t.freeGap := by
  have hg : t.freeGap % 2 ^ 64 = t.freeGap := by
    apply Int.emod_eq_of_lt
    · unfold freeGap
      omega
    · unfold freeGap
      unfold maxBytes at hsz
      omega
  rw [allocCheck, decide_eq_true_iff, hg]

theorem footprint_pos (e : NVEntry) : 0 < e.footprint := by
  unfold NVEntry.footprint directHdr indirectNameOfs
  split <;> omega

theorem setTableEntry_frame {ofs : ℕ} (hst : t.setTableEntry h ofs dynSlot = some t') :
    t'.size = t.size ∧ t'.used = t.used ∧ t'.entries = t.entries ∧
      t'.ofsTableTop = t.ofsTableTop := by
  rw [setTableEntry] at hst
  split_ifs at hst
  · cases hst
    exact ⟨rfl, rfl, rfl, by simp [ofsTableTop, numStatic]⟩
  · obtain ⟨i, rfl, rfl⟩ := map_eq_some_iff.mp hst
    exact ⟨rfl, rfl, rfl, by simp [ofsTableTop, numStatic]⟩

/-- The table with bytes taken at the bottom for an entry that no slot knows yet. -/
def appendEntry (t : NVTable) (e : NVEntry) : NVTable :=
  { t with
    used := t.used + e.allocLen
    entries := update t.entries (t.used + e.allocLen) (some e) }

theorem addr_appendEntry (t : NVTable) (e : NVEntry) : (t.appendEntry e).addr = t.addr :=
  addr_congr rfl rfl

theorem entryOf_eq_some :
    t.entryOf h = some e ↔ ∃ o, t.addr h = some o ∧ t.entries o = some e := bind_eq_some_iff

variable (hm : t.Memory)

include hm

theorem Memory.entryOf_eq_none : t.entryOf h = none ↔ t.addr h = none := by
  constructor
  · intro hn
    cases ha : t.addr h with
    | none => rfl
    | some o =>
      obtain ⟨e, he⟩ := hm.live h o ha
      simp [entryOf, ha, he] at hn
  · intro ha
    simp [entryOf, ha]

theorem Memory.allocCheck_iff {n : ℕ} : t.allocCheck n = true ↔ (n : ℤ) ≤ t.freeGap :=
  allocCheck_iff_of_fits hm.fits hm.size_le

/-- Handles of 16 bits leave room in the slot counter for one more. -/
theorem Memory.insertSafe (hh : h < 2 ^ 16) : InsertSafe t h := by
  intro hd hmm
  refine ⟨fun k hk => ?_, ?_⟩
  · rw [Nat.mod_eq_of_lt (hm.below k hk)]
    exact ⟨Iff.rfl, Iff.rfl⟩
  · have hn : (0 :: h :: t.handles).Nodup := by
      have hp : 0 ∉ t.handles := fun h0 => absurd (hm.sorted.dynamic 0 h0) (Nat.not_lt_zero _)
      have hnd : t.handles.Nodup := hm.sorted.increasing.imp ne_of_lt
      simp only [nodup_cons, mem_cons, not_or]
      exact ⟨⟨by omega, hp⟩, hmm, hnd⟩
    have hsb : (0 :: h :: t.handles) ⊆ List.range (2 ^ 16) := by
      intro k hk
      simp only [mem_cons] at hk
      rw [mem_range]
      rcases hk with rfl | rfl | hk
      · norm_num
      · exact hh
      · exact hm.below k hk
    have hl := (subperm_of_subset hn hsb).length_le
    simp only [length_cons, length_range, length_handles] at hl
    omega

theorem Memory.overwrite {o : ℕ} (e' : NVEntry) (ha : t.addr h = some o)
    (he : t.entries o = some e) (hl : e'.allocLen = e.allocLen)
    (hft : e'.footprint ≤ e'.allocLen) :
    ∃ t', t.writeEntry o e' = some t' ∧ t'.Memory ∧ t'.addr = t.addr ∧
      t'.entryOf = update t.entryOf h (some e') ∧ t'.numStatic = t.numStatic ∧
      t'.handles = t.handles ∧ t'.freeGap = t.freeGap ∧ t'.size = t.size := by
  have had : ({ t with entries := update t.entries o (some e') } : NVTable).addr = t.addr :=
    addr_congr rfl rfl
  refine ⟨_, writeEntry_eq_some.mpr ⟨hft, rfl⟩, ?_, had, ?_, rfl, rfl, rfl, rfl⟩
  · refine ⟨hm.sorted.congr rfl rfl, hm.below, hm.static_lt, hm.fits, hm.size_le, ?_, ?_, ?_, ?_⟩
    · intro k p hp
      by_cases hpo : p = o
      · exact ⟨e', by simp [hpo]⟩
      · obtain ⟨f, hf⟩ := hm.live k p hp
        exact ⟨f, by simpa [hpo] using hf⟩
    · exact hm.inj
    · intro p f hf
      by_cases hpo : p = o
      · simp only [hpo, update_self, Option.some.injEq] at hf
        subst hf
        have hb := hm.bytes o e he
        exact ⟨hft, by omega, by simpa [hpo] using hb.2.2⟩
      · exact hm.bytes p f (by simpa [hpo] using hf)
    · intro p q f g hf hg hlt
      have ho : ∀ x f, update t.entries o (some e') x = some f →
          ∃ f', t.entries x = some f' ∧ f'.allocLen = f.allocLen := by
        intro x f hx
        by_cases hxo : x = o
        · simp only [hxo, update_self, Option.some.injEq] at hx
          exact ⟨e, by rw [hxo, he], by rw [← hx, hl]⟩
        · exact ⟨f, by simpa [hxo] using hx, rfl⟩
      obtain ⟨f', hf', -⟩ := ho p f hf
      obtain ⟨g', hg', hgl⟩ := ho q g hg
      have := hm.apart p q f' g' hf' hg' hlt
      omega
  · funext k
    simp only [entryOf, had]
    by_cases hk : k = h
    · simp [hk, ha]
    · rw [update_of_ne hk]
      cases hp : t.addr k with
      | none => simp [entryOf, hp]
      | some p =>
        have hpo : p ≠ o := by
          rintro rfl
          exact hk (hm.inj k h p hp ha)
        simp [entryOf, hp, hpo]

theorem Memory.appendEntry_spec (hr : (e.allocLen : ℤ) ≤ t.freeGap)
    (hft : e.footprint ≤ e.allocLen) :
    (t.appendEntry e).Memory ∧ (t.appendEntry e).entryOf = t.entryOf := by
  have hps := footprint_pos e
  have ha := t.addr_appendEntry e
  have ht : (t.appendEntry e).ofsTableTop = t.ofsTableTop := rfl
  have hu : (t.appendEntry e).used = t.used + e.allocLen := rfl
  have ho : ∀ {x f}, t.entries x = some f → (t.appendEntry e).entries x = some f := by
    intro x f hx
    have := (hm.bytes x f hx).2.2
    have hne : x ≠ t.used + e.allocLen := by omega
    simpa [appendEntry, hne] using hx
  have hn : ∀ {x f}, (t.appendEntry e).entries x = some f →
      t.entries x = some f ∨ x = t.used + e.allocLen ∧ f = e := by
    intro x f hx
    by_cases hne : x = t.used + e.allocLen
    · simp only [appendEntry, hne, update_self, Option.some.injEq] at hx
      exact Or.inr ⟨hne, hx.symm⟩
    · exact Or.inl (by simpa [appendEntry, hne] using hx)
  refine ⟨⟨hm.sorted.congr rfl rfl, hm.below, hm.static_lt, ?_, hm.size_le, ?_, ?_, ?_, ?_⟩, ?_⟩
  · rw [freeGap] at hr
    have hsz : (t.appendEntry e).size = t.size := rfl
    omega
  · intro k p hp
    obtain ⟨f, hf⟩ := hm.live k p hp
    exact ⟨f, ho hf⟩
  · exact hm.inj
  · intro p f hf
    rcases hn hf with hf | ⟨rfl, rfl⟩
    · obtain ⟨h1, h2, h3⟩ := hm.bytes p f hf
      exact ⟨h1, h2, by omega⟩
    · exact ⟨hft, by omega, le_rfl⟩
  · intro p q f g hf hg hlt
    -- the new entry is the lowest one
    rcases hn hf with hf' | ⟨hp, -⟩ <;> rcases hn hg with hg' | ⟨hq, rfl⟩
    · exact hm.apart p q f g hf' hg' hlt
    · have := (hm.bytes p f hf').2.2
      omega
    · have := (hm.bytes q g hg').2.2
      omega
    · omega
  · funext k
    simp only [entryOf, ha]
    cases hp : t.addr k with
    | none => rfl
    | some p =>
      obtain ⟨f, hf⟩ := hm.live k p hp
      simp [ho hf, hf]

theorem Memory.publish {o : ℕ} (hf : ∀ k, t.addr k ≠ some o) (he : t.entries o = some e)
    (hsl : ∀ i, dynSlot = some i → i < t.dynEntries.length ∧ t.dynHandle i = h)
    (hst : t.setTableEntry h o dynSlot = some t') :
    t'.Memory ∧ t'.addr = update t.addr h (some o) ∧ t'.entryOf = update t.entryOf h (some e) := by
  obtain ⟨hn, hd⟩ := setTableEntry_slots (fun i hi => (hsl i hi).2) hst
  obtain ⟨hsz, hu, hen, ht⟩ := setTableEntry_frame hst
  have hb := hm.bytes o e he
  have hps := footprint_pos e
  have ha := hm.sorted.addr_setTableEntry (by omega) hsl hst
  refine ⟨⟨hm.sorted.congr hn hd, hd ▸ hm.below, hn ▸ hm.static_lt, ?_, hsz ▸ hm.size_le,
    ?_, ?_, ?_, ?_⟩, ha, ?_⟩
  · rw [hu, ht, hsz]
    exact hm.fits
  · intro k p hp
    rw [hen]
    by_cases hk : k = h
    · simp only [ha, hk, update_self, Option.some.injEq] at hp
      exact ⟨e, hp ▸ he⟩
    · exact hm.live k p (by simpa [ha, hk] using hp)
  · intro k k' p hp hp'
    rw [ha] at hp hp'
    by_cases hk : k = h <;> by_cases hk' : k' = h
    · rw [hk, hk']
    · rw [hk, update_self] at hp
      rw [update_of_ne hk', ← hp] at hp'
      exact absurd hp' (hf k')
    · rw [hk', update_self] at hp'
      rw [update_of_ne hk, ← hp'] at hp
      exact absurd hp (hf k)
    · rw [update_of_ne hk] at hp
      rw [update_of_ne hk'] at hp'
      exact hm.inj k k' p hp hp'
  · rw [hen, hu]
    exact hm.bytes
  · rw [hen]
    exact hm.apart
  · funext k
    simp only [entryOf, ha, hen]
    by_cases hk : k = h
    · simp [hk, he]
    · simp [entryOf, hk]

/-! ### Reserving a slot and storing an entry -/

/-- Bytes the slot array grows by when `h` is stored. -/
def slotNeed (t : NVTable) (h : ℕ) : ℕ := if h ≤ t.numStatic ∨ h ∈ t.handles then 0 else slotSize

omit hm in
theorem slotNeed_owned (ho : Owned t h) : t.slotNeed h = 0 := if_pos ho

omit hm in
theorem slotNeed_not_owned (ho : ¬ Owned t h) : t.slotNeed h = slotSize := if_neg ho

theorem Memory.insertSlot_spec {ndx : ℕ} (ha : t.InsertAt h ndx) (hd : t.numStatic < h)
    (hmm : h ∉ t.handles) (hh : h < 2 ^ 16) (hr : (slotSize : ℤ) ≤ t.freeGap) :
    (t.insertSlot ndx h).Memory := by
  have had := hm.sorted.addr_insertSlot ha hd hmm
  refine ⟨hm.sorted.insertSlot ha hd, ?_, hm.static_lt, ?_, hm.size_le, ?_, ?_, hm.bytes, hm.apart⟩
  · intro k hk
    rcases (mem_handles_insertSlot ha).mp hk with rfl | hk
    · exact hh
    · exact hm.below k hk
  · have hl := length_insertSlot ha
    have hn : (t.insertSlot ndx h).numStatic = t.numStatic := rfl
    have hsz : (t.insertSlot ndx h).size = t.size := rfl
    have hu : (t.insertSlot ndx h).used = t.used := rfl
    rw [freeGap] at hr
    unfold ofsTableTop at hr ⊢
    unfold slotSize at *
    omega
  · rw [had]
    exact hm.live
  · rw [had]
    exact hm.inj

omit hm in
theorem freeGap_insertSlot {ndx : ℕ} (ha : t.InsertAt h ndx) :
    (t.insertSlot ndx h).freeGap = t.freeGap - slotSize := by
  have hl := length_insertSlot ha
  have hn : (t.insertSlot ndx h).numStatic = t.numStatic := rfl
  have hsz : (t.insertSlot ndx h).size = t.size := rfl
  have hu : (t.insertSlot ndx h).used = t.used := rfl
  unfold freeGap ofsTableTop
  rw [hl, hn, hsz, hu]
  push_cast
  ring

/-- A reserved slot: the handle owns one, which no lookup sees yet. -/
structure Reserved (t : NVTable) (h : ℕ) (t' : NVTable) (slot : Option ℕ) : Prop where
  memory : t'.Memory
  addr : t'.addr = t.addr
  entries : t'.entries = t.entries
  size : t'.size = t.size
  freeGap : t'.freeGap = t.freeGap - t.slotNeed h
  step : SlotStep h t t'
  owned : Owned t' h
  slot_eq : ∀ i, slot = some i → i < t'.dynEntries.length ∧ t'.dynHandle i = h
  slot_some : t'.numStatic < h → slot ≠ none

theorem Memory.reserveTableEntry_spec (hh : h < 2 ^ 16) :
    (∃ t' slot, t.reserveTableEntry h (t.getEntry h).2 = (true, t', slot) ∧ Reserved t h t' slot) ∨
      t.reserveTableEntry h (t.getEntry h).2 = (false, t, none) ∧ t.freeGap < t.slotNeed h := by
  have hs := hm.sorted
  by_cases ho : Owned t h
  · have hsk : (t.getEntry h).2 ≠ none ∨ h ≤ t.numStatic := by
      rcases ho with ho | ho
      · exact Or.inr ho
      · exact Or.inl fun hn => (hs.getEntry_snd (hs.dynamic h ho)).mp hn ho
    left
    refine ⟨t, _, reserveTableEntry_skip hsk, hm, rfl, rfl, rfl, by simp [slotNeed_owned ho],
      .of_eq hs rfl rfl, ho, ?_, fun hd => hsk.resolve_right (not_le.mpr hd)⟩
    intro i hi
    have hd : t.numStatic < h := by
      by_contra hst
      by_cases h0 : h = 0
      · simp [h0, getEntry_zero] at hi
      · simp [getEntry_static h0 (not_lt.mp hst)] at hi
    obtain ⟨j, hj, rfl⟩ := mem_handles_iff.mp (ho.resolve_left (not_le.mpr hd))
    rw [hs.getEntry_slot hj] at hi
    cases hi
    exact ⟨hj, rfl⟩
  · obtain ⟨hd, hmm⟩ := not_or.mp ho
    rw [not_le] at hd
    rw [(hs.getEntry_snd hd).mpr hmm, slotNeed_not_owned ho]
    cases hc : t.allocCheck slotSize with
    | false =>
      right
      refine ⟨reserveTableEntry_full rfl hd hc, ?_⟩
      rw [← not_le, ← hm.allocCheck_iff, hc]
      exact Bool.false_ne_true
    | true =>
      left
      obtain ⟨ndx, ha, he⟩ := reserveTableEntry_insert hs hd hmm (hm.insertSafe hh hd hmm) hc
      refine ⟨_, _, he, hm.insertSlot_spec ha hd hmm hh (hm.allocCheck_iff.mp hc),
        hs.addr_insertSlot ha hd hmm, rfl, rfl, ?_, ?_, ?_, ?_, by simp⟩
      · rw [freeGap_insertSlot ha, slotNeed_not_owned ho]
      · exact ⟨rfl, hs.insertSlot ha hd, Or.inr ⟨hd, hmm, fun k => mem_handles_insertSlot ha⟩⟩
      · exact Or.inr ((mem_handles_insertSlot ha).mpr (Or.inl rfl))
      · rintro i ⟨⟩
        have hsl := dynEntries_insertSlot_self ha
        refine ⟨?_, by simp [dynHandle, hsl]⟩
        rw [length_insertSlot ha]
        have := ha.le
        omega

/-- Storing `e` under `h` needs `need` bytes: what the call leaves behind. -/
structure Outcome (t : NVTable) (h : ℕ) (e : NVEntry) (need : ℕ) (r : AddResult) : Prop where
  memory : r.table.Memory
  size : r.table.size = t.size
  step : SlotStep h t r.table
  addr : ∀ k ≠ h, r.table.addr k = t.addr k
  stored : r.ok = true → r.table.entryOf = update t.entryOf h (some e) ∧
    r.table.freeGap = t.freeGap - need
  failed : r.ok = false → r.table.entryOf = t.entryOf ∧ t.freeGap < need

theorem Memory.storeNew_spec (h0 : h ≠ 0) (hh : h < 2 ^ 16) (allocSize : ℕ) (body : NVBody)
    (new : Bool)
    (hft : (⟨false, bound allocSize, body⟩ : NVEntry).footprint ≤ bound allocSize) :
    ∃ r, t.storeNew h (t.getEntry h).2 allocSize body new = some r ∧ r.newEntry = new ∧
      Outcome t h ⟨false, bound allocSize, body⟩ (t.slotNeed h + bound allocSize) r := by
  rcases hm.reserveTableEntry_spec hh with ⟨t1, slot, he, hrs⟩ | ⟨he, hg⟩
  · have hm1 := hrs.memory
    have hen : t1.entryOf = t.entryOf := by
      funext k
      simp only [entryOf, hrs.addr, hrs.entries]
    cases hc : t1.allocCheck (bound allocSize) with
    | false =>
      refine ⟨⟨false, t1, new⟩, by simp [storeNew, he, allocValue, hc], rfl, hm1, hrs.size,
        hrs.step,
        fun k _ => by rw [hrs.addr], by simp, fun _ => ⟨hen, ?_⟩⟩
      have hlt := (hm1.allocCheck_iff (n := bound allocSize)).not.mp (by simp [hc])
      rw [hrs.freeGap] at hlt
      omega
    | true =>
      have hr := hm1.allocCheck_iff.mp hc
      let e : NVEntry := ⟨false, bound allocSize, body⟩
      obtain ⟨hm2, hent2⟩ := hm1.appendEntry_spec hr hft
      have hfr : ∀ k, (t1.appendEntry e).addr k ≠ some (t1.used + bound allocSize) := by
        intro k hk
        obtain ⟨f, hf⟩ := hm1.live k _ hk
        have := (hm1.bytes _ f hf).2.2
        have := footprint_pos e
        have : e.footprint ≤ bound allocSize := hft
        omega
      have hse : ∃ t4, (t1.appendEntry e).setTableEntry h (t1.used + bound allocSize) slot =
          some t4 := by
        rw [setTableEntry, if_neg h0]
        by_cases hst : h ≤ (t1.appendEntry e).numStatic
        · exact ⟨_, if_pos hst⟩
        · rw [if_neg hst]
          obtain ⟨i, hi⟩ := ne_none_iff_exists'.mp (hrs.slot_some (not_le.mp hst))
          exact ⟨_, by rw [hi]; rfl⟩
      obtain ⟨t4, ht4⟩ := hse
      obtain ⟨hm4, haddr4, hent4⟩ := hm2.publish (e := e) hfr (by simp [appendEntry, e])
        hrs.slot_eq ht4
      obtain ⟨hn4, hd4⟩ := setTableEntry_slots (t := t1.appendEntry e)
        (fun i hi => (hrs.slot_eq i hi).2) ht4
      obtain ⟨hsize4, hused4, -, htop4⟩ := setTableEntry_frame ht4
      refine ⟨⟨true, t4, new⟩, ?_, rfl, hm4, hsize4.trans hrs.size, hrs.step.trans_eq hn4 hd4, ?_,
        fun _ => ⟨?_, ?_⟩,
        by simp⟩
      · have hw : ({ t1 with used := t1.used + bound allocSize } : NVTable).writeEntry
            (t1.used + bound allocSize) e = some (t1.appendEntry e) := if_pos hft
        simp only [storeNew, he, allocValue, hc, if_true]
        rw [hw, bind_some, ht4]
        rfl
      · intro k hk
        rw [haddr4, update_of_ne hk, addr_appendEntry, hrs.addr]
      · rw [hent4, hent2, hen]
      · have hgap1 := hrs.freeGap
        have hu : (t1.appendEntry e).used = t1.used + bound allocSize := rfl
        have hsz : (t1.appendEntry e).size = t1.size := rfl
        have ht : (t1.appendEntry e).ofsTableTop = t1.ofsTableTop := rfl
        unfold NVTable.freeGap at hgap1 ⊢
        rw [hsize4, hused4, htop4, ht]
        omega
  · refine ⟨⟨false, t, new⟩, by simp [storeNew, he], rfl, hm, rfl, .of_eq hm.sorted rfl rfl,
      fun k _ => rfl, by simp, fun _ => ⟨rfl, ?_⟩⟩
    omega

end NVTable

end SyslogNg.NvTable
