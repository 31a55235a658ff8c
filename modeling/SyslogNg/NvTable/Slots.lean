import SyslogNg.NvTable.Store

/-!
# NVTable: the slot arrays

Lookup and insertion are two separately written binary searches over the dynamic
slots. Lookup compares whole handles, insertion compares through a `guint16`. On a
sorted array lookup is exact; an insertion keeps the array sorted when the narrowed
comparisons agree with the real ones and the slot counter does not wrap.
-/
namespace SyslogNg.NvTable

open BinarySearch List

namespace NVTable

def handles (t : NVTable) : List ℕ := t.dynEntries.map NVDynValue.handle

/-- Strictly increasing dynamic slots, all above the static handles. -/
structure Sorted (t : NVTable) : Prop where
  increasing : t.handles.Pairwise (· < ·)
  dynamic : ∀ h ∈ t.handles, t.numStatic < h

/-- A slot for `h` can be inserted at the right place: no slot looks different through
16 bits, and the 16-bit slot counter has room. -/
structure InsertOk (t : NVTable) (h : ℕ) : Prop where
  agree : ∀ k ∈ t.handles, (k % 2 ^ 16 = h ↔ k = h) ∧ (h < k % 2 ^ 16 ↔ h < k)
  room : t.dynEntries.length + 1 < 2 ^ 16

variable {t : NVTable} {h : ℕ} {t' : NVTable} {dynSlot : Option ℕ}

@[simp] theorem length_handles : t.handles.length = t.dynEntries.length := by simp [handles]

theorem dynHandle_eq {i : ℕ} (hi : i < t.dynEntries.length) :
    t.dynHandle i = t.dynEntries[i].handle := by
  simp [dynHandle, hi]

theorem dynOfs_eq {i : ℕ} (hi : i < t.dynEntries.length) : t.dynOfs i = t.dynEntries[i].ofs := by
  simp [dynOfs, hi]

theorem mem_handles_iff : h ∈ t.handles ↔ ∃ i < t.dynEntries.length, t.dynHandle i = h := by
  rw [handles, List.mem_map]
  constructor
  · rintro ⟨d, hd, rfl⟩
    obtain ⟨i, hi, rfl⟩ := mem_iff_getElem.mp hd
    exact ⟨i, hi, dynHandle_eq hi⟩
  · rintro ⟨i, hi, rfl⟩
    exact ⟨_, getElem_mem hi, (dynHandle_eq hi).symm⟩

theorem Sorted.keys (hs : t.Sorted) : Increasing t.dynHandle t.dynEntries.length := by
  intro i j hij hj
  have h := pairwise_iff_getElem.mp hs.increasing i j (by simp; omega) (by simpa) hij
  simpa [handles, dynHandle_eq (hij.trans hj), dynHandle_eq hj] using h

theorem Sorted.slot_unique (hs : t.Sorted) {i j : ℕ} (hi : i < t.dynEntries.length)
    (hj : j < t.dynEntries.length) (he : t.dynHandle i = t.dynHandle j) : i = j := by
  rcases lt_trichotomy i j with hlt | rfl | hlt
  · have := hs.keys i j hlt hj
    omega
  · rfl
  · have := hs.keys j i hlt hi
    omega

theorem Sorted.getEntrySlow_slot (hs : t.Sorted) {i : ℕ} (hi : i < t.dynEntries.length) :
    t.getEntrySlow (t.dynHandle i) = (getEntryAtOfs (t.dynOfs i), some i) := by
  simp [getEntrySlow, search_all_found hs.keys hi rfl]

theorem Sorted.getEntrySlow_none (hs : t.Sorted) (hh : h ∉ t.handles) :
    t.getEntrySlow h = (none, none) := by
  have hc := search_all_correct (x := h) hs.keys
  cases hr : search t.dynHandle h t.dynEntries.length 0 ((t.dynEntries.length : ℤ) - 1) with
  | found m =>
    rw [hr] at hc
    exact absurd (mem_handles_iff.mpr ⟨m, hc⟩) hh
  | missing l => simp [getEntrySlow, hr]

theorem getEntry_zero : t.getEntry 0 = (none, none) := by simp [getEntry]

theorem getEntry_static (h0 : h ≠ 0) (hs : h ≤ t.numStatic) :
    t.getEntry h = (getEntryAtOfs (t.staticEntries.getD (h - 1) 0), none) := by
  simp [getEntry, h0, hs]

theorem getEntry_dynamic (hd : t.numStatic < h) : t.getEntry h = t.getEntrySlow h := by
  rw [getEntry, if_neg (by omega), if_neg (by omega)]

theorem Sorted.getEntry_slot (hs : t.Sorted) {i : ℕ} (hi : i < t.dynEntries.length) :
    t.getEntry (t.dynHandle i) = (getEntryAtOfs (t.dynOfs i), some i) := by
  rw [getEntry_dynamic (hs.dynamic _ (mem_handles_iff.mpr ⟨i, hi, rfl⟩)), hs.getEntrySlow_slot hi]

theorem Sorted.getEntry_none (hs : t.Sorted) (hd : t.numStatic < h) (hh : h ∉ t.handles) :
    t.getEntry h = (none, none) := by
  rw [getEntry_dynamic hd, hs.getEntrySlow_none hh]

/-- A sorted table finds the slot of a dynamic handle exactly when it has one. -/
theorem Sorted.getEntry_snd (hs : t.Sorted) (hd : t.numStatic < h) :
    (t.getEntry h).2 = none ↔ h ∉ t.handles := by
  constructor
  · intro hn hm
    obtain ⟨i, hi, rfl⟩ := mem_handles_iff.mp hm
    simp [hs.getEntry_slot hi] at hn
  · intro hh
    rw [hs.getEntry_none hd hh]

/-- Two tables with the same slots find the same addresses. -/
theorem getEntry_congr (hs : t'.staticEntries = t.staticEntries)
    (hd : t'.dynEntries = t.dynEntries) (h : ℕ) : t'.getEntry h = t.getEntry h := by
  have hk : t'.dynHandle = t.dynHandle := by
    funext i
    simp [dynHandle, hd]
  simp [getEntry, getEntrySlow, numStatic, dynOfs, hs, hd, hk]

/-! ### Insertion -/

theorem InsertOk.search_eq (hok : t.InsertOk h) :
    search (fun i => t.dynHandle i % 2 ^ 16) h t.dynEntries.length 0
        ((t.dynEntries.length : ℤ) - 1) =
      search t.dynHandle h t.dynEntries.length 0 ((t.dynEntries.length : ℤ) - 1) := by
  apply search_congr (n := t.dynEntries.length) _ _ _ _ (by omega) (by omega)
  intro i hi
  exact hok.agree _ (mem_handles_iff.mpr ⟨i, hi, rfl⟩)

/-- The table with one more, still empty, slot. -/
def insertSlot (t : NVTable) (ndx : ℕ) (h : ℕ) : NVTable :=
  { t with dynEntries := t.dynEntries.insertIdx ndx ⟨h, 0⟩ }

/-- Where a missing handle belongs among the sorted slots. -/
structure InsertAt (t : NVTable) (h : ℕ) (ndx : ℕ) : Prop where
  le : ndx ≤ t.dynEntries.length
  below : ∀ i < ndx, t.dynHandle i < h
  above : ∀ i, ndx ≤ i → i < t.dynEntries.length → h < t.dynHandle i

theorem reserveTableEntry_insert (hs : t.Sorted) (hd : t.numStatic < h) (hh : h ∉ t.handles)
    (hok : t.InsertOk h) (hc : t.allocCheck slotSize = true) : ∃ ndx, t.InsertAt h ndx ∧
      t.reserveTableEntry h none = (true, t.insertSlot ndx h, some ndx) := by
  have hcr := search_all_correct (x := h) hs.keys
  cases hr : search t.dynHandle h t.dynEntries.length 0 ((t.dynEntries.length : ℤ) - 1) with
  | found m =>
    rw [hr] at hcr
    exact absurd (mem_handles_iff.mpr ⟨m, hcr⟩) hh
  | missing ndx =>
    rw [hr] at hcr
    obtain ⟨hle, hl, hhg⟩ := hcr
    refine ⟨ndx, ⟨hle, hl, hhg⟩, ?_⟩
    have hln := length_insertIdx_of_le_length hle (⟨h, 0⟩ : NVDynValue)
    have hrm := hok.room
    simp only [reserveTableEntry, Option.isNone_none, hd, and_self, if_true, hc, hok.search_eq,
      hr, insertSlot]
    rw [take_of_length_le (by omega)]

theorem reserveTableEntry_skip
    (hk : dynSlot ≠ none ∨ h ≤ t.numStatic) :
    t.reserveTableEntry h dynSlot = (true, t, dynSlot) := by
  rw [reserveTableEntry, if_neg]
  rintro ⟨hn, hlt⟩
  rcases hk with hk | hk
  · exact hk (Option.isNone_iff_eq_none.mp hn)
  · omega

theorem reserveTableEntry_full (hk : dynSlot = none) (hd : t.numStatic < h)
    (hc : t.allocCheck slotSize = false) : t.reserveTableEntry h dynSlot = (false, t, dynSlot) := by
  simp [reserveTableEntry, hk, hd, hc]

section Insert

variable {ndx : ℕ} (ha : t.InsertAt h ndx)

theorem handles_insertSlot : (t.insertSlot ndx h).handles = t.handles.insertIdx ndx h := by
  simp [handles, insertSlot, map_insertIdx]

include ha

theorem mem_handles_insertSlot {k : ℕ} :
    k ∈ (t.insertSlot ndx h).handles ↔ k = h ∨ k ∈ t.handles := by
  rw [handles_insertSlot, mem_insertIdx (by simpa using ha.le)]

theorem length_insertSlot : (t.insertSlot ndx h).dynEntries.length = t.dynEntries.length + 1 :=
  length_insertIdx_of_le_length ha.le _

theorem dynEntries_insertSlot_self : (t.insertSlot ndx h).dynEntries[ndx]? = some ⟨h, 0⟩ := by
  simp [insertSlot, List.getElem?_insertIdx_self, ha.le]

theorem Sorted.insertSlot (hs : t.Sorted) (hd : t.numStatic < h) : (t.insertSlot ndx h).Sorted where
  increasing := by
    rw [handles_insertSlot, pairwise_iff_getElem]
    intro i j hi hj hij
    have hle := ha.le
    have hl := length_insertIdx_of_le_length (by simpa using hle : ndx ≤ t.handles.length) h
    have hky : ∀ k (hk : k < t.handles.length), t.handles[k] = t.dynHandle k := by
      intro k hk
      simp [handles, dynHandle_eq (by simpa using hk)]
    rw [hl, length_handles] at hi hj
    rw [getElem_insertIdx, getElem_insertIdx]
    -- positions of the two slots relative to the new one
    rcases lt_trichotomy i ndx with hi' | hi' | hi' <;>
      rcases lt_trichotomy j ndx with hj' | hj' | hj' <;>
      first
      | omega
      | skip
    · simp only [hi', hj', hky]
      exact hs.keys i j hij (by omega)
    · subst hj'
      simp only [hi', hky, lt_irrefl]
      exact ha.below i hi'
    · simp only [hi', hky, dif_neg (by omega : ¬ j < ndx), dif_neg (by omega : ¬ j = ndx)]
      exact hs.keys i (j - 1) (by omega) (by omega)
    · subst hi'
      simp only [lt_irrefl, hky,
        dif_neg (by omega : ¬ j < i), dif_neg (by omega : ¬ j = i)]
      exact ha.above (j - 1) (by omega) (by omega)
    · simp only [hky, dif_neg (by omega : ¬ i < ndx), dif_neg (by omega : ¬ i = ndx),
        dif_neg (by omega : ¬ j < ndx), dif_neg (by omega : ¬ j = ndx)]
      exact hs.keys (i - 1) (j - 1) (by omega) (by omega)
  dynamic := by
    intro k hk
    rcases (mem_handles_insertSlot ha).mp hk with rfl | hk
    · exact hd
    · exact hs.dynamic k hk

end Insert

/-! ### The other parts of a store -/

theorem numStatic_congr (hs : t'.staticEntries = t.staticEntries) :
    t'.numStatic = t.numStatic := congrArg List.length hs

theorem handles_congr (hd : t'.dynEntries = t.dynEntries) :
    t'.handles = t.handles := congrArg (List.map NVDynValue.handle) hd

theorem Sorted.congr (hs : t.Sorted) (hn : t'.numStatic = t.numStatic)
    (hd : t'.handles = t.handles) : t'.Sorted := by
  refine ⟨hd ▸ hs.increasing, ?_⟩
  rw [hd, hn]
  exact hs.dynamic

theorem writeEntry_eq_some {ofs : ℕ} {e : NVEntry} :
    t.writeEntry ofs e = some t' ↔ e.footprint ≤ e.allocLen ∧
      { t with entries := Function.update t.entries ofs (some e) } = t' := by
  simp [writeEntry]

/-- Publishing an address changes no handle when the slot is the handle's own. -/
theorem setTableEntry_slots {ofs : ℕ} (hs : ∀ i, dynSlot = some i → t.dynHandle i = h)
    (hse : t.setTableEntry h ofs dynSlot = some t') :
    t'.numStatic = t.numStatic ∧ t'.handles = t.handles := by
  rw [setTableEntry] at hse
  split_ifs at hse with hst hz
  · cases hse
    exact ⟨by simp [numStatic], rfl⟩
  · obtain ⟨i, rfl, rfl⟩ := Option.map_eq_some_iff.mp hse
    refine ⟨rfl, ?_⟩
    simp only [handles, map_set]
    by_cases hi : i < t.dynEntries.length
    · have hk := hs i rfl
      rw [dynHandle_eq hi] at hk
      have hsl := @set_getElem_self _ (t.dynEntries.map NVDynValue.handle) i (by simpa using hi)
      rwa [getElem_map, hk] at hsl
    · exact set_eq_of_length_le (by simpa using hi)

end NVTable
end SyslogNg.NvTable
