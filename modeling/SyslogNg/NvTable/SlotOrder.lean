import SyslogNg.NvTable.Slots
import SyslogNg.NvTable.Runs

/-!
# NVTable: slots stay sorted and unique

Only the outermost set can insert a slot: the sets made while referrers are turned
into direct entries work on handles that own one. The ordering is therefore preserved
by every history whose insertions agree with the 16-bit comparison.
-/
namespace SyslogNg.NvTable

open NVTable Option

structure SlotStep (h : ℕ) (t t' : NVTable) : Prop where
  numStatic : t'.numStatic = t.numStatic
  sorted : t'.Sorted
  handles : t'.handles = t.handles ∨
    t.numStatic < h ∧ h ∉ t.handles ∧ ∀ k, k ∈ t'.handles ↔ k = h ∨ k ∈ t.handles

/-- A slot is inserted only where insertion is safe. -/
def InsertSafe (t : NVTable) (h : ℕ) : Prop :=
  t.numStatic < h → h ∉ t.handles → t.InsertOk h

variable {t t' : NVTable} {h : ℕ} {r : AddResult} {name : NVName} {slice : NVReferencedSlice}
  {new : Bool}

theorem SlotStep.of_eq (hs : t.Sorted) (hn : t'.numStatic = t.numStatic)
    (hd : t'.handles = t.handles) : SlotStep h t t' :=
  ⟨hn, hs.congr hn hd, Or.inl hd⟩

theorem SlotStep.trans_eq {t'' : NVTable} (hst : SlotStep h t t')
    (hn : t''.numStatic = t'.numStatic) (hd : t''.handles = t'.handles) : SlotStep h t t'' where
  numStatic := hn.trans hst.numStatic
  sorted := hst.sorted.congr hn hd
  handles := by simpa only [hd] using hst.handles

theorem SlotStep.eq_trans {t'' : NVTable} (hn : t'.numStatic = t.numStatic)
    (hd : t'.handles = t.handles) (hst : SlotStep h t' t'') : SlotStep h t t'' where
  numStatic := hst.numStatic.trans hn
  sorted := hst.sorted
  handles := by simpa only [hn, hd] using hst.handles

theorem InsertSafe.congr (hok : InsertSafe t h)
    (hn : t'.numStatic = t.numStatic) (hd : t'.handles = t.handles) : InsertSafe t' h := by
  intro hlt hm
  obtain ⟨ha, hr⟩ := hok (hn ▸ hlt) (hd ▸ hm)
  rw [← length_handles, ← hd, length_handles] at hr
  exact ⟨hd ▸ ha, hr⟩

theorem SlotStep.mono (hst : SlotStep h t t') {k : ℕ} (hk : k ∈ t.handles) : k ∈ t'.handles := by
  rcases hst.handles with he | ⟨-, -, he⟩
  · rwa [he]
  · exact (he k).mpr (Or.inr hk)

/-- The slot that comes with a lookup belongs to the looked up handle. -/
theorem getEntry_slot_handle (hs : t.Sorted) {h i : ℕ}
    (hi : (t.getEntry h).2 = some i) : t.dynHandle i = h := by
  by_cases h0 : h = 0
  · simp [h0, getEntry_zero] at hi
  by_cases hst : h ≤ t.numStatic
  · simp [getEntry_static h0 hst] at hi
  by_cases hm : h ∈ t.handles
  · obtain ⟨j, hj, rfl⟩ := mem_handles_iff.mp hm
    rw [hs.getEntry_slot hj] at hi
    cases hi
    rfl
  · simp [hs.getEntry_none (by omega) hm] at hi

def Owned (t : NVTable) (h : ℕ) : Prop := h ≤ t.numStatic ∨ h ∈ t.handles

theorem SlotStep.owned (hst : SlotStep h t t') {k : ℕ} (hk : Owned t k) : Owned t' k := by
  rcases hk with hk | hk
  · exact Or.inl (hst.numStatic ▸ hk)
  · exact Or.inr (hst.mono hk)

/-- Reserving the slot of `h` for the slot pointer its lookup returned. -/
theorem reserveTableEntry_slotStep (hs : t.Sorted) (hok : InsertSafe t h)
    {ok : Bool} {slot : Option ℕ} (hr : t.reserveTableEntry h (t.getEntry h).2 = (ok, t', slot)) :
    SlotStep h t t' ∧ (∀ i, slot = some i → t'.dynHandle i = h) ∧ (ok = true → Owned t' h) := by
  by_cases ho : Owned t h
  · have hsk : (t.getEntry h).2 ≠ none ∨ h ≤ t.numStatic := by
      rcases ho with ho | ho
      · exact Or.inr ho
      · refine Or.inl fun hn => ?_
        exact (hs.getEntry_snd (hs.dynamic h ho)).mp hn ho
    rw [reserveTableEntry_skip hsk] at hr
    cases hr
    exact ⟨.of_eq hs rfl rfl, fun i hi => getEntry_slot_handle hs hi, fun _ => ho⟩
  · obtain ⟨hd, hm⟩ := not_or.mp ho
    rw [not_le] at hd
    rw [(hs.getEntry_snd hd).mpr hm] at hr
    cases hc : t.allocCheck slotSize with
    | false =>
      rw [reserveTableEntry_full rfl hd hc] at hr
      cases hr
      exact ⟨.of_eq hs rfl rfl, by simp, by simp⟩
    | true =>
      obtain ⟨ndx, ha, he⟩ := reserveTableEntry_insert hs hd hm (hok hd hm) hc
      rw [he] at hr
      cases hr
      refine ⟨⟨rfl, hs.insertSlot ha hd, Or.inr ⟨hd, hm, fun k => mem_handles_insertSlot ha⟩⟩,
        ?_, fun _ => Or.inr ((mem_handles_insertSlot ha).mpr (Or.inl rfl))⟩
      rintro i ⟨⟩
      have hsl := dynEntries_insertSlot_self ha
      simp [dynHandle, hsl]

theorem storeNew_slotStep (hs : t.Sorted) (hok : InsertSafe t h)
    {allocSize : ℕ} {body : NVBody} {newEntry : Bool}
    (hr : t.storeNew h (t.getEntry h).2 allocSize body newEntry = some r) :
    SlotStep h t r.table ∧ (r.ok = true → Owned r.table h) := by
  rw [storeNew] at hr
  split at hr
  · rename_i t1 slot hrs
    cases hr
    exact ⟨(reserveTableEntry_slotStep hs hok hrs).1, by simp⟩
  · rename_i t1 slot hrs
    obtain ⟨hst, hsl, ho⟩ := reserveTableEntry_slotStep hs hok hrs
    split at hr
    · cases hr
      exact ⟨hst, by simp⟩
    · rename_i t2 ofs allocLen ha
      have ha' : t2.staticEntries = t1.staticEntries ∧ t2.dynEntries = t1.dynEntries := by
        simp only [allocValue] at ha
        split_ifs at ha
        cases ha
        exact ⟨rfl, rfl⟩
      obtain ⟨t4, ht4, rfl⟩ := map_eq_some_iff.mp hr
      obtain ⟨t3, ht3, hse⟩ := bind_eq_some_iff.mp ht4
      obtain ⟨-, rfl⟩ := writeEntry_eq_some.mp ht3
      have hse' := setTableEntry_slots (by
        intro i hi
        rw [← hsl i hi]
        simp [dynHandle, ha'.2]) hse
      have hn : t4.numStatic = t1.numStatic := hse'.1.trans (numStatic_congr ha'.1)
      have hd : t4.handles = t1.handles := hse'.2.trans (handles_congr ha'.2)
      refine ⟨hst.trans_eq hn hd, fun _ => ?_⟩
      simpa only [Owned, hn, hd] using ho rfl

theorem storeExisting_slotStep {h ofs : ℕ} (hs : t.Sorted) (hok : InsertSafe t h)
    {value : Bytes} {valueLen : ℕ}
    (hr : storeExisting t h ofs (t.getEntry h).2 name value valueLen = some r) :
    SlotStep h t r.table := by
  rw [storeExisting] at hr
  split at hr
  · cases hr
  · rename_i e he
    split_ifs at hr with hf
    · obtain ⟨t', ht', rfl⟩ := map_eq_some_iff.mp hr
      rw [storeInPlace] at ht'
      split at ht' <;>
      · obtain ⟨-, rfl⟩ := writeEntry_eq_some.mp ht'
        exact .of_eq hs rfl rfl
    · exact (storeNew_slotStep hs hok hr).1

/-! ### The walk over the slots -/

theorem foreachEntryFrom_invariant {func : ℕ → ℕ → NVTable → Option (Bool × NVTable)}
    {I : NVTable → Prop}
    (hfn : ∀ i h ofs t b t', I t → t.slotAt i = some (h, ofs) → func h ofs t = some (b, t') →
      I t') :
    ∀ (fuel i : ℕ) (t : NVTable) (b : Bool) (t' : NVTable), I t →
      foreachEntryFrom func fuel i t = some (b, t') → I t' := by
  intro fuel
  induction fuel with
  | zero =>
    intro i t b t' _ hw
    simp [foreachEntryFrom] at hw
  | succ fuel ih =>
    intro i t b t' hI hw
    rw [foreachEntryFrom] at hw
    split at hw
    · cases hw
      exact hI
    · rename_i h ofs hs
      split_ifs at hw
      · exact ih _ _ _ _ hI hw
      · split at hw
        · cases hw
        · rename_i t1 hf
          cases hw
          exact hfn _ _ _ _ _ _ hI hs hf
        · rename_i t1 hf
          exact ih _ _ _ _ (hfn _ _ _ _ _ _ hI hs hf) hw

theorem slotAt_handle {i h ofs : ℕ} (hi : t.slotAt i = some (h, ofs)) : Owned t h := by
  rw [slotAt] at hi
  split_ifs at hi with hlt
  · cases hi
    exact Or.inl hlt
  · obtain ⟨d, hd, he⟩ := map_eq_some_iff.mp hi
    cases he
    exact Or.inr (List.mem_map_of_mem (List.mem_of_getElem? hd))

theorem insertSafe_of_owned (ho : Owned t h) : InsertSafe t h := by
  intro hd hm
  exact absurd ho (not_or.mpr ⟨not_le.mpr hd, hm⟩)

theorem getEntry_snd_congr (hn : t'.numStatic = t.numStatic)
    (hd : t'.handles = t.handles) (h : ℕ) : (t'.getEntry h).2 = (t.getEntry h).2 := by
  have hl : t'.dynEntries.length = t.dynEntries.length := by
    simpa using congrArg List.length hd
  have hk : t'.dynHandle = t.dynHandle := by
    funext i
    have hg := congrArg (fun l => l[i]?) hd
    simp only [handles, List.getElem?_map] at hg
    simp only [dynHandle, List.getD_eq_getElem?_getD]
    cases h' : t'.dynEntries[i]? <;> cases h'' : t.dynEntries[i]? <;> simp_all
  by_cases h0 : h = 0
  · simp [h0, getEntry_zero]
  by_cases hst : h ≤ t.numStatic
  · rw [getEntry_static h0 hst, getEntry_static h0 (hn ▸ hst)]
  · rw [getEntry_dynamic (by omega), getEntry_dynamic (by omega)]
    simp only [getEntrySlow, hl, hk]
    split <;> rfl

section Walk

variable {addValue : NVTable → ℕ → NVName → Bytes → ℕ → Bool → Option AddResult}
  (hadd : ∀ t h name value len new r, t.Sorted → InsertSafe t h →
    addValue t h name value len new = some r → SlotStep h t r.table)
include hadd

/-- A set made by the walk finds the slot it needs. -/
theorem makeDirect_slots (hs : t.Sorted) {refHandle h ofs : ℕ} (ho : Owned t h)
    {b : Bool} (hm : makeDirect addValue refHandle h ofs t = some (b, t')) :
    SlotStep h t t' ∧ t'.handles = t.handles := by
  rw [makeDirect] at hm
  split at hm
  · cases hm
  · split at hm
    · cases hm
      exact ⟨.of_eq hs rfl rfl, rfl⟩
    · split_ifs at hm
      · split at hm
        · cases hm
        · obtain ⟨r, hr, he⟩ := map_eq_some_iff.mp hm
          cases he
          have hst := hadd _ _ _ _ _ _ _ hs (insertSafe_of_owned ho) hr
          refine ⟨hst, ?_⟩
          rcases hst.handles with he | ⟨hd, hmm, -⟩
          · exact he
          · exact absurd ho (not_or.mpr ⟨not_le.mpr hd, hmm⟩)
      · cases hm
        exact ⟨.of_eq hs rfl rfl, rfl⟩

theorem foreachEntry_slots (hs : t.Sorted) {refHandle : ℕ} {b : Bool}
    (hw : foreachEntry (makeDirect addValue refHandle) t = some (b, t')) :
    t'.Sorted ∧ t'.numStatic = t.numStatic ∧ t'.handles = t.handles := by
  refine foreachEntryFrom_invariant (I := fun u => u.Sorted ∧ u.numStatic = t.numStatic ∧
    u.handles = t.handles) ?_ slotLimit 0 t b t' ⟨hs, rfl, rfl⟩ hw
  rintro i h ofs u b' u' ⟨hu, hn, hd⟩ hsl hm
  obtain ⟨hst, he⟩ := makeDirect_slots hadd hu (slotAt_handle hsl) hm
  exact ⟨hst.sorted, hst.numStatic.trans hn, he.trans hd⟩

end Walk

theorem addValueFrom_slotStep :
    ∀ (fuel : ℕ) (t : NVTable) (h : ℕ) (name : NVName) (value : Bytes) (len : ℕ) (new : Bool)
      (r : AddResult), t.Sorted → InsertSafe t h →
      addValueFrom fuel t h name value len new = some r → SlotStep h t r.table := by
  intro fuel
  induction fuel with
  | zero =>
    intro t h name value len new r _ _ hr
    simp [addValueFrom] at hr
  | succ fuel ih =>
    intro t h name value len new r hs hok hr
    rw [addValueFrom] at hr
    dsimp only at hr
    split at hr
    · rename_i slot he
      have hsl : slot = (t.getEntry h).2 := by rw [he]
      subst hsl
      split_ifs at hr
      · cases hr
        exact .of_eq hs rfl rfl
      · exact (storeNew_slotStep hs hok hr).1
    · rename_i ofs slot he
      have hsl : slot = (t.getEntry h).2 := by rw [he]
      subst hsl
      split at hr
      · cases hr
      · split_ifs at hr
        · split at hr
          · cases hr
          · rename_i t1 hw
            cases hr
            obtain ⟨h1, hn, hd⟩ := foreachEntry_slots ih hs hw
            exact .of_eq hs hn hd
          · rename_i t1 hw
            obtain ⟨h1, hn, hd⟩ := foreachEntry_slots ih hs hw
            rw [← getEntry_snd_congr hn hd] at hr
            exact .eq_trans hn hd (storeExisting_slotStep h1 (hok.congr hn hd) hr)
        · exact storeExisting_slotStep hs hok hr

/-! ### Indirect sets -/

theorem markReferenced_slots {ofs : ℕ} (hm : t.markReferenced ofs = some t') :
    t'.staticEntries = t.staticEntries ∧ t'.dynEntries = t.dynEntries := by
  rw [markReferenced] at hm
  split at hm
  · cases hm
  · obtain ⟨-, rfl⟩ := writeEntry_eq_some.mp hm
    exact ⟨rfl, rfl⟩

theorem storeNewIndirect_slotStep (hs : t.Sorted) (hok : InsertSafe t h) {refOfs : ℕ}
    (hr : storeNewIndirect t h (t.getEntry h).2 name slice refOfs new = some r) :
    SlotStep h t r.table := by
  rw [storeNewIndirect] at hr
  split at hr
  · cases hr
  · rename_i r1 hr1
    have hst := (storeNew_slotStep hs hok hr1).1
    split_ifs at hr
    · obtain ⟨t2, ht2, rfl⟩ := map_eq_some_iff.mp hr
      obtain ⟨hsc, hd⟩ := markReferenced_slots ht2
      exact hst.trans_eq (numStatic_congr hsc) (handles_congr hd)
    · cases hr
      exact hst

theorem storeExistingIndirect_slotStep {h ofs : ℕ} (hs : t.Sorted)
    (hok : InsertSafe t h) {refOfs : ℕ}
    (hr : storeExistingIndirect t h ofs (t.getEntry h).2 name slice refOfs = some r) :
    SlotStep h t r.table := by
  rw [storeExistingIndirect] at hr
  split at hr
  · cases hr
  · split_ifs at hr
    · split at hr
      · cases hr
      · rename_i t1 ht1
        obtain ⟨-, rfl⟩ := writeEntry_eq_some.mp ht1
        obtain ⟨t2, ht2, rfl⟩ := map_eq_some_iff.mp hr
        obtain ⟨hst, hd⟩ := markReferenced_slots ht2
        exact .of_eq hs (numStatic_congr hst) (handles_congr hd)
    · exact storeNewIndirect_slotStep hs hok hr

theorem setIndirect_slotStep (hs : t.Sorted) (hok : InsertSafe t h) {refOfs : ℕ}
    (hr : setIndirect t h name slice refOfs new = some r) : SlotStep h t r.table := by
  rw [setIndirect] at hr
  split at hr
  · rename_i slot he
    have hsl : slot = (t.getEntry h).2 := by rw [he]
    subst hsl
    split_ifs at hr
    · cases hr
      exact .of_eq hs rfl rfl
    · exact storeNewIndirect_slotStep hs hok hr
  · rename_i ofs slot he
    have hsl : slot = (t.getEntry h).2 := by rw [he]
    subst hsl
    split at hr
    · cases hr
    · split_ifs at hr
      · split at hr
        · cases hr
        · rename_i t1 hw
          cases hr
          obtain ⟨-, hn, hd⟩ := foreachEntry_slots (addValueFrom_slotStep slotLimit) hs hw
          exact .of_eq hs hn hd
        · rename_i t1 hw
          obtain ⟨h1, hn, hd⟩ := foreachEntry_slots (addValueFrom_slotStep slotLimit) hs hw
          rw [← getEntry_snd_congr hn hd] at hr
          exact .eq_trans hn hd (storeExistingIndirect_slotStep h1 (hok.congr hn hd) hr)
      · exact storeExistingIndirect_slotStep hs hok hr

theorem addValueIndirect_slotStep (hs : t.Sorted) (hok : InsertSafe t h)
    {r : AddResult × NVReferencedSlice}
    (hr : addValueIndirect t h name slice new = some r) : SlotStep h t r.1.table := by
  rw [addValueIndirect] at hr
  split_ifs at hr
  · rw [copyReferencedValue] at hr
    split at hr
    · cases hr
    · obtain ⟨r1, hr1, rfl⟩ := map_eq_some_iff.mp hr
      exact addValueFrom_slotStep _ _ _ _ _ _ _ _ hs hok hr1
  · split at hr
    · cases hr
      exact .of_eq hs rfl rfl
    · obtain ⟨r1, hr1, rfl⟩ := map_eq_some_iff.mp hr
      exact setIndirect_slotStep hs hok hr1

/-! ### What a successful set stores -/

theorem getEntry_not_owned (hs : t.Sorted) (ho : ¬ Owned t h) : t.getEntry h = (none, none) := by
  obtain ⟨hd, hm⟩ := not_or.mp ho
  exact hs.getEntry_none (not_le.mp hd) hm

/-- A set that returned `TRUE` either had nothing to do or its handle owns a slot. -/
theorem addValueFrom_stored {fuel : ℕ} (hs : t.Sorted) (hok : InsertSafe t h)
    {value : Bytes} {len : ℕ}
    (hr : addValueFrom (fuel + 1) t h name value len new = some r) (ht : r.ok = true) :
    r.table = t ∨ Owned r.table h := by
  by_cases ho : Owned t h
  · exact Or.inr ((addValueFrom_slotStep _ _ _ _ _ _ _ _ hs hok hr).owned ho)
  · have he := getEntry_not_owned hs ho
    simp only [addValueFrom, he] at hr
    split_ifs at hr
    · cases hr
      exact Or.inl rfl
    · rw [show (none : Option ℕ) = (t.getEntry h).2 by rw [he]] at hr
      exact Or.inr ((storeNew_slotStep hs hok hr).2 ht)

theorem addValueIndirect_stored (hs : t.Sorted) (hok : InsertSafe t h)
    {r : AddResult × NVReferencedSlice}
    (hr : addValueIndirect t h name slice new = some r) (ht : r.1.ok = true) :
    r.1.table = t ∨ Owned r.1.table h := by
  by_cases ho : Owned t h
  · exact Or.inr ((addValueIndirect_slotStep hs hok hr).owned ho)
  · have he := getEntry_not_owned hs ho
    rw [addValueIndirect] at hr
    split_ifs at hr
    · rw [copyReferencedValue] at hr
      split at hr
      · cases hr
      · obtain ⟨r1, hr1, rfl⟩ := map_eq_some_iff.mp hr
        exact addValueFrom_stored hs hok hr1 ht
    · split at hr
      · cases hr
        exact Or.inl rfl
      · obtain ⟨r1, hr1, rfl⟩ := map_eq_some_iff.mp hr
        simp only [setIndirect, he] at hr1
        split_ifs at hr1
        · cases hr1
          exact Or.inl rfl
        · rw [storeNewIndirect] at hr1
          split at hr1
          · cases hr1
          · rename_i r2 hr2
            rw [show (none : Option ℕ) = (t.getEntry h).2 by rw [he]] at hr2
            split_ifs at hr1 with hr2ok
            · obtain ⟨t2, ht2, rfl⟩ := map_eq_some_iff.mp hr1
              obtain ⟨hst, hd⟩ := markReferenced_slots ht2
              have := (storeNew_slotStep hs hok hr2).2 hr2ok
              right
              simpa only [Owned, numStatic_congr hst, handles_congr hd] using this
            · cases hr1
              exact absurd ht hr2ok

/-! ### Histories -/

def Op.target : Op → Option ℕ
  | .addValue h .. => some h
  | .addValueIndirect h .. => some h
  | .realloc => none
  | .clone _ => none

/-- Every slot the call inserts goes where the 16-bit comparison puts it right. -/
def Op.InsertSafe (t : NVTable) (op : Op) : Prop := ∀ h ∈ op.target, NvTable.InsertSafe t h

variable {names : ℕ → NVName}

/-- A table together with the handles some call has stored: those whose call returned
`TRUE` and did something. -/
def storedSystem (names : ℕ → NVName) : System (NVTable × Set ℕ) Op where
  init s := Fresh s.1 ∧ s.2 = ∅
  step s op s' := ∃ ok, exec names s.1 op = some (ok, s'.1) ∧
    s'.2 = s.2 ∪ {h | op.target = some h ∧ ok = true ∧ s'.1 ≠ s.1}

theorem Fresh.dynEntries (hf : Fresh t) : t.dynEntries = [] := by
  rcases hf with ⟨numStatic, numDyn, initLength, rfl⟩ | ⟨spaceLen, numStatic, hb⟩
  · rfl
  · simp only [initBorrowed] at hb
    split_ifs at hb
    cases hb
    rfl

theorem Fresh.sorted (hf : Fresh t) : t.Sorted := by
  constructor <;> simp [handles, hf.dynEntries]

theorem grown_slots (t : NVTable) :
    t.grown.staticEntries = t.staticEntries ∧ t.grown.dynEntries = t.dynEntries := by
  simp only [grown, realloc]
  split_ifs <;> exact ⟨rfl, rfl⟩

theorem exec_slots {op : Op} (hs : t.Sorted) (hok : op.InsertSafe t) {ok : Bool}
    (he : exec names t op = some (ok, t')) : t'.Sorted ∧ (∀ k, Owned t k → Owned t' k) ∧
      ∀ h, op.target = some h → ok = true → t' ≠ t → Owned t' h := by
  cases op with
  | addValue h value new =>
    obtain ⟨r, hr, he⟩ := map_eq_some_iff.mp he
    cases he
    have hst := addValueFrom_slotStep _ _ _ _ _ _ _ _ hs (hok h rfl) hr
    refine ⟨hst.sorted, fun k => hst.owned, ?_⟩
    rintro _ ⟨⟩ ht hne
    exact (addValueFrom_stored hs (hok h rfl) hr ht).resolve_left hne
  | addValueIndirect h slice new =>
    obtain ⟨r, hr, he⟩ := map_eq_some_iff.mp he
    cases he
    have hst := addValueIndirect_slotStep hs (hok h rfl) hr
    refine ⟨hst.sorted, fun k => hst.owned, ?_⟩
    rintro _ ⟨⟩ ht hne
    exact (addValueIndirect_stored hs (hok h rfl) hr ht).resolve_left hne
  | realloc =>
    cases he
    obtain ⟨hsc, hdy⟩ := grown_slots t
    have hn := numStatic_congr hsc
    have hd := handles_congr hdy
    exact ⟨hs.congr hn hd, fun k hk => by simpa only [Owned, hn, hd] using hk, by simp [Op.target]⟩
  | clone n =>
    cases he
    exact ⟨hs.congr rfl rfl, fun k hk => hk, by simp [Op.target]⟩

/-- The slot array of a table in which every stored handle can be found. -/
structure SlotsComplete (t : NVTable) (stored : Set ℕ) : Prop where
  sorted : t.Sorted
  owned : ∀ h ∈ stored, Owned t h

theorem storedSystem_slotsComplete {s : NVTable × Set ℕ}
    (hr : ((storedSystem names).restrict fun s op => op.InsertSafe s.1).Reachable s) :
    SlotsComplete s.1 s.2 := by
  refine hr.invariant (I := fun s => SlotsComplete s.1 s.2) ?_ ?_
  · rintro ⟨t, stored⟩ ⟨hf, he⟩
    exact ⟨hf.sorted, by simp_all⟩
  · rintro ⟨t, stored⟩ op ⟨t', stored'⟩ ⟨hs, ho⟩ ⟨hok, ok, he, hst⟩
    obtain ⟨hs', hk, hn⟩ := exec_slots hs hok he
    refine ⟨hs', ?_⟩
    intro h hm
    rw [hst] at hm
    rcases hm with hm | ⟨ht, htr, hne⟩
    · exact hk h (ho h hm)
    · exact hn h ht htr hne

/-- In every history whose insertions are safe the dynamic slots are strictly increasing,
the lookup finds the slot of every dynamic handle that was ever stored, and it is the
only slot of that handle. -/
theorem storedSystem_lookup {s : NVTable × Set ℕ}
    (hr : ((storedSystem names).restrict fun s op => op.InsertSafe s.1).Reachable s) :
    s.1.handles.Pairwise (· < ·) ∧ (∀ h ∈ s.2, s.1.numStatic < h → ∃ i < s.1.dynEntries.length,
        (s.1.getEntrySlow h).2 = some i ∧ s.1.dynHandle i = h) ∧
      ∀ i j, i < s.1.dynEntries.length → j < s.1.dynEntries.length →
        s.1.dynHandle i = s.1.dynHandle j → i = j := by
  obtain ⟨hs, ho⟩ := storedSystem_slotsComplete hr
  refine ⟨hs.increasing, ?_, fun i j hi hj => hs.slot_unique hi hj⟩
  intro h hm hd
  obtain ⟨i, hi, rfl⟩ := mem_handles_iff.mp ((ho h hm).resolve_left (not_le.mpr hd))
  exact ⟨i, hi, by rw [hs.getEntrySlow_slot hi], rfl⟩

theorem storedSystem_store {c : NVTable × Set ℕ → Op → Prop} {stored : Set ℕ} {op : Op}
    {ok : Bool} (hr : ((storedSystem names).restrict c).Reachable (t, stored))
    (hc : c (t, stored) op) (he : exec names t op = some (ok, t')) :
    ((storedSystem names).restrict c).Reachable
      (t', stored ∪ {h | op.target = some h ∧ ok = true ∧ t' ≠ t}) :=
  hr.step ⟨hc, ok, he, rfl⟩

/-- Handles that need more than 16 bits are found as long as they come last. -/
theorem storedSystem_lookup_wide : ∃ s : NVTable × Set ℕ, 70000 ∈ s.2 ∧
    s.1.handles = [5, 70000] ∧ s.1.handles.Pairwise (· < ·) ∧
      ∃ i < s.1.dynEntries.length, (s.1.getEntrySlow 70000).2 = some i ∧
        s.1.dynHandle i = 70000 := by
  let names : ℕ → NVName := fun _ => .empty
  let t0 : NVTable := .new 0 0 0
  let t1 := execTable names t0 (.addValue 5 [97] false)
  let t2 := execTable names t1 (.addValue 70000 [97] false)
  have h0 : ((storedSystem names).restrict fun s op => op.InsertSafe s.1).Reachable (t0, ∅) :=
    .init ⟨Or.inl ⟨0, 0, 0, rfl⟩, rfl⟩
  have safe : ∀ {t : NVTable} {h : ℕ}, (∀ k ∈ t.handles, k < 2 ^ 16) →
      t.dynEntries.length + 1 < 2 ^ 16 → (Op.addValue h [97] false).InsertSafe t := by
    rintro t h hk hr _ ⟨⟩ - -
    refine ⟨fun k hm => ?_, hr⟩
    rw [Nat.mod_eq_of_lt (hk k hm)]
    exact ⟨Iff.rfl, Iff.rfl⟩
  have e1 : exec names t0 (.addValue 5 [97] false) = some (true, t1) :=
    exec_eq_execTable (by decide +kernel)
  have e2 : exec names t1 (.addValue 70000 [97] false) = some (true, t2) :=
    exec_eq_execTable (by decide +kernel)
  have h1 := storedSystem_store h0 (safe (by decide +kernel) (by decide +kernel)) e1
  have h2 := storedSystem_store h1 (safe (by decide +kernel) (by decide +kernel)) e2
  obtain ⟨hi, hf, -⟩ := storedSystem_lookup h2
  have hne : t2 ≠ t1 := fun he => absurd (congrArg NVTable.used he) (by decide +kernel)
  refine ⟨_, ?_, ?_, hi, hf 70000 ?_ (by decide +kernel)⟩
  · exact Or.inr ⟨rfl, rfl, hne⟩
  · decide +kernel
  · exact Or.inr ⟨rfl, rfl, hne⟩

/-- A handle above 16 bits is compared by its low half: the slot of 65541 sorts before
that of 100, and the value just stored under 100 is not found. -/
theorem addValue_wide_handle_unsorted : ∃ t t' : NVTable, (system fun _ => .empty).Reachable t ∧
      exec (fun _ => .empty) t (.addValue 100 [97] false) = some (true, t') ∧
      t' ≠ t ∧ t'.handles = [65541, 100] ∧ t'.getEntrySlow 100 = (none, none) := by
  let names : ℕ → NVName := fun _ => .empty
  let t0 : NVTable := .new 0 0 0
  let t1 := execTable names t0 (.addValue 65541 [97] false)
  let t2 := execTable names t1 (.addValue 100 [97] false)
  have h0 : ((system names).restrict fun _ _ => True).Reachable t0 := .init (Or.inl ⟨0, 0, 0, rfl⟩)
  have h1 := reachable_execTable h0 (.addValue 65541 [97] false) trivial
  refine ⟨t1, t2, h1.of_restrict, exec_eq_execTable (by decide +kernel), ?_, ?_, ?_⟩
  · exact fun he => absurd (congrArg NVTable.used he) (by decide +kernel)
  · decide +kernel
  · decide +kernel

end SyslogNg.NvTable
