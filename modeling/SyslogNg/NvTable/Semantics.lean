import SyslogNg.NvTable.Indirect

/-!
# NVTable: value semantics over histories

The layout invariant holds in every state of a history in which no indirect set goes on
after its walk over the referrers ran out of space. In such states a direct set changes
one value or none, and an indirect set that does not walk stores the slice it was given.
-/
namespace SyslogNg.NvTable

open NVTable Function ViewStore List Nat

/-- Handles a registry hands out, below 65536, and slices with 32-bit fields. -/
def Op.Valid : Op → Prop
  | .addValue h .. => h ≠ 0 ∧ h < 2 ^ 16
  | .addValueIndirect h slice _ => h ≠ 0 ∧ h < 2 ^ 16 ∧ slice.ofs < 2 ^ 32
  | .realloc => True
  | .clone _ => True

/-- If the call walks over the referrers of its target, there is room for all of them. -/
def Op.WalkFits (t : NVTable) : Op → Prop
  | .addValueIndirect h slice _ => t.IndirectWalks h slice → (t.walkNeed h : ℤ) ≤ t.freeGap
  | _ => True

section Copies

variable {names : ℕ → NVName} {t : NVTable}

theorem Layout.resize (hl : Layout names t) {size : ℕ} (refCnt : ℕ) (borrowed : Bool)
    (hle : t.size ≤ size) (hmx : size ≤ maxBytes) :
    Layout names { t with size := size, refCnt := refCnt, borrowed := borrowed } ∧
      NVTable.entryOf { t with size := size, refCnt := refCnt, borrowed := borrowed } =
        t.entryOf := by
  have hm := hl.memory
  have ha : addr { t with size := size, refCnt := refCnt, borrowed := borrowed } = t.addr :=
    addr_congr rfl rfl
  have he : entryOf { t with size := size, refCnt := refCnt, borrowed := borrowed } =
      t.entryOf := by
    funext k
    simp only [entryOf, ha]
  refine ⟨hl.congr ⟨hm.sorted.congr rfl rfl, hm.below, hm.static_lt, hm.fits.trans hle, hmx, ?_, ?_,
    hm.bytes, hm.apart⟩ he, he⟩
  · exact hm.live
  · exact hm.inj

theorem Layout.realloc_spec (hl : Layout names t) {old new : NVTable}
    (hr : t.realloc = some (old, new)) : Layout names new ∧ new.entryOf = t.entryOf ∧
      new.size = getSize (t.size * 2) := by
  have hs := hl.memory.size_le
  have hle : t.size ≤ getSize (t.size * 2) := by
    unfold getSize
    omega
  have hm : getSize (t.size * 2) ≤ maxBytes := min_le_right _ _
  simp only [realloc] at hr
  split_ifs at hr
  · cases hr
    obtain ⟨h1, h2⟩ := hl.resize t.refCnt t.borrowed hle hm
    exact ⟨h1, h2, rfl⟩
  · cases hr
    obtain ⟨h1, h2⟩ := hl.resize 1 false hle hm
    exact ⟨h1, h2, rfl⟩

theorem Layout.clone_spec (hl : Layout names t) (additionalSpace : ℕ) :
    Layout names (t.clone additionalSpace) ∧ (t.clone additionalSpace).entryOf = t.entryOf := by
  have hs := hl.memory.size_le
  refine hl.resize 1 false ?_ (min_le_right _ _)
  unfold getSize
  split_ifs <;> omega

/-- A table in which no slot holds an address. -/
theorem layout_init {allocLength numStaticEntries : ℕ} {borrowed : Bool}
    (hr : tableHdr + 4 * (numStaticEntries % 2 ^ 8) ≤ getSize allocLength) :
    Layout names { NVTable.init allocLength numStaticEntries with borrowed := borrowed } := by
  set t0 : NVTable := { init allocLength numStaticEntries with borrowed := borrowed } with ht0
  have hn : t0.numStatic = numStaticEntries % 2 ^ 8 := by simp [ht0, numStatic, init]
  have hs : t0.Sorted := by constructor <;> simp [handles, ht0, init]
  have ha : ∀ k, t0.addr k = none := by
    intro k
    by_cases hst : k ≤ t0.numStatic
    · by_cases h0 : k = 0
      · rw [h0, addr_zero]
      · rw [addr_static h0 hst]
        have hz : t0.staticEntries.getD (k - 1) 0 = 0 := by
          have hlt : k - 1 < t0.staticEntries.length := by
            rw [numStatic] at hst
            omega
          rw [getD_eq_getElem?_getD, List.getElem?_eq_getElem hlt]
          exact eq_of_mem_replicate (getElem_mem hlt)
        rw [hz]
        rfl
    · exact hs.addr_none (not_or.mpr ⟨hst, by simp [handles, ht0, init]⟩)
  have he : ∀ k, t0.entryOf k = none := fun k => by simp [entryOf, ha]
  refine ⟨⟨hs, by simp [handles, ht0, init], ?_, ?_, min_le_right _ _, by simp [ha],
    by simp [ha], by simp [ht0, init], by simp [ht0, init]⟩, by simp [he],
    by simp [he]⟩
  · rw [hn]
    exact mod_lt _ (by norm_num)
  · have ht : t0.ofsTableTop = tableHdr + 4 * t0.numStatic := by
      simp [ofsTableTop, ht0, init]
    rw [ht, hn]
    simpa [ht0, init] using hr

theorem Fresh.layout (hf : Fresh t) : Layout names t := by
  rcases hf with ⟨numStatic, numDyn, initLength, rfl⟩ | ⟨spaceLen, numStatic, hb⟩
  · refine layout_init ?_
    have hbn := le_bound (sizeofTable + numStatic * 4 + numDyn * slotSize)
    have ha : tableHdr + 4 * (numStatic % 2 ^ 8) ≤ getAllocSize numStatic numDyn initLength := by
      simp only [getAllocSize]
      generalize bound (sizeofTable + numStatic * 4 + numDyn * slotSize) = b at *
      unfold sizeofTable at hbn
      unfold tableHdr maxBytes
      split_ifs <;> omega
    refine le_min ha ?_
    unfold tableHdr maxBytes
    omega
  · simp only [initBorrowed] at hb
    split_ifs at hb with hr
    cases hb
    refine layout_init ?_
    have hbn := le_bound (spaceLen / 4 * 4)
    simp only [getSize, tableHdr, maxBytes]
    unfold sizeofTable at hr
    omega

end Copies

section Histories

variable {names : ℕ → NVName} {t : NVTable}

theorem Layout.exec {op : Op} (hl : Layout names t) (hv : op.Valid) (hf : op.WalkFits t)
    {ok : Bool} {t' : NVTable} (he : exec names t op = some (ok, t')) : Layout names t' := by
  cases op with
  | addValue h value new =>
    obtain ⟨r, hr, ho⟩ := hl.addValue_spec hv.1 hv.2 value value.length new
    simp only [NvTable.exec, hr] at he
    cases he
    exact ho.layout
  | addValueIndirect h slice new =>
    obtain ⟨r, hr, hrs⟩ := Option.map_eq_some_iff.mp he
    cases hrs
    exact hl.addValueIndirect_layout hv.1 hv.2.1 hv.2.2 hf hr
  | realloc =>
    cases he
    unfold grown
    split
    · exact hl
    · rename_i old new hr
      exact (hl.realloc_spec hr).1
  | clone n =>
    cases he
    exact (hl.clone_spec n).1

/-- The histories the value semantics is about. -/
def fittingSystem (names : ℕ → NVName) : System NVTable Op :=
  (system names).restrict fun t op => op.Valid ∧ op.WalkFits t

theorem layout_of_reachable (hr : (fittingSystem names).Reachable t) : Layout names t := by
  refine hr.invariant (I := Layout names) ?_ ?_
  · intro s hs
    exact Fresh.layout hs
  · rintro s op s' hl ⟨⟨hv, hf⟩, ok, he⟩
    exact hl.exec hv hf he

/-- In every fitting history a direct set returns; if it returns `TRUE` the handle has the
new value and no other handle changes, if it returns `FALSE` no handle changes. -/
theorem addValue_value_semantics (hr : (fittingSystem names).Reachable t) {h : ℕ} (h0 : h ≠ 0)
    (hh : h < 2 ^ 16) (value : Bytes) (wantNew : Bool) :
    ∃ r, addValue t h (names h) value value.length wantNew = some r ∧ (∀ k, (t.getValue k).isSome) ∧
      (r.ok = true → r.table.getValue h = some (.ofBytes (value.take maxBytes)) ∧
        ∀ k ≠ h, r.table.getValue k = t.getValue k) ∧
      (r.ok = false → ∀ k, r.table.getValue k = t.getValue k) := by
  have hl := layout_of_reachable hr
  obtain ⟨r, hrn, ho⟩ := hl.addValue_spec h0 hh value value.length wantNew
  have ht : value.take (getSize value.length) = value.take maxBytes := by
    unfold getSize
    rw [Nat.min_comm, ← take_take, take_length]
  rw [ht] at ho
  refine ⟨r, hrn, fun k => by rw [hl.getValue_eq]; rfl, fun hok => ?_, fun hok k => ?_⟩
  · have hv := ho.stored hok
    refine ⟨by rw [ho.layout.getValue_eq, hv, update_self], fun k hk => ?_⟩
    rw [ho.layout.getValue_eq, hl.getValue_eq, hv, update_of_ne hk]
  · rw [ho.layout.getValue_eq, hl.getValue_eq, (ho.failed hok).1]

/-- A referrer keeps its value when the referenced value is overwritten. -/
theorem addValue_value_semantics_referrer : ∃ t : NVTable, t.getValue 2 = some (.ofBytes [98, 99]) ∧
      ∃ r, addValue t 1 .empty [120, 121] 2 false = some r ∧ r.ok = true ∧
        r.table.getValue 1 = some (.ofBytes [120, 121]) ∧
        r.table.getValue 2 = some (.ofBytes [98, 99]) := by
  let names : ℕ → NVName := fun _ => .empty
  let t0 : NVTable := .new 0 0 0
  let t1 := execTable names t0 (.addValue 1 [97, 98, 99] false)
  let t2 := execTable names t1 (.addValueIndirect 2 ⟨1, 1, 2, 0⟩ false)
  have h0 : (fittingSystem names).Reachable t0 := .init (Or.inl ⟨0, 0, 0, rfl⟩)
  have h1 := reachable_execTable h0 (.addValue 1 [97, 98, 99] false)
    ⟨⟨by decide, by decide⟩, trivial⟩
  have hn : t1.entryOf 2 = none := by decide +kernel
  have h2 : (fittingSystem names).Reachable t2 :=
    reachable_execTable h1 (.addValueIndirect 2 ⟨1, 1, 2, 0⟩ false)
      ⟨⟨by decide, by decide, by decide⟩, fun hw => by
        obtain ⟨e, he, -⟩ := hw.target
        rw [hn] at he
        cases he⟩
  obtain ⟨r, hr, -, hok, -⟩ := addValue_value_semantics h2 (h := 1) (by decide) (by decide)
    [120, 121] false
  have ht : (addValue t2 1 .empty [120, 121] 2 false).map AddResult.ok = some true := by
    decide +kernel
  have hrn : addValue t2 1 .empty [120, 121] 2 false = some r := hr
  rw [hrn] at ht
  have hrk : r.ok = true := by simpa using ht
  obtain ⟨h1', ho⟩ := hok hrk
  have hb : t2.getValue 2 = some (.ofBytes [98, 99]) := by decide +kernel
  exact ⟨t2, hb, r, hrn, hrk, h1', (ho 2 (by decide)).trans hb⟩

/-- An indirect set to a referenced handle goes on when its walk runs out of space. It
leaves a reference to a reference, and the next direct set changes a value it should not. -/
theorem addValue_changes_referrer :
    ∃ t t' : NVTable,
      ((system fun _ => ⟨[110], by simp⟩).restrict fun _ op => op.Valid).Reachable t ∧
      exec (fun _ => ⟨[110], by simp⟩) t (.addValue 1 [98, 98] false) = some (true, t') ∧
      t.getValue 2 = some (.ofBytes [122]) ∧ t'.getValue 2 = some (.ofBytes [98, 98]) := by
  let names : ℕ → NVName := fun _ => ⟨[110], by simp⟩
  let t0 : NVTable := .new 0 0 0
  let t1 := execTable names t0 (.addValue 1 (List.replicate 20 97) false)
  let t2 := execTable names t1 (.addValueIndirect 2 ⟨1, 0, 20, 0⟩ false)
  let t3 := execTable names t2 (.addValue 3 [122] false)
  let t4 := execTable names t3 (.addValueIndirect 1 ⟨3, 0, 1, 0⟩ false)
  have h0 : ((system names).restrict fun _ op => op.Valid).Reachable t0 :=
    .init (Or.inl ⟨0, 0, 0, rfl⟩)
  have h1 := reachable_execTable h0 (.addValue 1 (List.replicate 20 97) false)
    ⟨by decide, by decide⟩
  have h2 := reachable_execTable h1 (.addValueIndirect 2 ⟨1, 0, 20, 0⟩ false)
    ⟨by decide, by decide, by decide⟩
  have h3 := reachable_execTable h2 (.addValue 3 [122] false) ⟨by decide, by decide⟩
  have h4 := reachable_execTable h3 (.addValueIndirect 1 ⟨3, 0, 1, 0⟩ false)
    ⟨by decide, by decide, by decide⟩
  exact ⟨t4, execTable names t4 (.addValue 1 [98, 98] false), h4,
    exec_eq_execTable (by decide +kernel), by decide +kernel, by decide +kernel⟩

end Histories

end SyslogNg.NvTable
