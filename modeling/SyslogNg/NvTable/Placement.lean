import SyslogNg.NvTable.Semantics

/-!
# NVTable: where entries are

What every history keeps, whatever handles and values it uses: the slots and the entries fit the
block, entries own disjoint bytes, and no two slots hold the same address. Unlike `Memory` this does
not depend on the order of the slots.
-/
namespace SyslogNg.NvTable

open NVTable Function List Option

namespace NVTable

/-- The addresses in the slots; 0 is none. -/
def slotOffsets (t : NVTable) : List ℕ := t.staticEntries ++ t.dynEntries.map NVDynValue.ofs

structure Placed (t : NVTable) : Prop where
  fits : t.used + t.ofsTableTop ≤ t.size
  size_le : t.size ≤ maxBytes
  static_lt : t.numStatic < 2 ^ 8
  dyn_lt : t.dynEntries.length < 2 ^ 16
  distinct : (t.slotOffsets.filter (· ≠ 0)).Nodup
  live : ∀ o ∈ t.slotOffsets, o ≠ 0 → ∃ e, t.entries o = some e
  bytes : ∀ o e, t.entries o = some e → e.footprint ≤ e.allocLen ∧ e.allocLen ≤ o ∧ o ≤ t.used
  apart : ∀ o o' e e', t.entries o = some e → t.entries o' = some e' → o < o' →
    o + e'.allocLen ≤ o'

end NVTable

theorem nodup_nonzero_replace {first rest : List ℕ} {a b : ℕ}
    (h : ((first ++ b :: rest).filter (· ≠ 0)).Nodup) (ha : a ∉ first ++ rest) :
    ((first ++ a :: rest).filter (· ≠ 0)).Nodup := by
  have hr : ((first ++ rest).filter (· ≠ 0)).Nodup := by
    refine h.sublist (List.Sublist.filter _ ?_)
    exact (sublist_cons_self b rest).append_left first
  have hn : ((a :: (first ++ rest)).filter (· ≠ 0)).Nodup := by
    rw [filter_cons]
    split
    · exact nodup_cons.mpr ⟨fun hm => ha (mem_of_mem_filter hm), hr⟩
    · exact hr
  exact ((perm_middle.symm.filter _).nodup_iff).mp hn

theorem nodup_nonzero_set {l : List ℕ} {i a : ℕ} (h : (l.filter (· ≠ 0)).Nodup) (ha : a ∉ l) :
    ((l.set i a).filter (· ≠ 0)).Nodup := by
  rcases Nat.lt_or_ge i l.length with hi | hi
  · have hs : l = l.take i ++ l[i] :: l.drop (i + 1) := by
      rw [getElem_cons_drop, take_append_drop]
    rw [set_eq_take_append_cons_drop, if_pos hi]
    rw [hs] at h
    refine nodup_nonzero_replace h fun hm => ha ?_
    rcases mem_append.mp hm with hm | hm
    · exact mem_of_mem_take hm
    · exact mem_of_mem_drop hm
  · rwa [set_eq_of_length_le hi]

namespace NVTable.Placed

variable {t t' : NVTable} {h o : ℕ} {e e' : NVEntry} {dynSlot : Option ℕ}
  {r : AddResult} {new : Bool} {name : NVName} {slice : NVReferencedSlice}

theorem overwrite (hp : t.Placed) (he : t.entries o = some e) (hl : e'.allocLen = e.allocLen)
    (hw : t.writeEntry o e' = some t') : t'.Placed := by
  obtain ⟨hf, rfl⟩ := writeEntry_eq_some.mp hw
  have hen : ∀ o' e'', update t.entries o (some e') o' = some e'' →
      ∃ e₀, t.entries o' = some e₀ ∧ e''.allocLen = e₀.allocLen ∧
        (o' ≠ o → e'' = e₀) ∧ (o' = o → e'' = e') := by
    intro o' e'' h'
    rcases eq_or_ne o' o with rfl | hne
    · rw [update_self] at h'
      cases h'
      exact ⟨e, he, hl, fun hne => absurd rfl hne, fun _ => rfl⟩
    · rw [update_of_ne hne] at h'
      exact ⟨e'', h', rfl, fun _ => rfl, fun heq => absurd heq hne⟩
  exact { hp with
    live := by
      intro o' ho' hne
      rcases eq_or_ne o' o with rfl | hne'
      · exact ⟨e', update_self ..⟩
      · obtain ⟨e₀, he₀⟩ := hp.live o' ho' hne
        exact ⟨e₀, by simpa [update_of_ne hne'] using he₀⟩
    bytes := by
      intro o' e'' h'
      obtain ⟨e₀, he₀, hl', ho, hs⟩ := hen o' e'' h'
      have hol := hp.bytes o' e₀ he₀
      rcases eq_or_ne o' o with rfl | hne'
      · rw [hs rfl] at hl' ⊢
        exact ⟨hf, hl' ▸ hol.2⟩
      · rw [ho hne']
        exact hol
    apart := by
      intro o₁ o₂ e₁ e₂ h₁ h₂ hlt
      obtain ⟨e₁', he₁, -⟩ := hen o₁ e₁ h₁
      obtain ⟨e₂', he₂, hl₂, -⟩ := hen o₂ e₂ h₂
      rw [hl₂]
      exact hp.apart o₁ o₂ e₁' e₂' he₁ he₂ hlt }

theorem setDynEntries (hp : t.Placed) {slots : List NVDynValue} (hn : slots.length < 2 ^ 16)
    (hr : t.used + (tableHdr + 4 * t.numStatic + slotSize * slots.length) ≤ t.size)
    (hsb : ((slots.map NVDynValue.ofs).filter (· ≠ 0)).Subperm
      ((t.dynEntries.map NVDynValue.ofs).filter (· ≠ 0))) :
    Placed { t with dynEntries := slots } where
  fits := hr
  size_le := hp.size_le
  static_lt := hp.static_lt
  dyn_lt := hn
  distinct := by
    have hol := hp.distinct
    rw [slotOffsets, filter_append] at hol ⊢
    obtain ⟨l, hpr, hs⟩ := hsb
    have hnd := hol.sublist (hs.append_left _)
    exact ((hpr.append_left _).nodup_iff).mp hnd
  live := by
    intro o ho hne
    refine hp.live o ?_ hne
    rw [slotOffsets, mem_append] at ho ⊢
    rcases ho with ho | ho
    · exact .inl ho
    · have hm := hsb.subset (mem_filter.mpr ⟨ho, by simpa using hne⟩)
      exact .inr (mem_of_mem_filter hm)
  bytes := hp.bytes
  apart := hp.apart

theorem insertIdx_subperm (slots : List NVDynValue) (ndx n h : ℕ) :
    ((((slots.insertIdx ndx ⟨h, 0⟩).take n).map NVDynValue.ofs).filter (· ≠ 0)).Subperm
      ((slots.map NVDynValue.ofs).filter (· ≠ 0)) := by
  have ht : ((((slots.insertIdx ndx ⟨h, 0⟩).take n).map NVDynValue.ofs).filter (· ≠ 0)).Sublist
      (((slots.insertIdx ndx ⟨h, 0⟩).map NVDynValue.ofs).filter (· ≠ 0)) :=
    ((take_sublist n _).map _).filter _
  refine ht.subperm.trans ?_
  rcases Nat.lt_or_ge slots.length ndx with hlt | hle
  · rw [insertIdx_of_length_lt hlt]
  · have hpr := ((perm_insertIdx (⟨h, 0⟩ : NVDynValue) slots hle).map NVDynValue.ofs).filter
      (fun o => decide (o ≠ 0))
    simpa using hpr.subperm

section

variable (hp : t.Placed)
include hp

theorem reserveTableEntry : (t.reserveTableEntry h dynSlot).2.1.Placed := by
  rw [NVTable.reserveTableEntry]
  split_ifs with hn hr
  · rw [allocCheck_iff_of_fits hp.fits hp.size_le] at hr
    have hl : t.used + (tableHdr + 4 * t.numStatic + slotSize * (t.dynEntries.length + 1)) ≤
        t.size := by
      unfold freeGap ofsTableTop slotSize at hr
      unfold slotSize
      omega
    have ht : ∀ ndx n, ((t.dynEntries.insertIdx ndx ⟨h, 0⟩).take n).length ≤
        min n (t.dynEntries.length + 1) := by
      intro ndx n
      rw [length_take, length_insertIdx]
      split <;> omega
    dsimp only
    split
    · next ndx _ =>
      have hle := ht ndx t.dynEntries.length
      have hlt := hp.dyn_lt
      refine hp.setDynEntries (by omega) ?_ (insertIdx_subperm ..)
      unfold slotSize at hl ⊢
      omega
    · next ndx _ =>
      have hle := ht ndx ((t.dynEntries.length + 1) % 2 ^ 16)
      refine hp.setDynEntries (by omega) ?_ (insertIdx_subperm ..)
      unfold slotSize at hl ⊢
      omega
  · exact hp
  · exact hp

theorem setTableEntry (hf : o ∉ t.slotOffsets)
    (he : t.entries o = some e) (hst : t.setTableEntry h o dynSlot = some t') : t'.Placed := by
  obtain ⟨hsz, hu, hen, ht⟩ := setTableEntry_frame hst
  have hsl : t'.numStatic = t.numStatic ∧ t'.dynEntries.length = t.dynEntries.length ∧
      ∃ i, t'.slotOffsets = t.slotOffsets.set i o := by
    rw [NVTable.setTableEntry] at hst
    split_ifs at hst with hs hz
    · cases hst
      refine ⟨by simp [numStatic], rfl, h - 1, ?_⟩
      have hlt : h - 1 < t.staticEntries.length := by
        unfold numStatic at hs
        omega
      rw [slotOffsets, slotOffsets, set_append_left _ _ hlt]
    · obtain ⟨i, rfl, rfl⟩ := map_eq_some_iff.mp hst
      refine ⟨rfl, by simp, t.staticEntries.length + i, ?_⟩
      rw [slotOffsets, slotOffsets, set_append_right _ _ (by omega), map_set,
        Nat.add_sub_cancel_left]
  obtain ⟨hn, hd, i, ho⟩ := hsl
  exact {
    fits := by
      rw [hu, ht, hsz]
      exact hp.fits
    size_le := hsz ▸ hp.size_le
    static_lt := hn ▸ hp.static_lt
    dyn_lt := hd ▸ hp.dyn_lt
    distinct := by
      rw [ho]
      exact nodup_nonzero_set hp.distinct hf
    live := by
      intro o' ho' hne
      rw [ho] at ho'
      rw [hen]
      rcases mem_or_eq_of_mem_set ho' with hm | rfl
      · exact hp.live o' hm hne
      · exact ⟨e, he⟩
    bytes := by
      rw [hen, hu]
      exact hp.bytes
    apart := by
      rw [hen]
      exact hp.apart }

theorem appendEntry (hf : e.footprint ≤ e.allocLen)
    (hr : (e.allocLen : ℤ) ≤ t.freeGap) : (t.appendEntry e).Placed := by
  have hps := footprint_pos e
  have hn : ∀ o' e', t.entries o' = some e' → o' ≤ t.used :=
    fun o' e' he' => (hp.bytes o' e' he').2.2
  have he : ∀ o' e', (t.appendEntry e).entries o' = some e' →
      o' = t.used + e.allocLen ∧ e' = e ∨ o' ≤ t.used ∧ t.entries o' = some e' := by
    intro o' e' he'
    rcases eq_or_ne o' (t.used + e.allocLen) with rfl | hne
    · have hs : (t.appendEntry e).entries (t.used + e.allocLen) = some e := update_self ..
      rw [hs] at he'
      exact .inl ⟨rfl, (Option.some.inj he').symm⟩
    · have ho : (t.appendEntry e).entries o' = t.entries o' := update_of_ne hne ..
      rw [ho] at he'
      exact .inr ⟨hn o' e' he', he'⟩
  exact { hp with
    fits := by
      unfold freeGap at hr
      change t.used + e.allocLen + t.ofsTableTop ≤ t.size
      omega
    live := by
      intro o' ho' hne
      obtain ⟨e', he'⟩ := hp.live o' ho' hne
      refine ⟨e', ?_⟩
      have hle := hn o' e' he'
      have ho : (t.appendEntry e).entries o' = t.entries o' := update_of_ne (by omega) ..
      rw [ho, he']
    bytes := by
      intro o' e' he'
      change _ ∧ _ ∧ o' ≤ t.used + e.allocLen
      rcases he o' e' he' with ⟨rfl, rfl⟩ | ⟨hle, hol⟩
      · exact ⟨hf, by omega, le_rfl⟩
      · have hb := hp.bytes o' e' hol
        exact ⟨hb.1, hb.2.1, by omega⟩
    apart := by
      intro o₁ o₂ e₁ e₂ h₁ h₂ hlt
      rcases he o₂ e₂ h₂ with ⟨rfl, rfl⟩ | ⟨hle₂, hol₂⟩
      · rcases he o₁ e₁ h₁ with ⟨rfl, rfl⟩ | ⟨hle₁, -⟩ <;> omega
      · rcases he o₁ e₁ h₁ with ⟨rfl, rfl⟩ | ⟨hle₁, hol₁⟩
        · omega
        · exact hp.apart o₁ o₂ e₁ e₂ hol₁ hol₂ hlt }

theorem storeNew {allocSize : ℕ} {body : NVBody}
    (hr : t.storeNew h dynSlot allocSize body new = some r) : r.table.Placed := by
  have hrs : (t.reserveTableEntry h dynSlot).2.1.Placed := hp.reserveTableEntry
  rw [NVTable.storeNew] at hr
  generalize t.reserveTableEntry h dynSlot = reserved at hr hrs
  obtain ⟨ok, u, slot⟩ := reserved
  replace hrs : u.Placed := hrs
  cases ok with
  | false =>
    cases hr
    exact hrs
  | true =>
    simp only [allocValue] at hr
    split_ifs at hr with hc
    · obtain ⟨t₂, hb, rfl⟩ := map_eq_some_iff.mp hr
      obtain ⟨t₁, hw, hs⟩ := bind_eq_some_iff.mp hb
      obtain ⟨hf, rfl⟩ := writeEntry_eq_some.mp hw
      rw [allocCheck_iff_of_fits hrs.fits hrs.size_le] at hc
      have ha := hrs.appendEntry hf hc
      refine ha.setTableEntry ?_ (update_self ..) hs
      intro hm
      have hps : 0 < bound allocSize :=
        (footprint_pos ⟨false, bound allocSize, body⟩).trans_le hf
      obtain ⟨e', he'⟩ := hrs.live (u.used + bound allocSize) hm (by omega)
      have hle := (hrs.bytes (u.used + bound allocSize) e' he').2.2
      omega
    · cases hr
      exact hrs

theorem storeExisting {value : Bytes} {len : ℕ}
    (hr : NvTable.storeExisting t h o dynSlot name value len = some r) : r.table.Placed := by
  rw [NvTable.storeExisting] at hr
  split at hr
  · cases hr
  · next e he =>
    split_ifs at hr
    · obtain ⟨t', hs, rfl⟩ := map_eq_some_iff.mp hr
      rw [storeInPlace] at hs
      split at hs
      · exact hp.overwrite he (by rfl) hs
      · exact hp.overwrite he (by rfl) hs
    · exact hp.storeNew hr

end

section Walk

variable {addValue : NVTable → ℕ → NVName → Bytes → ℕ → Bool → Option AddResult}
  (hadd : ∀ t h name value len new r, t.Placed → addValue t h name value len new = some r →
    r.table.Placed)
include hadd

theorem makeDirect (hp : t.Placed) {refHandle : ℕ} {b : Bool}
    (hm : NvTable.makeDirect addValue refHandle h o t = some (b, t')) : t'.Placed := by
  rw [NvTable.makeDirect] at hm
  split at hm
  · cases hm
  · split at hm
    · cases hm
      exact hp
    · split_ifs at hm
      · split at hm
        · cases hm
        · obtain ⟨r, hr, heq⟩ := map_eq_some_iff.mp hm
          cases heq
          exact hadd _ _ _ _ _ _ _ hp hr
      · cases hm
        exact hp

theorem foreachEntry (hp : t.Placed) {refHandle : ℕ} {b : Bool}
    (hw : NvTable.foreachEntry (NvTable.makeDirect addValue refHandle) t = some (b, t')) :
    t'.Placed :=
  foreachEntryFrom_invariant (fun _ _ _ _ _ _ hu _ hm => makeDirect hadd hu hm) _ _ _ _ _ hp hw

end Walk

theorem addValueFrom (fuel : ℕ) (t : NVTable) (h : ℕ) (name : NVName) (value : Bytes) (len : ℕ)
    (new : Bool) (r : AddResult) (hp : t.Placed)
    (hr : NvTable.addValueFrom fuel t h name value len new = some r) : r.table.Placed := by
  induction fuel generalizing t h name value len new r with
  | zero => cases hr
  | succ fuel ih =>
    rw [NvTable.addValueFrom] at hr
    dsimp only at hr
    split at hr
    · split_ifs at hr
      · cases hr
        exact hp
      · exact hp.storeNew hr
    · split at hr
      · cases hr
      · split_ifs at hr
        · split at hr
          · cases hr
          · next hw =>
            cases hr
            exact hp.foreachEntry ih hw
          · next hw => exact (hp.foreachEntry ih hw).storeExisting hr
        · exact hp.storeExisting hr

section

variable (hp : t.Placed)
include hp

theorem addValue {value : Bytes} {len : ℕ}
    (hr : NvTable.addValue t h name value len new = some r) : r.table.Placed :=
  addValueFrom _ _ _ _ _ _ _ _ hp hr

theorem markReferenced (hm : t.markReferenced o = some t') : t'.Placed := by
  rw [NVTable.markReferenced] at hm
  split at hm
  · cases hm
  · next e he => exact hp.overwrite he (by rfl) hm

theorem storeNewIndirect {refOfs : ℕ}
    (hr : NvTable.storeNewIndirect t h dynSlot name slice refOfs new = some r) :
    r.table.Placed := by
  rw [NvTable.storeNewIndirect] at hr
  split at hr
  · cases hr
  · next r₁ hr₁ =>
    have hp₁ := hp.storeNew hr₁
    split_ifs at hr
    · obtain ⟨t', hm, rfl⟩ := map_eq_some_iff.mp hr
      exact hp₁.markReferenced hm
    · cases hr
      exact hp₁

theorem storeExistingIndirect {refOfs : ℕ}
    (hr : NvTable.storeExistingIndirect t h o dynSlot name slice refOfs = some r) :
    r.table.Placed := by
  rw [NvTable.storeExistingIndirect] at hr
  split at hr
  · cases hr
  · next e he =>
    split_ifs at hr
    · split at hr
      · cases hr
      · next t₁ hw =>
        obtain ⟨t', hm, rfl⟩ := map_eq_some_iff.mp hr
        exact (hp.overwrite he (by rfl) hw).markReferenced hm
    · exact hp.storeNewIndirect hr

theorem setIndirect {refOfs : ℕ}
    (hr : NvTable.setIndirect t h name slice refOfs new = some r) : r.table.Placed := by
  have hadd : ∀ t h name value len new r, t.Placed →
      NvTable.addValue t h name value len new = some r → r.table.Placed :=
    fun _ _ _ _ _ _ _ hp hr => hp.addValue hr
  rw [NvTable.setIndirect] at hr
  split at hr
  · split_ifs at hr
    · cases hr
      exact hp
    · exact hp.storeNewIndirect hr
  · split at hr
    · cases hr
    · split_ifs at hr
      · split at hr
        · cases hr
        · next hw =>
          cases hr
          exact hp.foreachEntry hadd hw
        · next hw => exact (hp.foreachEntry hadd hw).storeExistingIndirect hr
      · exact hp.storeExistingIndirect hr

theorem addValueIndirect {r : AddResult × NVReferencedSlice}
    (hr : NvTable.addValueIndirect t h name slice new = some r) : r.1.table.Placed := by
  rw [NvTable.addValueIndirect] at hr
  split_ifs at hr
  · rw [copyReferencedValue] at hr
    split at hr
    · cases hr
    · obtain ⟨r₁, hr₁, rfl⟩ := map_eq_some_iff.mp hr
      exact hp.addValue hr₁
  · split at hr
    · cases hr
      exact hp
    · obtain ⟨r₁, hr₁, rfl⟩ := map_eq_some_iff.mp hr
      exact hp.setIndirect hr₁

/-- The same slots and entries in a block that is at least as large -/
theorem resize {size : ℕ} (refCnt : ℕ) (borrowed : Bool) (hle : t.size ≤ size)
    (hm : size ≤ maxBytes) :
    Placed { t with size := size, refCnt := refCnt, borrowed := borrowed } :=
  { hp with fits := hp.fits.trans hle, size_le := hm }

theorem exec {names : ℕ → NVName} {op : Op} {ok : Bool}
    (he : NvTable.exec names t op = some (ok, t')) : t'.Placed := by
  cases op with
  | addValue h value new =>
    obtain ⟨r, hr, heq⟩ := map_eq_some_iff.mp he
    cases heq
    exact hp.addValue hr
  | addValueIndirect h slice new =>
    obtain ⟨r, hr, heq⟩ := map_eq_some_iff.mp he
    cases heq
    exact hp.addValueIndirect hr
  | realloc =>
    cases he
    have hs := hp.size_le
    have hle : t.size ≤ getSize (t.size * 2) := by
      unfold getSize
      omega
    have hm : getSize (t.size * 2) ≤ maxBytes := min_le_right _ _
    unfold grown NVTable.realloc
    split
    · exact hp
    · next new hrl =>
      dsimp only at hrl
      split_ifs at hrl
      · cases hrl
        exact hp.resize t.refCnt t.borrowed hle hm
      · cases hrl
        exact hp.resize 1 false hle hm
  | clone additionalSpace =>
    cases he
    have hs := hp.size_le
    refine hp.resize 1 false ?_ (min_le_right _ _)
    unfold getSize
    split_ifs <;> omega

end

end NVTable.Placed

theorem Fresh.placed {t : NVTable} (hf : Fresh t) : t.Placed := by
  have hl : Layout (fun _ => .empty) t := hf.layout
  have hm := hl.memory
  have hz : ∀ o ∈ t.slotOffsets, o = 0 := by
    intro o ho
    rw [slotOffsets, hf.dynEntries, map_nil, append_nil] at ho
    rcases hf with ⟨numStatic, numDyn, initLength, rfl⟩ | ⟨spaceLen, numStatic, hb⟩
    · exact (mem_replicate.mp ho).2
    · rw [initBorrowed] at hb
      split_ifs at hb
      cases hb
      exact (mem_replicate.mp ho).2
  exact { hm with
    dyn_lt := by
      rw [hf.dynEntries]
      exact Nat.two_pow_pos 16
    distinct := by
      have hn : t.slotOffsets.filter (· ≠ 0) = [] := by
        rw [filter_eq_nil_iff]
        intro o ho
        simpa using hz o ho
      rw [hn]
      exact nodup_nil
    live := fun o ho hne => absurd (hz o ho) hne }

theorem placed_of_reachable {names : ℕ → NVName} {t : NVTable} (hr : (system names).Reachable t) :
    t.Placed := by
  refine hr.invariant (I := NVTable.Placed) (fun t hf => Fresh.placed hf) ?_
  rintro t op t' hp ⟨ok, he⟩
  exact hp.exec he

/-- After any history, each slot that is set has an entry of its own inside the block: it does not
reach into the slots, and no two entries share a byte. -/
theorem entries_apart {names : ℕ → NVName} {t : NVTable} (hr : (system names).Reachable t) :
    (∀ o ∈ t.slotOffsets, o ≠ 0 → ∃ e, t.entries o = some e ∧ e.footprint ≤ e.allocLen ∧
      e.allocLen ≤ o ∧ o + t.ofsTableTop ≤ t.size) ∧
    (t.slotOffsets.filter (· ≠ 0)).Pairwise fun o o' => ∀ e ∈ t.entries o, ∀ e' ∈ t.entries o',
      o + e'.allocLen ≤ o' ∨ o' + e.allocLen ≤ o := by
  have hp := placed_of_reachable hr
  constructor
  · intro o ho hne
    obtain ⟨e, he⟩ := hp.live o ho hne
    obtain ⟨hf, ha, hu⟩ := hp.bytes o e he
    have := hp.fits
    exact ⟨e, he, hf, ha, by omega⟩
  · refine hp.distinct.imp fun hne e he e' he' => ?_
    rcases Nat.lt_or_gt_of_ne hne with hlt | hgt
    · exact .inl (hp.apart _ _ e e' he he' hlt)
    · exact .inr (hp.apart _ _ e' e he' he hgt)

/-- A built-in value, a dynamic one, and a dynamic one that refers to the built-in value. -/
def threeValues : NVTable :=
  [Op.addValue 1 [0x61, 0x62, 0x63] false, .addValue 9 [0x76] false,
    .addValueIndirect 7 ⟨1, 1, 2, 0⟩ false].foldl (execTable fun _ => .empty) (.new 2 0 0)

theorem entries_apart_threeValues :
    threeValues.slotOffsets = [20, 0, 64, 36] ∧
    (threeValues.entries 64).map NVEntry.indirect = some true ∧
    (∀ o ∈ [20, 64, 36], ∃ e, threeValues.entries o = some e ∧ e.footprint ≤ e.allocLen ∧
      e.allocLen ≤ o ∧ o + threeValues.ofsTableTop ≤ threeValues.size) ∧
    [20, 64, 36].Pairwise fun o o' => ∀ e ∈ threeValues.entries o, ∀ e' ∈ threeValues.entries o',
      o + e'.allocLen ≤ o' ∨ o' + e.allocLen ≤ o := by
  have h0 : ((system fun _ => .empty).restrict fun _ _ => True).Reachable (.new 2 0 0) :=
    .init (Or.inl ⟨2, 0, 0, rfl⟩)
  have h1 := reachable_execTable h0 (.addValue 1 [0x61, 0x62, 0x63] false) trivial
  have h2 := reachable_execTable h1 (.addValue 9 [0x76] false) trivial
  have h3 := reachable_execTable h2 (.addValueIndirect 7 ⟨1, 1, 2, 0⟩ false) trivial
  have hs : threeValues.slotOffsets = [20, 0, 64, 36] := by decide +kernel
  obtain ⟨hin, hap⟩ := entries_apart (t := threeValues) h3.of_restrict
  rw [hs] at hin hap
  exact ⟨hs, by decide +kernel, fun o ho => hin o (by grind) (by grind), hap⟩

end SyslogNg.NvTable
