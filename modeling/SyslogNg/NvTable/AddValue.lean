import SyslogNg.NvTable.Values

/-!
# NVTable: direct sets

`nv_table_add_value` on a table with the layout invariant: it always returns, it keeps
the invariant, and its result depends on the free bytes only. The walk that makes the
referrers of the overwritten handle direct changes no value, also when it stops half way.
-/
namespace SyslogNg.NvTable

open NVTable Function ViewStore List Option Nat

theorem le_bound (x : ℕ) : x ≤ bound x := by
  unfold bound
  omega

/-- Bytes a direct set takes from the free gap when the handle has the entry `e`. -/
def NVEntry.storeNeed (e : NVEntry) (name : NVName) (valueLen : ℕ) : ℕ :=
  if valueLen + directHdr + name.len + 2 ≤ e.allocLen then 0
  else bound (directHdr + name.len + valueLen + 2)

section Store

variable {names : ℕ → NVName} {t : NVTable} {h : ℕ}

theorem storedName_named {name : NVName} (hn : name = names h ∨ name = .empty) :
    t.storedName h name = names h ∨ t.storedName h name = .empty := by
  unfold storedName
  split_ifs
  · exact hn
  · exact Or.inr rfl

theorem storedName_len_le (name : NVName) : (t.storedName h name).len ≤ name.len := by
  unfold storedName
  split_ifs
  · exact le_rfl
  · exact Nat.zero_le _

theorem footprint_direct (b : Bool) (n : ℕ) (name : NVName) (value : Bytes) :
    (⟨b, n, .vdirect name value⟩ : NVEntry).footprint =
      directHdr + name.len + 1 + value.length + 1 := rfl

structure DirectEntry (names : ℕ → NVName) (h : ℕ) (value : Bytes) (e : NVEntry) : Prop where
  body : ∃ name, e.body = .vdirect name value
  named : e.name = names h ∨ e.name = .empty

theorem DirectEntry.indirect {value : Bytes} {e : NVEntry} (hd : DirectEntry names h value e) :
    e.indirect = false := by
  obtain ⟨name, hb⟩ := hd.body
  exact indirect_eq_false.mpr ⟨name, value, hb⟩

variable (hl : Layout names t) {name : NVName} {value : Bytes} {valueLen : ℕ}

include hl

theorem Layout.storeNew_direct (h0 : h ≠ 0) (hh : h < 2 ^ 16) (hn : name = names h ∨ name = .empty)
    (hln : value.length ≤ valueLen) (new : Bool) :
    ∃ r e', t.storeNew h (t.getEntry h).2 (directHdr + name.len + valueLen + 2)
        (.vdirect (t.storedName h name) value) new = some r ∧
      Outcome t h e' (t.slotNeed h + bound (directHdr + name.len + valueLen + 2)) r ∧
      DirectEntry names h value e' := by
  have hle := le_bound (directHdr + name.len + valueLen + 2)
  have hnm := storedName_len_le (t := t) (h := h) name
  obtain ⟨r, hr, -, ho⟩ := hl.memory.storeNew_spec h0 hh
    (directHdr + name.len + valueLen + 2) (.vdirect (t.storedName h name) value) new (by
      rw [footprint_direct]
      omega)
  exact ⟨r, _, hr, ho, ⟨_, rfl⟩, storedName_named hn⟩

theorem Layout.storeExisting_spec {o : ℕ} {e : NVEntry} (ha : t.addr h = some o)
    (he : t.entries o = some e) (hh : h < 2 ^ 16) (hn : name = names h ∨ name = e.name)
    (hln : value.length ≤ valueLen) :
    ∃ r e', storeExisting t h o (t.getEntry h).2 name value valueLen = some r ∧
      Outcome t h e' (e.storeNeed name valueLen) r ∧ DirectEntry names h value e' := by
  have hen : t.entryOf h = some e := entryOf_eq_some.mpr ⟨o, ha, he⟩
  have hnm := hl.named h e hen
  have hn' : name = names h ∨ name = .empty := by
    rcases hn with rfl | rfl
    · exact Or.inl rfl
    · exact hnm
  have hlen_le : e.name.len ≤ name.len := by
    rcases hn with rfl | rfl
    · rcases hnm with hnm | hnm <;> rw [hnm]
      exact Nat.zero_le _
    · exact le_rfl
  simp only [storeExisting, he]
  unfold NVEntry.storeNeed
  split_ifs with hf
  · -- in place: a direct entry keeps its name, an indirect one takes the given name
    have hi : ∃ n e', t.storeInPlace o e name value = t.writeEntry o e' ∧
        e' = { e with body := .vdirect n value } ∧ n.len ≤ name.len ∧
        (n = names h ∨ n = .empty) := by
      unfold storeInPlace
      cases hb : e.body with
      | vdirect oldName old =>
        have hol : e.name = oldName := by simp [NVEntry.name, hb]
        exact ⟨oldName, _, rfl, rfl, hol ▸ hlen_le, hol ▸ hnm⟩
      | vindirect slice old => exact ⟨name, _, rfl, rfl, le_rfl, hn'⟩
    obtain ⟨n, e', hs, rfl, hnl, hnn⟩ := hi
    obtain ⟨t', ht', hm', had, hu, hns, hd, hg, hsz⟩ := hl.memory.overwrite
      { e with body := .vdirect n value } ha he rfl (by
        rw [footprint_direct]
        dsimp only
        omega)
    refine ⟨⟨true, t', false⟩, { e with body := .vdirect n value }, by rw [hs, ht']; rfl, ?_,
      ⟨n, rfl⟩, hnn⟩
    exact ⟨hm', hsz, .of_eq hl.memory.sorted hns hd, fun k _ => by rw [had],
      fun _ => ⟨hu, by simp [hg]⟩, by simp⟩
  · have h0 : h ≠ 0 := by
      rintro rfl
      cases ha
    have hsl := slotNeed_owned (hl.memory.sorted.owned_of_addr ha)
    obtain ⟨r, e', hr, ho, hd⟩ := hl.storeNew_direct h0 hh hn' hln false
    rw [hsl, Nat.zero_add] at ho
    exact ⟨r, e', hr, ho, hd⟩

/-- Overwriting a handle without referrers. -/
theorem Layout.outcome_direct {e' : NVEntry} {need : ℕ} {r : AddResult} (hun : Unviewed t.cells h)
    (ho : Outcome t h e' need r) (hd : DirectEntry names h value e') : Layout names r.table ∧
      (r.ok = true → r.table.values = update t.values h (.ofBytes value)) ∧
      (r.ok = false → r.table.values = t.values) := by
  obtain ⟨n, hb⟩ := hd.body
  cases hok : r.ok with
  | true =>
    obtain ⟨hu, -⟩ := ho.stored hok
    refine ⟨hl.update_direct ho.memory hun hu hd.named hd.indirect, fun _ => ?_, by simp⟩
    exact values_update_direct hun hu hb
  | false =>
    obtain ⟨hu, -⟩ := ho.failed hok
    exact ⟨hl.congr ho.memory hu, by simp, fun _ => Layout.values_congr hu⟩

end Store

/-! ### The walk over the referrers -/

namespace NVTable

def slotCount (t : NVTable) : ℕ := t.numStatic + t.dynEntries.length

def slotHandle (t : NVTable) (i : ℕ) : Option ℕ := (t.slotAt i).map Prod.fst

variable {t t' : NVTable}

theorem slotHandle_eq (t : NVTable) (i : ℕ) : t.slotHandle i =
    if i < t.numStatic then some (i + 1) else t.handles[i - t.numStatic]? := by
  unfold slotHandle slotAt
  split_ifs
  · rfl
  · simp [handles, Function.comp_def]

section

variable (hn : t'.numStatic = t.numStatic) (hd : t'.handles = t.handles)
include hn hd

theorem slotHandle_congr : t'.slotHandle = t.slotHandle := by
  funext i
  rw [slotHandle_eq, slotHandle_eq, hn, hd]

theorem slotCount_congr : t'.slotCount = t.slotCount := by
  rw [slotCount, slotCount, hn, ← length_handles, ← length_handles, hd]

end

theorem slotHandle_none_iff {i : ℕ} : t.slotHandle i = none ↔ t.slotCount ≤ i := by
  rw [slotHandle_eq, slotCount]
  split_ifs with hi
  · simp
    omega
  · rw [List.getElem?_eq_none_iff, length_handles]
    omega

theorem Sorted.slotHandle_inj (hs : t.Sorted) {i j k : ℕ} (hi : t.slotHandle i = some k)
    (hj : t.slotHandle j = some k) : i = j := by
  rw [slotHandle_eq] at hi hj
  split_ifs at hi hj with hi' hj' hj'
  · simp only [Option.some.injEq] at hi hj
    omega
  · simp only [Option.some.injEq] at hi
    have := hs.dynamic k (mem_of_getElem? hj)
    omega
  · simp only [Option.some.injEq] at hj
    have := hs.dynamic k (mem_of_getElem? hi)
    omega
  · have hnd : t.handles.Nodup := hs.increasing.imp ne_of_lt
    obtain ⟨hlt, -⟩ := List.getElem?_eq_some_iff.mp hi
    have := (List.getElem?_inj hlt hnd).mp (hi.trans hj.symm)
    omega

theorem Sorted.slotAt_addr (hs : t.Sorted) {i k ofs : ℕ} (hi : t.slotAt i = some (k, ofs)) :
    t.addr k = getEntryAtOfs ofs := by
  unfold slotAt at hi
  split_ifs at hi with hlt
  · cases hi
    rw [addr_static (by omega) hlt]
    rfl
  · obtain ⟨d, hd, he⟩ := map_eq_some_iff.mp hi
    cases he
    exact hs.addr_mem (mem_of_getElem? hd)

theorem Sorted.exists_slotHandle (hs : t.Sorted) {k o : ℕ} (ha : t.addr k = some o) :
    ∃ i, t.slotHandle i = some k := by
  have h0 : k ≠ 0 := by
    rintro rfl
    cases ha
  rcases hs.owned_of_addr ha with hst | hm
  · exact ⟨k - 1, by rw [slotHandle_eq, if_pos (by omega)]; congr 1; omega⟩
  · obtain ⟨i, hi, hk⟩ := mem_iff_getElem.mp hm
    refine ⟨t.numStatic + i, ?_⟩
    rw [slotHandle_eq, if_neg (by omega), Nat.add_sub_cancel_left]
    exact List.getElem?_eq_some_iff.mpr ⟨hi, hk⟩

/-- Bytes it takes to make the entry `e` direct if it refers to `target`. -/
def directNeed (t : NVTable) (target : ℕ) (e : NVEntry) : ℕ :=
  match e.body with
  | .vdirect .. => 0
  | .vindirect slice name =>
    if slice.handle = target then
      e.storeNeed name (getSize ((slice.cut (t.values target)).length % 2 ^ 64).toNat)
    else 0

def slotDirectNeed (t : NVTable) (target i : ℕ) : ℕ :=
  ((t.slotHandle i).bind t.entryOf).elim 0 (t.directNeed target)

/-- Bytes the walk over the referrers of `target` needs. -/
def walkNeed (t : NVTable) (target : ℕ) : ℕ :=
  ∑ i ∈ Finset.range t.slotCount, t.slotDirectNeed target i

end NVTable

section Walk

variable {names : ℕ → NVName} {t : NVTable} {target : ℕ}

theorem directNeed_congr {t' : NVTable} (hv : t'.values = t.values) :
    t'.directNeed target = t.directNeed target := by
  funext e
  unfold directNeed
  rw [hv]

variable {slice : NVReferencedSlice}

theorem NVReferencedSlice.cut_past {v : NVValue}
    (h : v.length < slice.ofs) : slice.cut v = .null := if_pos h

theorem NVReferencedSlice.cut_within {v : NVValue} (h : slice.ofs ≤ v.length) : slice.cut v =
      ⟨(v.bytes.drop slice.ofs).take
          (min (((slice.ofs + slice.len) % 2 ^ 32 : ℕ) : ℤ) v.length - slice.ofs).toNat,
        min (((slice.ofs + slice.len) % 2 ^ 32 : ℕ) : ℤ) v.length - slice.ofs⟩ :=
  if_neg (not_lt.mpr h)

/-- A slice of a stored value is reported with its real length unless it wraps around. -/
theorem cut_ofBytes (slice : NVReferencedSlice) (value : Bytes) :
    (slice.cut (.ofBytes value)).length < 0 ∧ -value.length ≤ (slice.cut (.ofBytes value)).length ∨
      ((slice.cut (.ofBytes value)).bytes.length : ℤ) = (slice.cut (.ofBytes value)).length ∧
        (slice.cut (.ofBytes value)).length ≤ value.length := by
  rcases lt_or_ge (NVValue.ofBytes value).length slice.ofs with hp | hw
  · right
    simp [NVReferencedSlice.cut_past hp, NVValue.null]
  · rw [NVReferencedSlice.cut_within hw]
    simp only [NVValue.ofBytes, length_take, length_drop] at *
    omega

theorem NVTable.Memory.freeGap_nonneg (hm : t.Memory) : 0 ≤ t.freeGap := by
  have := hm.fits
  unfold freeGap
  omega

theorem NVTable.Memory.freeGap_le (hm : t.Memory) : t.freeGap ≤ maxBytes := by
  have := hm.size_le
  unfold freeGap
  omega

theorem NVTable.Memory.allocLen_le (hm : t.Memory) {h : ℕ} {e : NVEntry}
    (he : t.entryOf h = some e) : e.footprint ≤ e.allocLen ∧ e.allocLen ≤ maxBytes := by
  obtain ⟨o, -, ho⟩ := entryOf_eq_some.mp he
  have := hm.bytes o e ho
  have := hm.fits
  have := hm.size_le
  omega

/-- When there is room for the copy of a slice, the copy is exact. -/
theorem Layout.copy_eq (hl : Layout names t) {k : ℕ} {e : NVEntry}
    {name : NVName} (he : t.entryOf k = some e) (hb : e.body = .vindirect slice name)
    (hr : (e.storeNeed name (getSize ((slice.cut (t.values slice.handle)).length % 2 ^ 64).toNat)
      : ℤ) ≤ t.freeGap) : NVValue.ofBytes ((slice.cut (t.values slice.handle)).bytes.take
      (getSize ((slice.cut (t.values slice.handle)).length % 2 ^ 64).toNat)) = t.values k := by
  obtain ⟨e', he', hdr, -⟩ := hl.marked k e slice name he hb
  obtain ⟨name', value, hb'⟩ := indirect_eq_false.mp hdr
  have hc' := cells_direct he' hb'
  have hv : t.values slice.handle = .ofBytes value := read_own hc'
  have hvk : t.values k = slice.cut (.ofBytes value) := read_view (cells_indirect he hb) hc'
  rw [hvk, hv]
  rw [hv] at hr
  obtain ⟨hf', ha'⟩ := hl.memory.allocLen_le he'
  obtain ⟨-, ha⟩ := hl.memory.allocLen_le he
  have hg := hl.memory.freeGap_le
  have hln : value.length ≤ maxBytes := by
    have : e'.footprint = directHdr + name'.len + 1 + value.length + 1 := by
      simp [NVEntry.footprint, hb']
    omega
  rcases cut_ofBytes slice value with ⟨hng, hlw⟩ | ⟨hby, hle⟩
  · -- a negative length asks for more bytes than any table has
    exfalso
    have hs : getSize ((slice.cut (.ofBytes value)).length % 2 ^ 64).toNat = maxBytes := by
      unfold maxBytes at hln
      unfold getSize maxBytes
      omega
    rw [hs, NVEntry.storeNeed, if_neg (by omega)] at hr
    have := le_bound (directHdr + name.len + maxBytes + 2)
    omega
  · have hs : getSize ((slice.cut (.ofBytes value)).length % 2 ^ 64).toNat =
        (slice.cut (.ofBytes value)).bytes.length := by
      unfold maxBytes at hln
      unfold getSize maxBytes
      omega
    rw [hs, take_length, NVValue.ofBytes, hby]

/-- `e` is not a slice of the target. -/
def Detached (target : ℕ) (e : Option NVEntry) : Prop :=
  ∀ slice name, e.map NVEntry.body = some (.vindirect slice name) → slice.handle ≠ target

/-- The walk changes no value, no slot and only the entries that refer to the target. -/
structure Walked (names : ℕ → NVName) (target : ℕ) (t t' : NVTable) : Prop where
  layout : Layout names t'
  size : t'.size = t.size
  numStatic : t'.numStatic = t.numStatic
  handles : t'.handles = t.handles
  values : t'.values = t.values
  addr : t'.addr target = t.addr target
  kept : ∀ k, Detached target (t.entryOf k) → t'.entryOf k = t.entryOf k

theorem Walked.refl (hl : Layout names t) : Walked names target t t :=
  ⟨hl, rfl, rfl, rfl, rfl, rfl, fun _ _ => rfl⟩

theorem Walked.trans {t' t'' : NVTable} (h1 : Walked names target t t')
    (h2 : Walked names target t' t'') : Walked names target t t'' := by
  refine ⟨h2.layout, h2.size.trans h1.size, h2.numStatic.trans h1.numStatic,
    h2.handles.trans h1.handles,
    h2.values.trans h1.values, h2.addr.trans h1.addr, fun k hk => ?_⟩
  have h1k := h1.kept k hk
  rw [h2.kept k (h1k ▸ hk), h1k]

/-- An entry is never a slice of its own handle. -/
theorem Layout.detached_self (hl : Layout names t) : Detached target (t.entryOf target) := by
  rintro slice name hs rfl
  obtain ⟨e, he, hb⟩ := map_eq_some_iff.mp hs
  obtain ⟨e', he', hd, -⟩ := hl.marked _ e slice name he hb
  rw [he] at he'
  cases he'
  simp [NVEntry.indirect, hb] at hd

theorem Walked.entry {t' : NVTable} (hl : Layout names t) (hw : Walked names target t t') :
    t'.entryOf target = t.entryOf target := hw.kept target hl.detached_self

theorem unviewed_of_detached (hd : ∀ k, Detached target (t.entryOf k)) :
    Unviewed t.cells target := by
  intro j f hj
  obtain ⟨e, slice, name, he, hb, hk, -⟩ := cells_eq_view hj
  exact hd j slice name (by simp [he, hb]) hk

theorem getEntry_eq {h o : ℕ} (ha : t.addr h = some o) :
    t.getEntry h = (some o, (t.getEntry h).2) := Prod.ext ha rfl

theorem addValueFrom_some {fuel h o : ℕ} {slot : Option ℕ} {e : NVEntry} {name : NVName}
    {value : Bytes} {valueLen : ℕ} {new : Bool} (hg : t.getEntry h = (some o, slot))
    (ho : t.entries o = some e) : addValueFrom (fuel + 1) t h name value valueLen new =
      if e.indirect = false ∧ e.referenced = true then
        match foreachEntry (makeDirect (addValueFrom fuel) h) t with
        | none => none
        | some (true, t) => some ⟨false, t, false⟩
        | some (false, t) =>
          storeExisting t h o slot name (value.take (getSize valueLen)) (getSize valueLen)
      else storeExisting t h o slot name (value.take (getSize valueLen)) (getSize valueLen) := by
  rw [addValueFrom]
  dsimp only
  rw [hg]
  dsimp only
  generalize t.entries o = entry at ho ⊢
  subst ho
  rfl

/-- Making one referrer direct: its entry is indirect, so the set does not walk again. -/
theorem Layout.addValueFrom_indirect (hl : Layout names t) (fuel : ℕ) {k : ℕ} (hk : k < 2 ^ 16)
    {e : NVEntry} {name : NVName} (he : t.entryOf k = some e)
    (hb : e.body = .vindirect slice name) (value : Bytes) (valueLen : ℕ) :
    ∃ r e', addValueFrom (fuel + 1) t k name value valueLen false = some r ∧
      Outcome t k e' (e.storeNeed name (getSize valueLen)) r ∧
      DirectEntry names k (value.take (getSize valueLen)) e' := by
  obtain ⟨o, ha, ho⟩ := entryOf_eq_some.mp he
  have hnm : name = e.name := by simp [NVEntry.name, hb]
  have hi : e.indirect = true := indirect_eq_true.mpr ⟨slice, name, hb⟩
  obtain ⟨r, e', hr, hot, hd⟩ := hl.storeExisting_spec ha ho hk (Or.inr hnm)
    (length_take_le (getSize valueLen) value)
  refine ⟨r, e', ?_, hot, hd⟩
  rw [addValueFrom_some (getEntry_eq ha) ho, if_neg (by simp [hi])]
  exact hr

theorem Layout.makeDirect_spec (hl : Layout names t) (fuel : ℕ) {k ofs : ℕ} {et e : NVEntry}
    (hk : k < 2 ^ 16)
    (ht : t.entryOf target = some et) (hdr : et.indirect = false) (ha : t.addr k = some ofs)
    (ho : t.entries ofs = some e) :
    ∃ b t', makeDirect (addValueFrom (fuel + 1)) target k ofs t = some (b, t') ∧
      Walked names target t t' ∧ (∀ j ≠ k, t'.entryOf j = t.entryOf j) ∧
      (b = false → Detached target (t'.entryOf k) ∧
        t'.freeGap = t.freeGap - t.directNeed target e) ∧
      (b = true → t.freeGap < t.directNeed target e) := by
  have he : t.entryOf k = some e := entryOf_eq_some.mpr ⟨ofs, ha, ho⟩
  simp only [makeDirect, ho, directNeed]
  cases hb : e.body with
  | vdirect name value =>
    refine ⟨false, t, rfl, .refl hl, fun _ _ => rfl, fun _ => ⟨?_, by simp⟩, by simp⟩
    intro slice name' hs
    simp [he, hb] at hs
  | vindirect slice name =>
    by_cases hs : slice.handle = target
    · subst hs
      have hne : k ≠ slice.handle := by
        rintro rfl
        rw [he] at ht
        cases ht
        simp [NVEntry.indirect, hb] at hdr
      simp only [hl.resolveIndirect_eq]
      set c := slice.cut (t.values slice.handle) with hc
      obtain ⟨r, e', hr, hot, hd⟩ := hl.addValueFrom_indirect fuel hk he hb c.bytes
        (c.length % 2 ^ 64).toNat
      have hun := hl.flat.unviewed_of_view (cells_indirect he hb)
      obtain ⟨hl', hvk, hvf⟩ := hl.outcome_direct hun hot hd
      have how := hl.memory.sorted.owned_of_addr ha
      have hhn : r.table.handles = t.handles := by
        rcases hot.step.handles with hh | ⟨hd, hm, -⟩
        · exact hh
        · exact absurd how (not_or.mpr ⟨not_le.mpr hd, hm⟩)
      refine ⟨!r.ok, r.table, by rw [hr]; rfl, ?_, ?_, ?_, ?_⟩
      · have hv : r.table.values = t.values := by
          cases hok : r.ok with
          | true =>
            obtain ⟨-, hg⟩ := hot.stored hok
            have hrm := hot.memory.freeGap_nonneg
            rw [hvk hok, hl.copy_eq he hb (by rw [← hc]; omega), update_eq_self]
          | false => exact hvf hok
        refine ⟨hl', hot.size, hot.step.numStatic, hhn, hv, hot.addr _ hne.symm, fun j hj => ?_⟩
        have hjk : j ≠ k := by
          rintro rfl
          exact hj slice name (by simp [he, hb]) rfl
        cases hok : r.ok with
        | true => rw [(hot.stored hok).1, update_of_ne hjk]
        | false => rw [(hot.failed hok).1]
      · intro j hj
        cases hok : r.ok with
        | true => rw [(hot.stored hok).1, update_of_ne hj]
        | false => rw [(hot.failed hok).1]
      · intro hok
        obtain ⟨hu, hg⟩ := hot.stored (by simpa using hok)
        refine ⟨?_, hg⟩
        obtain ⟨n, hb'⟩ := hd.body
        intro slice' name' hs'
        simp [hu, hb'] at hs'
      · intro hok
        exact (hot.failed (by simpa using hok)).2
    · refine ⟨false, t, by simp only [if_neg hs], .refl hl, fun _ _ => rfl, fun _ => ⟨?_, ?_⟩,
        by simp⟩
      · intro slice' name' hs'
        simp only [he, map_some, hb, Option.some.injEq] at hs'
        obtain ⟨rfl, -⟩ := hs'
        exact hs
      · simp [hs]

theorem NVTable.Memory.slot_lt (hm : t.Memory) {i k : ℕ} (hi : t.slotHandle i = some k) :
    k < 2 ^ 16 := by
  rw [slotHandle_eq] at hi
  split_ifs at hi with hlt
  · have := hm.static_lt
    simp only [Option.some.injEq] at hi
    omega
  · exact hm.below k (mem_of_getElem? hi)

/-- The walk from slot `i` on, when the slots before it are done. -/
theorem Layout.walkFrom {n : ℕ} {et : NVEntry} (hdr : et.indirect = false) :
    ∀ (fuel i : ℕ) (t : NVTable), Layout names t → t.entryOf target = some et →
      (∀ j k, j < i → t.slotHandle j = some k → Detached target (t.entryOf k)) →
      i ≤ t.slotCount → t.slotCount < i + fuel →
      ∃ b t', foreachEntryFrom (makeDirect (addValueFrom (n + 1)) target) fuel i t = some (b, t') ∧
        Walked names target t t' ∧ (b = false → Unviewed t'.cells target ∧
          t'.freeGap = t.freeGap - ∑ j ∈ Finset.Ico i t.slotCount, t.slotDirectNeed target j) ∧
        (b = true → t.freeGap < ∑ j ∈ Finset.Ico i t.slotCount, t.slotDirectNeed target j) := by
  intro fuel
  induction fuel with
  | zero =>
    intro i t _ _ _ hle hfl
    omega
  | succ fuel ih =>
    intro i t hl ht hp hle hfl
    rw [foreachEntryFrom]
    cases hsl : t.slotAt i with
    | none =>
      have hen : t.slotCount ≤ i := slotHandle_none_iff.mp (by simp [slotHandle, hsl])
      refine ⟨false, t, rfl, .refl hl, fun _ => ⟨unviewed_of_detached fun k => ?_, ?_⟩, by simp⟩
      · cases ha : t.addr k with
        | none =>
          intro slice name hs
          simp [entryOf, ha] at hs
        | some o =>
          obtain ⟨j, hj⟩ := hl.memory.sorted.exists_slotHandle ha
          refine hp j k ?_ hj
          by_contra hji
          have := slotHandle_none_iff.mpr (hen.trans (not_lt.mp hji))
          rw [hj] at this
          cases this
      · simp [Finset.Ico_eq_empty_of_le hen]
    | some p =>
      obtain ⟨k, ofs⟩ := p
      have hk : t.slotHandle i = some k := by simp [slotHandle, hsl]
      have hi : i < t.slotCount := by
        by_contra hle
        rw [slotHandle_none_iff.mpr (not_lt.mp hle)] at hk
        cases hk
      have had := hl.memory.sorted.slotAt_addr hsl
      rw [Finset.sum_eq_sum_Ico_succ_bot hi]
      by_cases h0 : ofs = 0
      · have hnn : t.entryOf k = none := by simp [entryOf, had, h0, getEntryAtOfs]
        have hnd : t.slotDirectNeed target i = 0 := by simp [slotDirectNeed, hk, hnn]
        simp only [h0]
        rw [hnd, Nat.zero_add]
        refine ih (i + 1) t hl ht ?_ (by omega) (by omega)
        intro j k' hj hk'
        rcases Nat.lt_succ_iff_lt_or_eq.mp hj with hj | rfl
        · exact hp j k' hj hk'
        · rw [hk] at hk'
          cases hk'
          simp [hnn, Detached]
      · rw [getEntryAtOfs_pos h0] at had
        obtain ⟨e, ho⟩ := hl.memory.live k ofs had
        have he : t.entryOf k = some e := entryOf_eq_some.mpr ⟨ofs, had, ho⟩
        have hnd : t.slotDirectNeed target i = t.directNeed target e := by
          simp [slotDirectNeed, hk, he]
        obtain ⟨b, t1, hm, hw, hf, hdn, hfu⟩ :=
          hl.makeDirect_spec n (hl.memory.slot_lt hk) ht hdr had ho
        simp only [h0, hm]
        rw [hnd]
        cases b with
        | true =>
          refine ⟨true, t1, rfl, hw, by simp, fun _ => ?_⟩
          have := hfu rfl
          omega
        | false =>
          obtain ⟨hdt, hgp⟩ := hdn rfl
          have hss := slotHandle_congr hw.numStatic hw.handles
          have hc := slotCount_congr hw.numStatic hw.handles
          have hot : ∀ j k', j ≠ i → t.slotHandle j = some k' → t1.entryOf k' = t.entryOf k' := by
            rintro j k' hj hk'
            refine hf k' ?_
            rintro rfl
            exact hj (hl.memory.sorted.slotHandle_inj hk' hk)
          have hsm : ∑ j ∈ Finset.Ico (i + 1) t.slotCount, t1.slotDirectNeed target j =
              ∑ j ∈ Finset.Ico (i + 1) t.slotCount, t.slotDirectNeed target j := by
            refine Finset.sum_congr rfl fun j hj => ?_
            unfold slotDirectNeed
            rw [hss, directNeed_congr hw.values]
            cases hk' : t.slotHandle j with
            | none => rfl
            | some k' =>
              have hji : j ≠ i := by
                rw [Finset.mem_Ico] at hj
                omega
              rw [bind_some, bind_some, hot j k' hji hk']
          obtain ⟨b, t2, hr, hw2, hdone2, hfull2⟩ :=
            ih (i + 1) t1 hw.layout ((hw.entry hl).trans ht)
            (by
              intro j k' hj hk'
              rw [hss] at hk'
              by_cases hji : j = i
              · subst hji
                rw [hk] at hk'
                cases hk'
                exact hdt
              · rw [hot j k' hji hk']
                exact hp j k' (by omega) hk')
            (by omega) (by omega)
          rw [hc, hsm, hgp] at hdone2 hfull2
          refine ⟨b, t2, hr, hw.trans hw2, fun hb => ?_, fun hb => ?_⟩
          · obtain ⟨hun, hg⟩ := hdone2 hb
            refine ⟨hun, ?_⟩
            rw [hg, cast_add]
            ring
          · have := hfull2 hb
            omega

theorem NVTable.Memory.slotCount_lt (hm : t.Memory) : t.slotCount < slotLimit := by
  have hnd : t.handles.Nodup := hm.sorted.increasing.imp ne_of_lt
  have hs : t.handles ⊆ List.range (2 ^ 16) := fun k hk => mem_range.mpr (hm.below k hk)
  have hln := (subperm_of_subset hnd hs).length_le
  have hst := hm.static_lt
  rw [length_range, length_handles] at hln
  unfold slotCount slotLimit
  omega

theorem Layout.walk (hl : Layout names t) {n : ℕ} {et : NVEntry} (ht : t.entryOf target = some et)
    (hdr : et.indirect = false) :
    ∃ b t', foreachEntry (makeDirect (addValueFrom (n + 1)) target) t = some (b, t') ∧
      Walked names target t t' ∧
      (b = false → Unviewed t'.cells target ∧ t'.freeGap = t.freeGap - t.walkNeed target) ∧
      (b = true → t.freeGap < t.walkNeed target) := by
  have hc := hl.memory.slotCount_lt
  have hw := @Layout.walkFrom names target n et hdr slotLimit 0 t hl ht
    (by omega) (Nat.zero_le _) (by omega)
  simpa only [foreachEntry, walkNeed, Finset.range_eq_Ico] using hw

end Walk

/-! ### The whole set -/

/-- Bytes `nv_table_add_value` needs in the free gap. -/
def NVTable.addNeed (t : NVTable) (h : ℕ) (name : NVName) (valueLen : ℕ) (wantNew : Bool) : ℕ :=
  match t.entryOf h with
  | none =>
    if wantNew = false ∧ valueLen = 0 then 0
    else t.slotNeed h + bound (directHdr + name.len + valueLen + 2)
  | some e =>
    (if e.indirect = false ∧ e.referenced = true then t.walkNeed h else 0) +
      e.storeNeed name valueLen

/-- What a set of `h` leaves behind. -/
structure SetOutcome (names : ℕ → NVName) (t : NVTable) (h : ℕ) (v : NVValue) (need : ℕ)
    (r : AddResult) : Prop where
  layout : Layout names r.table
  size : r.table.size = t.size
  stored : r.ok = true → r.table.values = update t.values h v
  failed : r.ok = false → r.table.values = t.values ∧ t.freeGap < need
  kept : r.ok = false → ∀ k, Detached h (t.entryOf k) → r.table.entryOf k = t.entryOf k

section Add

variable {names : ℕ → NVName} {t : NVTable} {h : ℕ} (hl : Layout names t) {value : Bytes}
  {valueLen : ℕ}

include hl

theorem Layout.setOutcome {e' : NVEntry} {need : ℕ} {r : AddResult} (hun : Unviewed t.cells h)
    (ho : Outcome t h e' need r) (hd : DirectEntry names h value e') :
    SetOutcome names t h (.ofBytes value) need r := by
  obtain ⟨hl', hok, hf⟩ := hl.outcome_direct hun ho hd
  exact ⟨hl', ho.size, hok, fun hr => ⟨hf hr, (ho.failed hr).2⟩,
    fun hr k _ => by rw [(ho.failed hr).1]⟩

theorem Layout.addValueFrom_new {n : ℕ} {new : Bool} (h0 : h ≠ 0) (hh : h < 2 ^ 16)
    (ha : t.addr h = none) : ∃ r, addValueFrom (n + 1) t h (names h) value valueLen new = some r ∧
      SetOutcome names t h (.ofBytes (value.take (getSize valueLen)))
        (t.addNeed h (names h) (getSize valueLen) new) r := by
  have he : t.entryOf h = none := hl.memory.entryOf_eq_none.mpr ha
  have hc : t.cells h = none := by simp [cells, he]
  have hg : t.getEntry h = (none, (t.getEntry h).2) := Prod.ext ha rfl
  have hrn : addValueFrom (n + 1) t h (names h) value valueLen new =
      if new = false ∧ getSize valueLen = 0 then some ⟨true, t, false⟩
      else t.storeNew h (t.getEntry h).2 (directHdr + (names h).len + getSize valueLen + 2)
        (.vdirect (t.storedName h (names h)) (value.take (getSize valueLen))) new := by
    generalize (t.getEntry h).2 = slot at hg
    simp only [addValueFrom, hg]
  rw [hrn, addNeed, he]
  split_ifs with hnp
  · refine ⟨_, rfl, hl, rfl, fun _ => ?_, by simp, by simp⟩
    have hv : t.values h = .null := read_none hc
    rw [hnp.2]
    exact (update_eq_self_iff.mpr hv.symm).symm
  · obtain ⟨r, e', hr, ho, hd⟩ := hl.storeNew_direct h0 hh (Or.inl rfl)
      (length_take_le (getSize valueLen) value) new
    exact ⟨r, hr, hl.setOutcome (hl.flat.unviewed_of_none hc) ho hd⟩

theorem Layout.addValueFrom_existing {n : ℕ} {new : Bool} (hh : h < 2 ^ 16) {o : ℕ} {e : NVEntry}
    (ha : t.addr h = some o) (he : t.entries o = some e) :
    ∃ r, addValueFrom (n + 2) t h (names h) value valueLen new = some r ∧
      SetOutcome names t h (.ofBytes (value.take (getSize valueLen)))
        (t.addNeed h (names h) (getSize valueLen) new) r := by
  have hen : t.entryOf h = some e := entryOf_eq_some.mpr ⟨o, ha, he⟩
  have hln : (value.take (getSize valueLen)).length ≤ getSize valueLen := by simp
  rw [addValueFrom_some (getEntry_eq ha) he, addNeed, hen]
  dsimp only
  by_cases hwl : e.indirect = false ∧ e.referenced = true
  · rw [if_pos hwl, if_pos hwl]
    obtain ⟨b, t1, hr, hw, hdn, hfl⟩ := hl.walk hen hwl.1
    rw [hr]
    cases b with
    | true =>
      refine ⟨_, rfl, hw.layout, hw.size, by simp, fun _ => ⟨hw.values, ?_⟩, fun _ => hw.kept⟩
      have := hfl rfl
      omega
    | false =>
      obtain ⟨hun, hg⟩ := hdn rfl
      have ha1 : t1.addr h = some o := hw.addr.trans ha
      have he1 : t1.entries o = some e := by
        obtain ⟨o', ha', he'⟩ := entryOf_eq_some.mp ((hw.entry hl).trans hen)
        rw [ha1] at ha'
        cases ha'
        exact he'
      obtain ⟨r, e', hr, ho, hd⟩ := hw.layout.storeExisting_spec ha1 he1 hh (Or.inl rfl) hln
      have hs := hw.layout.setOutcome hun ho hd
      rw [← getEntry_snd_congr hw.numStatic hw.handles]
      refine ⟨r, hr, hs.layout, hs.size.trans hw.size, fun hok => ?_, fun hok => ?_,
        fun hok k hk => ?_⟩
      · rw [hs.stored hok, hw.values]
      · obtain ⟨hv, hlt⟩ := hs.failed hok
        refine ⟨hv.trans hw.values, ?_⟩
        omega
      · have hwk := hw.kept k hk
        rw [hs.kept hok k (hwk ▸ hk), hwk]
  · rw [if_neg hwl, if_neg hwl, Nat.zero_add]
    obtain ⟨r, e', hr, ho, hd⟩ := hl.storeExisting_spec ha he hh (Or.inl rfl) hln
    refine ⟨r, hr, hl.setOutcome (hl.unviewed ?_) ho hd⟩
    intro f hf hdr
    rw [hen] at hf
    cases hf
    by_contra href
    exact hwl ⟨hdr, by simpa using href⟩

theorem Layout.addValue_spec (h0 : h ≠ 0) (hh : h < 2 ^ 16) (value : Bytes) (valueLen : ℕ)
    (new : Bool) : ∃ r, addValue t h (names h) value valueLen new = some r ∧
      SetOutcome names t h (.ofBytes (value.take (getSize valueLen)))
        (t.addNeed h (names h) (getSize valueLen) new) r := by
  cases ha : t.addr h with
  | none => exact hl.addValueFrom_new h0 hh ha
  | some o =>
    obtain ⟨e, he⟩ := hl.memory.live h o ha
    exact hl.addValueFrom_existing hh ha he

end Add

end SyslogNg.NvTable
