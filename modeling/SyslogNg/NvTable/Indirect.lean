import SyslogNg.NvTable.AddValue

/-!
# NVTable: indirect sets

`nv_table_add_value_indirect` either copies the slice, when the referenced entry is
itself indirect, or stores a reference to it. Before it overwrites a direct entry that
others refer to, it walks over the referrers and takes the completed walk for a failure.
-/
namespace SyslogNg.NvTable

open NVTable Function ViewStore List Option NVReferencedSlice

/-- Bytes a reference takes from the free gap when the handle has the entry `e`. -/
def NVEntry.indirectNeed (e : NVEntry) (name : NVName) : ℕ :=
  if indirectHdr + name.len + 1 ≤ e.allocLen then 0 else bound (indirectHdr + name.len + 1)

namespace NVTable

structure IndirectWalks (t : NVTable) (h : ℕ) (slice : NVReferencedSlice) : Prop where
  ne : h ≠ slice.handle
  ref : ∃ e, t.entryOf slice.handle = some e ∧ e.indirect = false
  target : ∃ e, t.entryOf h = some e ∧ e.indirect = false ∧ e.referenced = true

/-- Bytes `nv_table_add_value_indirect` needs in the free gap. -/
def indirectNeed (t : NVTable) (h : ℕ) (name : NVName) (slice : NVReferencedSlice)
    (wantNew : Bool) : ℕ :=
  match t.entryOf slice.handle with
  | none => 0
  | some ref =>
    if ref.indirect = true ∨ h = slice.handle then
      t.addNeed h name (getSize (slice.narrow (t.values slice.handle).length).len) wantNew
    else
      match t.entryOf h with
      | none =>
        if wantNew = false ∧ slice.len = 0 then 0
        else t.slotNeed h + bound (indirectHdr + name.len + 1)
      | some e =>
        (if e.indirect = false ∧ e.referenced = true then t.walkNeed h else 0) + e.indirectNeed name

end NVTable

/-- The bytes `[ofs, min (ofs + len) length)` of a value. -/
def NVValue.slice (v : NVValue) (ofs len : ℕ) : NVValue := .ofBytes ((v.bytes.drop ofs).take len)

/-- The length reported for a value is the number of its bytes, unless it wraps around. -/
structure NVValue.Proper (v : NVValue) : Prop where
  length_eq : v.length < 0 ∧ v.bytes = [] ∨ v.length = v.bytes.length
  length_le : v.bytes.length ≤ maxBytes

section Slices

variable {slice : NVReferencedSlice} {v : NVValue}

theorem cut_bytes_of_neg (hn : (slice.cut v).length < 0) : (slice.cut v).bytes = [] := by
  rcases lt_or_ge v.length slice.ofs with hp | hw
  · rw [cut_past hp]
    rfl
  · rw [cut_within hw] at hn ⊢
    rw [Int.toNat_of_nonpos hn.le, take_zero]

theorem Layout.values_proper {names : ℕ → NVName} {t : NVTable} (hl : Layout names t) (h : ℕ) :
    (t.values h).Proper := by
  cases he : t.entryOf h with
  | none =>
    rw [values, read_none (by simp [cells, he])]
    exact ⟨Or.inr rfl, Nat.zero_le _⟩
  | some e =>
    have hdr : ∀ {k : ℕ} {f : NVEntry} {name : NVName} {value : Bytes},
        t.entryOf k = some f → f.body = .vdirect name value → value.length ≤ maxBytes := by
      intro k f name value hf hb
      have hft : f.footprint = directHdr + name.len + 1 + value.length + 1 := by
        simp [NVEntry.footprint, hb]
      have := hl.memory.allocLen_le hf
      omega
    cases hb : e.body with
    | vdirect name value =>
      rw [values, read_own (cells_direct he hb)]
      exact ⟨Or.inr rfl, hdr he hb⟩
    | vindirect slice name =>
      obtain ⟨e', he', hd, -⟩ := hl.marked h e slice name he hb
      obtain ⟨name', value, hb'⟩ := indirect_eq_false.mp hd
      have hlen := hdr he' hb'
      rw [values, read_view (cells_indirect he hb) (cells_direct he' hb')]
      rcases cut_ofBytes slice value with ⟨hn, -⟩ | ⟨hln, hle⟩
      · have hnl := cut_bytes_of_neg hn
        exact ⟨Or.inl ⟨hn, hnl⟩, by simp [hnl]⟩
      · exact ⟨Or.inr hln.symm, by omega⟩

/-- Without wrap-around the code's arithmetic is the plain slice. -/
theorem cut_eq_slice (hv : v.Proper) (hlt : slice.ofs + slice.len < 2 ^ 32) :
    slice.cut v = v.slice slice.ofs slice.len := by
  rcases lt_or_ge v.length slice.ofs with hp | hw
  · rw [cut_past hp, NVValue.slice]
    have hd : v.bytes.drop slice.ofs = [] := by
      rcases hv.length_eq with ⟨-, hn⟩ | heq
      · simp [hn]
      · exact drop_eq_nil_of_le (by omega)
    rw [hd, take_nil]
    rfl
  · rw [cut_within hw, Nat.mod_eq_of_lt hlt, NVValue.slice]
    have heq : v.length = v.bytes.length := by
      rcases hv.length_eq with ⟨hng, -⟩ | heq
      · omega
      · exact heq
    have hnm : (min ((slice.ofs + slice.len : ℕ) : ℤ) v.length - slice.ofs).toNat =
        min slice.len (v.bytes.length - slice.ofs) := by omega
    have ht : (v.bytes.drop slice.ofs).take (min slice.len (v.bytes.length - slice.ofs)) =
        (v.bytes.drop slice.ofs).take slice.len := by
      rw [← length_drop, ← take_take, take_length]
    rw [hnm]
    congr 1
    rw [length_take, length_drop]
    omega

theorem cut_len_zero (ho : slice.ofs < 2 ^ 32) (hln : slice.len = 0) : slice.cut v = .null := by
  rcases lt_or_ge v.length slice.ofs with hp | hw
  · exact cut_past hp
  · have hn : min (((slice.ofs + slice.len) % 2 ^ 32 : ℕ) : ℤ) v.length - slice.ofs = 0 := by
      omega
    rw [cut_within hw, hn]
    rfl

/-- `s'` selects the same bytes of `v` as `s`. -/
structure SameSlice (v : NVValue) (s s' : NVReferencedSlice) : Prop where
  handle : s'.handle = s.handle
  no_wrap : s'.ofs + s'.len < 2 ^ 32
  bytes : v.slice s'.ofs s'.len = v.slice s.ofs s.len

/-- Clipping the slice before the copy gives the same bytes. -/
theorem narrow_sameSlice (hv : v.Proper) (hlt : slice.ofs + slice.len < 2 ^ 32) :
    SameSlice v slice (slice.narrow v.length) := by
  rcases lt_or_ge v.length slice.ofs with hp | hw
  · have hn : slice.narrow v.length = { slice with len := 0, ofs := 0 } := if_pos hp
    rw [hn]
    refine ⟨rfl, by norm_num, ?_⟩
    rw [← cut_eq_slice hv hlt, cut_past hp]
    rfl
  · have heq : v.length = v.bytes.length := by
      rcases hv.length_eq with ⟨hng, -⟩ | heq
      · omega
      · exact heq
    have hn : slice.narrow v.length =
        { slice with len := min slice.len (v.bytes.length - slice.ofs) } := by
      rw [narrow, if_neg (not_lt.mpr hw), Nat.mod_eq_of_lt hlt]
      have hnm : (min ((slice.ofs + slice.len : ℕ) : ℤ) v.length - slice.ofs) % 2 ^ 32 =
          min slice.len (v.bytes.length - slice.ofs) := by
        omega
      simp only [hnm, Int.toNat_natCast]
    rw [hn]
    refine ⟨rfl, by dsimp only; omega, ?_⟩
    rw [NVValue.slice, NVValue.slice]
    rw [← length_drop, ← take_take, take_length]

theorem narrow_len_le (hv : v.Proper) (hlt : slice.ofs + slice.len < 2 ^ 32) :
    (slice.narrow v.length).len ≤ maxBytes := by
  have hln := hv.length_le
  rcases lt_or_ge v.length slice.ofs with hp | hw
  · have hn : slice.narrow v.length = { slice with len := 0, ofs := 0 } := if_pos hp
    rw [hn]
    exact Nat.zero_le _
  · rw [narrow, if_neg (not_lt.mpr hw)]
    dsimp only
    rcases hv.length_eq with ⟨hng, -⟩ | heq
    · omega
    · omega

end Slices

section Set

variable {names : ℕ → NVName} {t t' : NVTable} {h : ℕ} {slice : NVReferencedSlice} {ref : NVEntry}

theorem NVTable.Memory.markReferenced_spec (hm : t.Memory) {k : ℕ} {e : NVEntry}
    (he : t.entryOf k = some e) {o : ℕ} (ha : t.addr k = some o) :
    ∃ t', t.markReferenced o = some t' ∧ t'.Memory ∧
      t'.entryOf = update t.entryOf k (some { e with referenced := true }) ∧
      t'.size = t.size := by
  obtain ⟨o', ha', ho⟩ := entryOf_eq_some.mp he
  rw [ha] at ha'
  cases ha'
  obtain ⟨t', ht', hm', -, hu, -, -, -, hs⟩ := hm.overwrite
    { e with referenced := true } ha ho rfl (hm.bytes o e ho).1
  refine ⟨t', ?_, hm', hu, hs⟩
  simp only [markReferenced, ho]
  exact ht'

variable (hl : Layout names t)

include hl

/-- Replacing an entry without referrers by a reference to a direct entry. -/
theorem Layout.update_indirect {e ref : NVEntry} {name : NVName} (hm : t'.Memory)
    (hun : Unviewed t.cells h) (hne : h ≠ slice.handle) (hrf : t.entryOf slice.handle = some ref)
    (hd : ref.indirect = false) (hb : e.body = .vindirect slice name)
    (hnm : e.name = names h ∨ e.name = .empty)
    (hu : t'.entryOf = update (update t.entryOf h (some e)) slice.handle
      (some { ref with referenced := true })) :
    Layout names t' ∧ t'.values = update t.values h (slice.cut (t.values slice.handle)) := by
  have ho : ∀ {k f}, k ≠ h → t'.entryOf k = some f →
      ∃ f', t.entryOf k = some f' ∧ f.body = f'.body := by
    intro k f hk hf
    rw [hu] at hf
    by_cases hks : k = slice.handle
    · subst hks
      simp only [update_self, Option.some.injEq] at hf
      exact ⟨ref, hrf, by rw [← hf]⟩
    · exact ⟨f, by simpa [hks, hk] using hf, rfl⟩
  have hsl : t'.entryOf h = some e := by simp [hu, hne]
  have hr : t'.entryOf slice.handle = some { ref with referenced := true } := by simp [hu]
  constructor
  · refine ⟨hm, ?_, ?_⟩
    · intro k f hf
      by_cases hk : k = h
      · subst hk
        rw [hsl] at hf
        cases hf
        exact hnm
      · obtain ⟨f', hf', hbd⟩ := ho hk hf
        have hn : f.name = f'.name := by unfold NVEntry.name; rw [hbd]
        rw [hn]
        exact hl.named k f' hf'
    · intro k f s n hf hfb
      have hmr : ∀ s' : NVReferencedSlice, s'.handle = slice.handle →
          ∃ e', t'.entryOf s'.handle = some e' ∧ e'.indirect = false ∧ e'.referenced = true := by
        intro s' hs'
        rw [hs']
        exact ⟨_, hr, hd, rfl⟩
      by_cases hk : k = h
      · subst hk
        rw [hsl] at hf
        cases hf
        rw [hb] at hfb
        cases hfb
        exact hmr slice rfl
      · obtain ⟨f', hf', hbd⟩ := ho hk hf
        have hfb' : f'.body = .vindirect s n := hbd ▸ hfb
        by_cases hs : s.handle = slice.handle
        · exact hmr s hs
        · have hsh : s.handle ≠ h := fun hsh => hun k _ (hsh ▸ cells_indirect hf' hfb')
          obtain ⟨e', he', h1, h2⟩ := hl.marked k f' s n hf' hfb'
          exact ⟨e', by rwa [hu, update_of_ne hs, update_of_ne hsh], h1, h2⟩
  · obtain ⟨rname, value, hrb⟩ := indirect_eq_false.mp hd
    have hc := cells_direct hrf hrb
    have hcl : t'.cells = update t.cells h (some (.view slice.handle slice.cut)) := by
      funext k
      by_cases hk : k = h
      · subst hk
        rw [update_self, cells_indirect hsl hb]
      · rw [update_of_ne hk]
        by_cases hks : k = slice.handle
        · subst hks
          rw [cells_direct hr hrb, hc]
        · simp [cells, hu, hk, hks]
    rw [values, hcl, read_update_view hun hc hne.symm]
    have hv : t.values slice.handle = .ofBytes value := read_own hc
    rw [hv, values]

/-- A reference stored under `h`, before the referenced entry is flagged. -/
structure ReferenceEntry (names : ℕ → NVName) (h : ℕ) (slice : NVReferencedSlice) (e : NVEntry) :
    Prop where
  body : ∃ name, e.body = .vindirect slice name
  named : e.name = names h ∨ e.name = .empty

/-- The two last steps of every successful reference: the entry is in place, and the
referenced entry gets its flag. -/
theorem Layout.flag_reference {e ref : NVEntry} {need ro : ℕ} {r : AddResult}
    (hun : Unviewed t.cells h) (hne : h ≠ slice.handle) (hr : t.entryOf slice.handle = some ref)
    (ha : t.addr slice.handle = some ro) (hdr : ref.indirect = false)
    (ho : Outcome t h e need r) (hok : r.ok = true) (hd : ReferenceEntry names h slice e) :
    ∃ t', r.table.markReferenced ro = some t' ∧ Layout names t' ∧ t'.size = t.size ∧
      t'.values = update t.values h (slice.cut (t.values slice.handle)) := by
  obtain ⟨hu, -⟩ := ho.stored hok
  obtain ⟨name, hb⟩ := hd.body
  obtain ⟨t', ht', hm', hu', hs⟩ := ho.memory.markReferenced_spec
    (by rw [hu, update_of_ne hne.symm, hr]) ((ho.addr _ hne.symm).trans ha)
  rw [hu] at hu'
  obtain ⟨hl', hv⟩ := hl.update_indirect hm' hun hne hr hdr hb hd.named hu'
  exact ⟨t', ht', hl', hs.trans ho.size, hv⟩

theorem Layout.storeNewIndirect_spec {ro : ℕ} (new : Bool) (h0 : h ≠ 0) (hh : h < 2 ^ 16)
    (hun : Unviewed t.cells h) (hne : h ≠ slice.handle) (hrf : t.entryOf slice.handle = some ref)
    (ha : t.addr slice.handle = some ro) (hd : ref.indirect = false) :
    ∃ r, storeNewIndirect t h (t.getEntry h).2 (names h) slice ro new = some r ∧
      SetOutcome names t h (slice.cut (t.values slice.handle))
        (t.slotNeed h + bound (indirectHdr + (names h).len + 1)) r := by
  have hle := le_bound (indirectHdr + (names h).len + 1)
  have hn := storedName_len_le (t := t) (h := h) (names h)
  obtain ⟨r, hr, -, ho⟩ := hl.memory.storeNew_spec h0 hh
    (indirectHdr + (names h).len + 1) (.vindirect slice (t.storedName h (names h))) new (by
      unfold NVEntry.footprint indirectNameOfs
      unfold indirectHdr at *
      dsimp only
      omega)
  simp only [storeNewIndirect, hr]
  cases hok : r.ok with
  | true =>
    obtain ⟨t', ht', hl', hs', hv⟩ := hl.flag_reference hun hne hrf ha hd ho hok
      ⟨⟨_, rfl⟩, storedName_named (Or.inl rfl)⟩
    refine ⟨{ r with table := t' }, by simp [ht', hok], hl', hs', fun _ => hv, ?_, ?_⟩ <;>
    · intro hf
      rw [hok] at hf
      cases hf
  | false =>
    obtain ⟨hu, hg⟩ := ho.failed hok
    refine ⟨r, by simp, hl.congr ho.memory hu, ho.size, fun hf => ?_,
      fun _ => ⟨Layout.values_congr hu, hg⟩, fun _ k _ => by rw [hu]⟩
    rw [hok] at hf
    cases hf

theorem Layout.storeExistingIndirect_spec {e ref : NVEntry} {o ro : ℕ} (hh : h < 2 ^ 16)
    (hun : Unviewed t.cells h) (hne : h ≠ slice.handle) (hao : t.addr h = some o)
    (he : t.entries o = some e) (hrf : t.entryOf slice.handle = some ref)
    (ha : t.addr slice.handle = some ro) (hd : ref.indirect = false) :
    ∃ r, storeExistingIndirect t h o (t.getEntry h).2 (names h) slice ro = some r ∧
      SetOutcome names t h (slice.cut (t.values slice.handle)) (e.indirectNeed (names h)) r := by
  have hen : t.entryOf h = some e := entryOf_eq_some.mpr ⟨o, hao, he⟩
  simp only [storeExistingIndirect, he]
  unfold NVEntry.indirectNeed
  split_ifs with hf
  · have hbd : ∃ n, setIndirectBody t h e.body (names h) slice = .vindirect slice n ∧
        n.len ≤ (names h).len ∧ (n = names h ∨ n = .empty) := by
      cases hb : e.body with
      | vdirect oldName old =>
        exact ⟨_, rfl, storedName_len_le _, storedName_named (Or.inl rfl)⟩
      | vindirect s oldName =>
        have hnm := hl.named h e hen
        have hol : e.name = oldName := by simp [NVEntry.name, hb]
        rw [hol] at hnm
        refine ⟨oldName, rfl, ?_, hnm⟩
        rcases hnm with rfl | rfl
        · exact le_rfl
        · exact Nat.zero_le _
    obtain ⟨n, hn, hnl, hnn⟩ := hbd
    rw [hn]
    obtain ⟨t1, ht1, hm1, haddr1, hu1, hns1, hd1, hgap1, hsize1⟩ := hl.memory.overwrite
      { e with body := .vindirect slice n } hao he rfl (by
        unfold NVEntry.footprint indirectNameOfs
        unfold indirectHdr at hf
        dsimp only
        omega)
    have ho : Outcome t h { e with body := .vindirect slice n } 0 ⟨true, t1, false⟩ :=
      ⟨hm1, hsize1, .of_eq hl.memory.sorted hns1 hd1, fun k _ => by rw [haddr1],
        fun _ => ⟨hu1, by simp [hgap1]⟩, by simp⟩
    obtain ⟨t', ht', hl', hs', hv⟩ := hl.flag_reference hun hne hrf ha hd ho rfl ⟨⟨n, rfl⟩, hnn⟩
    refine ⟨⟨true, t', false⟩, ?_, hl', hs', fun _ => hv, by simp, by simp⟩
    rw [ht1]
    dsimp only at ht' ⊢
    rw [ht']
    rfl
  · have h0 : h ≠ 0 := by
      rintro rfl
      cases hao
    have hs := slotNeed_owned (hl.memory.sorted.owned_of_addr hao)
    obtain ⟨r, hr, hot⟩ := hl.storeNewIndirect_spec false h0 hh hun hne hrf ha hd
    rw [hs, Nat.zero_add] at hot
    exact ⟨r, hr, hot⟩

/-- A set to a handle that has no referrers to take care of. -/
theorem Layout.setIndirect_spec {ro : ℕ} (new : Bool) (h0 : h ≠ 0) (hh : h < 2 ^ 16)
    (hne : h ≠ slice.handle) (hrf : t.entryOf slice.handle = some ref)
    (ha : t.addr slice.handle = some ro) (hd : ref.indirect = false)
    (hno : ¬ t.IndirectWalks h slice) (hof : slice.ofs < 2 ^ 32) :
    ∃ r, setIndirect t h (names h) slice ro new = some r ∧
      SetOutcome names t h (slice.cut (t.values slice.handle))
        (t.indirectNeed h (names h) slice new) r := by
  have hcp : ¬ (ref.indirect = true ∨ h = slice.handle) := by simp [hd, hne]
  rw [setIndirect, indirectNeed, hrf]
  dsimp only
  rw [if_neg hcp]
  cases hao : t.addr h with
  | none =>
    have hen : t.entryOf h = none := hl.memory.entryOf_eq_none.mpr hao
    have hc : t.cells h = none := by simp [cells, hen]
    have hg : t.getEntry h = (none, (t.getEntry h).2) := Prod.ext hao rfl
    have hun := hl.flat.unviewed_of_none hc
    obtain ⟨r, hr, ho⟩ := hl.storeNewIndirect_spec new h0 hh hun hne hrf ha hd
    generalize (t.getEntry h).2 = slot at hg hr
    simp only [hg, hen]
    split_ifs with hn
    · refine ⟨_, rfl, hl, rfl, fun _ => ?_, by simp, by simp⟩
      have hv : t.values h = .null := read_none hc
      rw [cut_len_zero hof hn.2]
      exact (update_eq_self_iff.mpr hv.symm).symm
    · exact ⟨r, hr, ho⟩
  | some o =>
    obtain ⟨e, he⟩ := hl.memory.live h o hao
    have hen : t.entryOf h = some e := entryOf_eq_some.mpr ⟨o, hao, he⟩
    have hwl : ¬ (e.indirect = false ∧ e.referenced = true) := by
      intro hw
      exact hno ⟨hne, ⟨ref, hrf, hd⟩, ⟨e, hen, hw⟩⟩
    have hun : Unviewed t.cells h := by
      refine hl.unviewed fun f hf hfd => ?_
      rw [hen] at hf
      cases hf
      by_contra hfr
      exact hwl ⟨hfd, by simpa using hfr⟩
    obtain ⟨r, hr, ho⟩ := hl.storeExistingIndirect_spec hh hun hne hao he hrf ha hd
    have hg := getEntry_eq hao
    generalize (t.getEntry h).2 = slot at hg hr
    simp only [hg, he, hen, if_neg hwl, Nat.zero_add]
    exact ⟨r, hr, ho⟩

/-- With enough room for the walk the call returns `FALSE` after changing no value. -/
theorem Layout.setIndirect_walks (ro : ℕ) (new : Bool) (hw : t.IndirectWalks h slice)
    (hrm : (t.walkNeed h : ℤ) ≤ t.freeGap) :
    ∃ t', setIndirect t h (names h) slice ro new = some ⟨false, t', false⟩ ∧
      Layout names t' ∧ t'.values = t.values := by
  obtain ⟨e, hen, hwl⟩ := hw.target
  obtain ⟨o, hao, he⟩ := entryOf_eq_some.mp hen
  obtain ⟨b, t', hr, hwd, -, hf⟩ := hl.walk hen hwl.1
  have hb : b = false := by
    cases b with
    | false => rfl
    | true =>
      have := hf rfl
      omega
  subst hb
  have hr' : foreachEntry (makeDirect addValue h) t = some (false, t') := hr
  refine ⟨t', ?_, hwd.layout, hwd.values⟩
  have hg := getEntry_eq hao
  generalize (t.getEntry h).2 = slot at hg
  simp only [setIndirect, hg, he, if_pos hwl, hr']

/-- The copy made when the referenced entry is itself a reference. -/
theorem Layout.copyReferencedValue_spec {ro : ℕ} (new : Bool) (h0 : h ≠ 0)
    (hh : h < 2 ^ 16) (ha : t.addr slice.handle = some ro) (he : t.entries ro = some ref) :
    ∃ r, copyReferencedValue t (some ro) h (names h) slice new =
        some (r, slice.narrow (t.values slice.handle).length) ∧ SetOutcome names t h
        (.ofBytes (((t.values slice.handle).bytes.drop
          (slice.narrow (t.values slice.handle).length).ofs).take
            (getSize (slice.narrow (t.values slice.handle).length).len)))
        (t.addNeed h (names h) (getSize (slice.narrow (t.values slice.handle).length).len) new)
        r := by
  obtain ⟨r, hr, ho⟩ := hl.addValue_spec h0 hh
    ((t.values slice.handle).bytes.drop (slice.narrow (t.values slice.handle).length).ofs)
    (slice.narrow (t.values slice.handle).length).len new
  refine ⟨r, ?_, ho⟩
  simp only [copyReferencedValue, bind_some, he,
    hl.resolveEntry_eq (entryOf_eq_some.mpr ⟨ro, ha, he⟩), hr, map_some]

/-- Every indirect set that does not walk over referrers. -/
theorem Layout.addValueIndirect_spec (new : Bool) (h0 : h ≠ 0) (hh : h < 2 ^ 16)
    (hrf : t.entryOf slice.handle = some ref) (hno : ¬ t.IndirectWalks h slice)
    (hlt : slice.ofs + slice.len < 2 ^ 32) :
    ∃ r s, addValueIndirect t h (names h) slice new = some (r, s) ∧
      SetOutcome names t h ((t.values slice.handle).slice slice.ofs slice.len)
        (t.indirectNeed h (names h) slice new) r ∧ SameSlice (t.values slice.handle) slice s := by
  obtain ⟨ro, ha, he⟩ := entryOf_eq_some.mp hrf
  have hro : (t.getEntry slice.handle).1 = some ro := ha
  have hv := hl.values_proper slice.handle
  by_cases hc : ref.indirect = true ∨ h = slice.handle
  · obtain ⟨r, hr, ho⟩ := hl.copyReferencedValue_spec new h0 hh ha he
    have hs : getSize (slice.narrow (t.values slice.handle).length).len =
        (slice.narrow (t.values slice.handle).length).len := min_eq_left (narrow_len_le hv hlt)
    have hsm := narrow_sameSlice hv hlt
    rw [hs, ← NVValue.slice, hsm.bytes] at ho
    refine ⟨r, slice.narrow (t.values slice.handle).length, ?_, ?_, hsm⟩
    · simpa [addValueIndirect, hro, he, hc] using hr
    · rw [indirectNeed, hrf]
      dsimp only
      rwa [if_pos hc, hs]
  · obtain ⟨hd, hne⟩ := not_or.mp hc
    have hd : ref.indirect = false := by simpa using hd
    obtain ⟨r, hr, ho⟩ := hl.setIndirect_spec new h0 hh hne hrf ha hd hno (by omega)
    rw [cut_eq_slice hv hlt] at ho
    refine ⟨r, slice, ?_, ho, ⟨rfl, hlt, rfl⟩⟩
    simp [addValueIndirect, hro, he, hc, hr]

/-- Whatever an indirect set does, it keeps the layout unless it goes on after a walk that
ran out of space. -/
theorem Layout.addValueIndirect_layout {new : Bool} {r : AddResult × NVReferencedSlice} (h0 : h ≠ 0)
    (hh : h < 2 ^ 16) (hof : slice.ofs < 2 ^ 32)
    (hf : t.IndirectWalks h slice → (t.walkNeed h : ℤ) ≤ t.freeGap)
    (hr : addValueIndirect t h (names h) slice new = some r) : Layout names r.1.table := by
  rw [addValueIndirect] at hr
  cases hrf : t.entryOf slice.handle with
  | none =>
    have ha : (t.getEntry slice.handle).1 = none := hl.memory.entryOf_eq_none.mp hrf
    simp only [ha] at hr
    split_ifs at hr
    · simp [copyReferencedValue] at hr
    · cases hr
      exact hl
  | some ref =>
    obtain ⟨ro, ha, he⟩ := entryOf_eq_some.mp hrf
    have hro : (t.getEntry slice.handle).1 = some ro := ha
    simp only [hro, bind_some, he] at hr
    split_ifs at hr with hc
    · obtain ⟨r', hr', ho⟩ := hl.copyReferencedValue_spec new h0 hh ha he
      rw [hr'] at hr
      cases hr
      exact ho.layout
    · obtain ⟨hd, hne⟩ := not_or.mp hc
      have hd : ref.indirect = false := by simpa using hd
      by_cases hw : t.IndirectWalks h slice
      · obtain ⟨t', ht', hl', -⟩ := hl.setIndirect_walks ro new hw (hf hw)
        rw [ht'] at hr
        cases hr
        exact hl'
      · obtain ⟨r', hr', ho⟩ := hl.setIndirect_spec new h0 hh hne hrf ha hd hw hof
        rw [hr'] at hr
        cases hr
        exact ho.layout

end Set

end SyslogNg.NvTable
