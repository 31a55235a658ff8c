import SyslogNg.PersistState.KeyStore

/-!
# What a file holds

The list of the keys of a file with the contents of their values is what the file stands for. Where
the values are does not matter, but the contents decide how full the file is. A new entry, which
comes from a user or from the old file, is put behind the others.
-/
namespace SyslogNg.Persist

open List Function Image PersistState

variable {s s' t : PersistState} {own own' : ℤ → Owner} {recs : List (Name × ℕ)} {handles : List ℕ}
  {key name : Name} {handle size : ℕ} {flag : Bool} {version : UInt8}

structure Content where
  size : ℕ
  version : UInt8
  bytes : List UInt8
  deriving DecidableEq

namespace PersistState

def content (s : PersistState) (handle : ℕ) : Content where
  size := s.currentMap.read32 (headerOf handle)
  version := s.currentMap (headerOf handle + 5)
  bytes := s.currentMap.slice handle (s.currentMap.read32 (headerOf handle))

def InUse (s : PersistState) (handle : ℕ) : Prop := s.currentMap (headerOf handle + 4) ≠ 0

instance (s : PersistState) : DecidablePred s.InUse := fun _ => inferInstanceAs (Decidable (_ ≠ _))

def dump (s : PersistState) (recs : List (Name × ℕ)) : List (Name × Content) :=
  recs.map fun key => (key.1, s.content key.2)

/-- What a user sees who looks up a key. -/
def entry (s : PersistState) (key : Name) : Option Content :=
  (s.lookupEntry key).2.map fun found =>
    { size := found.2.1
      version := found.2.2
      bytes := (s.lookupEntry key).1.currentMap.slice found.1 found.2.1 }

end PersistState

def demand (key : Name × Content) : Demand := ⟨keySpan key.1, key.2.size⟩

/-- How full a file with these contents is. -/
def packed (dump : List (Name × Content)) : Packing := (dump.map demand).foldl Packing.add .initial

structure Intact (s : PersistState) (own : ℤ → Owner) (recs : List (Name × ℕ)) (handles : List ℕ) :
    Prop extends Layout s own recs handles where
  packing : s.packing = packed (s.dump recs)

/-! ### Tables -/

section Table

variable {β γ : Type*}

def tableOf (recs : List (Name × β)) (key : Name) : Option β := recs.reverse.lookup key

theorem tableOf_append (recs : List (Name × β)) (name : Name) (b : β) :
    tableOf (recs ++ [(name, b)]) = Function.update (tableOf recs) name (some b) := by
  funext key
  unfold tableOf
  rw [reverse_append, reverse_singleton, singleton_append, lookup_cons]
  rcases eq_or_ne key name with rfl | hne
  · rw [update_self, beq_self_eq_true]
  · rw [update_of_ne hne, beq_false_of_ne hne]

theorem tableOf_map (g : β → γ) (recs : List (Name × β)) (key : Name) :
    tableOf (recs.map fun r => (r.1, g r.2)) key = (tableOf recs key).map g := by
  induction recs using List.reverseRecOn with
  | nil => rfl
  | append_singleton recs r ih =>
    rw [map_append, map_singleton, tableOf_append, tableOf_append]
    rcases eq_or_ne key r.1 with rfl | hne
    · rw [update_self, update_self]
      rfl
    · rw [update_of_ne hne, update_of_ne hne, ih]

theorem mem_of_tableOf {recs : List (Name × β)} {b : β} (h : tableOf recs key = some b) :
    (key, b) ∈ recs := by
  obtain ⟨first, rest, heq, _⟩ := lookup_eq_some_iff.mp h
  rw [← mem_reverse, heq]
  exact mem_append_right _ mem_cons_self

theorem tableOf_eq_none_iff {recs : List (Name × β)} :
    tableOf recs key = none ↔ ∀ r ∈ recs, r.1 ≠ key := by
  unfold tableOf
  rw [lookup_eq_none_iff]
  simp only [mem_reverse, bne_iff_ne, ne_comm]

end Table

/-! ### Lookups -/

theorem PersistState.dump_append (key : Name × ℕ) :
    s.dump (recs ++ [key]) = s.dump recs ++ [(key.1, s.content key.2)] := map_append

theorem PersistState.dump_congr (heq : ∀ key ∈ recs, s'.content key.2 = s.content key.2) :
    s'.dump recs = s.dump recs := by
  apply map_congr_left
  intro key hk
  rw [heq key hk]

theorem PersistState.lookupEntry_of_none (hk : s.keys key = none) :
    s.lookupEntry key = (s, none) := by
  unfold lookupEntry lookupKey
  rw [hk]

theorem PersistState.lookupEntry_keys : (s.lookupEntry key).1.keys = s.keys := by
  unfold lookupEntry
  cases s.lookupKey key with
  | none => rfl
  | some handle =>
    dsimp only
    split_ifs <;> rfl

theorem PersistState.entry_of_none (hk : s.keys key = none) : s.entry key = none := by
  rw [entry, lookupEntry_of_none hk]
  rfl

namespace Layout

section

variable (h : Layout s own recs handles)
include h

theorem lookupEntry_of_some (hk : s.keys key = some handle)
    (hvalue : ValueAt s.currentMap own handle) : s.lookupEntry key = (s.setInUse handle true,
      some (handle, s.currentMap.read32 (headerOf handle),
        s.currentMap (headerOf handle + 5))) := by
  have hle := h.value_le hvalue
  have hw := h.watermark
  rw [← h.headerOf_value hvalue] at hle
  unfold lookupEntry lookupKey
  rw [hk]
  dsimp only
  rw [if_neg (by omega), if_neg]
  omega

theorem content_congr (hvalue : ValueAt s.currentMap own handle)
    (heq : ∀ i, own i = .value handle → i ≠ headerOf handle + 4 →
      s'.currentMap i = s.currentMap i) :
    s'.content handle = s.content handle := by
  have hh := h.headerOf_value hvalue
  unfold valueHeaderSize at hh
  have ho := hvalue.owns
  unfold valueHeaderSize at ho
  have hs : s'.currentMap.read32 (headerOf handle) = s.currentMap.read32 (headerOf handle) := by
    apply read32_congr
    intro i hlo hhi
    exact heq i (ho i (by omega) (by omega)) (by omega)
  have hv : s'.currentMap (headerOf handle + 5) = s.currentMap (headerOf handle + 5) :=
    heq _ (ho _ (by omega) (by omega)) (by omega)
  have hb : s'.currentMap.slice handle (s.currentMap.read32 (headerOf handle)) =
      s.currentMap.slice handle (s.currentMap.read32 (headerOf handle)) := by
    apply slice_congr
    intro i hlo hhi
    rw [hh] at hhi
    exact heq i (ho i (by omega) hhi) (by omega)
  unfold content
  rw [hs, hv, hb]

theorem inUse_congr (hvalue : ValueAt s.currentMap own handle)
    (heq : ∀ i, own i = .value handle → s'.currentMap i = s.currentMap i) :
    s'.InUse handle ↔ s.InUse handle := by
  have hh := h.headerOf_value hvalue
  have hf : own (headerOf handle + 4) = .value handle := by
    apply hvalue.owns
    · omega
    · rw [hh]
      unfold valueHeaderSize
      omega
  unfold PersistState.InUse
  rw [heq _ hf]

theorem entry_of_some (hk : s.keys key = some handle)
    (hvalue : ValueAt s.currentMap own handle) : s.entry key = some (s.content handle) := by
  have hh := h.headerOf_value hvalue
  have hb : (s.setInUse handle true).currentMap.slice handle
      (s.currentMap.read32 (headerOf handle)) = (s.content handle).bytes := by
    apply slice_congr
    intro i hlo hhi
    apply write_singleton_of_ne
    rw [hh]
    unfold valueHeaderSize
    omega
  rw [entry, h.lookupEntry_of_some hk hvalue]
  dsimp only [Option.map_some]
  rw [hb]
  rfl

end

end Layout

section

variable (hkeeps : KeepsValues s own s' own') (h : Layout s own recs handles)
  (hvalue : ValueAt s.currentMap own handle)
include hkeeps h hvalue

theorem KeepsValues.content : s'.content handle = s.content handle :=
  h.content_congr hvalue fun i hi _ => (hkeeps i handle hi).2

theorem KeepsValues.inUse : s'.InUse handle ↔ s.InUse handle :=
  h.inUse_congr hvalue fun i hi => (hkeeps i handle hi).2

end

/-! ### The flag -/

namespace Layout

theorem setInUse_content (h : Layout s own recs handles) (hvalue : ValueAt s.currentMap own handle)
    {other : ℕ} (ho : ValueAt s.currentMap own other) :
    (s.setInUse handle flag).content other = s.content other := by
  apply h.content_congr ho
  intro i hi hne
  apply write_singleton_of_ne
  rintro rfl
  have hf : own (headerOf handle + 4) = .value handle := by
    rw [h.headerOf_value hvalue]
    exact hvalue.owns _ (by omega) (by unfold valueHeaderSize; omega)
  cases hi.symm.trans hf
  exact hne rfl

theorem setInUse_inUse (h : Layout s own recs handles) (hvalue : ValueAt s.currentMap own handle)
    {other : ℕ} (ho : ValueAt s.currentMap own other) :
    (s.setInUse handle flag).InUse other ↔
      if other = handle then flag = true else s.InUse other := by
  unfold PersistState.InUse PersistState.setInUse
  dsimp only
  split_ifs with heq
  · rw [heq, write_singleton_self]
    cases flag <;> decide
  · rw [write_singleton_of_ne]
    rw [h.headerOf_value hvalue, h.headerOf_value ho]
    omega

end Layout

theorem Intact.setInUse (h : Intact s own recs handles) (hvalue : ValueAt s.currentMap own handle)
    (flag : Bool) : Intact (s.setInUse handle flag) own recs handles where
  toLayout := h.toLayout.setInUse hvalue flag
  packing := by
    have hd : (s.setInUse handle flag).dump recs = s.dump recs :=
      dump_congr fun key hk => h.setInUse_content hvalue (h.values key hk)
    rw [hd, ← h.packing]
    rfl

/-! ### A new entry -/

/-- A value was allocated, its bytes were written, and its key was added. -/
structure Inserted (s : PersistState) (own : ℤ → Owner) (name : Name) (c : Content) (flag : Bool)
    (s' : PersistState) (own' : ℤ → Owner) (handle : ℕ) : Prop where
  handle_eq : handle = s.currentOfs + valueHeaderSize
  keeps : KeepsValues s own s' own'
  content : s'.content handle = c
  inUse : s'.InUse handle ↔ flag
  keys : s'.keys = Function.update s.keys name (some handle)

theorem packed_append (dump : List (Name × Content)) (key : Name × Content) :
    packed (dump ++ [key]) = (packed dump).add (demand key) := by
  unfold packed
  rw [map_append, foldl_append]
  rfl

theorem Layout.addHandle (h : Layout s own recs handles)
    (hvalue : ValueAt s.currentMap own handle) :
    Layout s own recs (handle :: handles) :=
  { h with
    handles := by
      intro other ho
      rcases mem_cons.mp ho with rfl | hol
      · exact hvalue
      · exact h.handles other hol }

theorem Layout.dropHandles (h : Layout s own recs handles) : Layout s own recs [] :=
  { h with handles := fun _ hh => absurd hh not_mem_nil }

theorem Allocated.valueAt {m : Image} (ha : Allocated s own size flag version t own' handle)
    (hge : headerSize ≤ s.currentOfs) (hs : size ≤ 2 ^ 32 - 8)
    (hm : m.read32 (handle - valueHeaderSize) = size) : ValueAt m own' handle where
  ge := by
    rw [ha.handle_eq]
    omega
  owns := by
    have hr := (roundUp_of_le hs).1
    exact ha.owns.mono le_rfl (by omega)

/-- `m` is the file after the bytes of the value were written. -/
theorem Intact.insert (h : Intact s own recs handles) (hn : ValidName name)
    (hs : size ≤ 2 ^ 32 - 8) (hf : s.packing.Fits ⟨keySpan name, size⟩)
    (hrm : s.currentSize + 2 * fileInitialSize < 2 ^ 32)
    (ha : s.allocValue size flag version true = (t, handle)) {m : Image}
    (hm : ∀ i : ℤ, ¬(handle ≤ i ∧ i < handle + size) → m i = t.currentMap i) :
    ∃ s' own', PersistState.addKey { t with currentMap := m } name handle true = (s', true) ∧
      Intact s' own' (recs ++ [(name, handle)]) (handle :: handles) ∧
      Inserted s own name ⟨size, version, m.slice handle size⟩ flag s' own' handle := by
  obtain ⟨own₁, hl, hnw⟩ := h.allocValue hf hs (by omega) flag version
  rw [ha] at hl hnw
  dsimp only at hl hnw
  have hhn := hnw.handle_eq
  unfold valueHeaderSize at hhn
  have hrn := (roundUp_of_le hs).1
  have hb : OwnedBy own₁ handle (handle + size) (.value handle) :=
    hnw.owns.mono (by omega) (by omega)
  have hm₁ {i : ℤ} (hi : i < handle) : m i = t.currentMap i := hm i (by omega)
  have hr : m.read32 (handle - valueHeaderSize) = size := by
    rw [← hnw.size]
    exact read32_congr fun i _ hi => hm₁ (by unfold valueHeaderSize at hi; omega)
  have hw : Layout { t with currentMap := m } own₁ recs handles := by
    refine hl.modifyValue (?_ : ∀ i, own₁ i ≠ .value handle → m i = t.currentMap i) ?_
    · exact fun i hi => hm i fun hmm => hi (hb i hmm.1 hmm.2)
    · rw [hr, hnw.size]
  have hvalue : ValueAt m own₁ handle := hnw.valueAt h.ge hs hr
  have hg : t.currentSize ≤ s.currentSize + fileInitialSize := by
    have hsz : t.currentSize = _ := congrArg Packing.size hnw.packing
    rw [hsz]
    unfold Packing.take PersistState.packing
    dsimp only
    split_ifs <;> omega
  have hu : handle ∉ recs.map Prod.snd := by
    intro hmm
    obtain ⟨key, hk, heq⟩ := List.mem_map.mp hmm
    have hle := h.value_le (h.values key hk)
    omega
  obtain ⟨hsc, hp, own', hl', hkeeps⟩ :=
    (hw.addHandle hvalue).addKey hn mem_cons_self hu
      (by change t.currentSize + _ < _; omega)
  have hka : KeepsValues s own
      (addKey { t with currentMap := m } name handle true).1 own' := by
    refine KeepsValues.trans (fun i v hi => ?_) hkeeps
    have hv := h.owned i v hi
    obtain ⟨ho, hmp⟩ := hnw.keeps.keepsValues i v hi
    refine ⟨ho, (hm i fun hmm => ?_).trans hmp⟩
    cases ho.symm.trans (hb i hmm.1 hmm.2)
    omega
  have hh := hw.headerOf_value hvalue
  have hc : (addKey { t with currentMap := m } name handle true).1.content handle =
      ⟨size, version, m.slice handle size⟩ := by
    rw [hkeeps.content hw hvalue]
    unfold content
    dsimp only
    rw [hh, hr, hm₁ (by unfold valueHeaderSize; omega), hnw.version]
  refine ⟨_, own', Prod.ext rfl hsc, ⟨hl', ?_⟩, hnw.handle_eq, hka, hc, ?_, ?_⟩
  · have hd := dump_congr fun key hk =>
      hka.content h.toLayout (h.values key hk)
    have hsm : PersistState.packing { t with currentMap := m } = t.packing := rfl
    rw [PersistState.dump_append, hd, hc, packed_append, ← h.packing, hp, hsm, hnw.packing]
    rfl
  · rw [hkeeps.inUse hw hvalue]
    unfold PersistState.InUse
    dsimp only
    rw [hh, hm₁ (by unfold valueHeaderSize; omega), hnw.inUse]
    cases flag <;> decide
  · rw [addKey_keys]
    rw [hnw.keys]

end SyslogNg.Persist
