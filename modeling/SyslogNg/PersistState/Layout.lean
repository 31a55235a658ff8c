import SyslogNg.Foundations.Ownership
import SyslogNg.PersistState.Load
import SyslogNg.PersistState.Packing

/-!
# The layout of the file

What the bytes of a store mean that was not corrupted: the chain of key blocks holds a list of
keys with the handles of their values, and every value has its own space. Each byte of the file has
one owner, and the functions of the store write only where they may.
-/
namespace SyslogNg.Persist

open PersistState

inductive Owner
  | free
  | header
  /-- A key, a link, or the header of a key block. -/
  | key
  /-- What is left in the current key block. -/
  | room
  | value (handle : ℕ)

/-- A C string that is not empty, and fits into every key block. -/
structure ValidName (name : Name) : Prop where
  ne : name ≠ []
  nonzero : 0 ∉ name
  length : name.length ≤ 4000

def keySpan (name : Name) : ℕ := 4 + name.length + 4

structure KeyAt (m : Image) (ofs : ℤ) (name : Name) (handle : ℕ) : Prop where
  length : m.read32 ofs = name.length
  bytes : m.slice (ofs + 4) name.length = name
  value : m.read32 (ofs + 4 + name.length) = handle

/-- The link to the next key block, and its header. -/
structure LinkAt (m : Image) (ofs : ℤ) (next : ℕ) : Prop where
  unnamed : m.read32 ofs = 0
  target : m.read32 (ofs + 4) = next
  size : m.read32 (next - valueHeaderSize) = keyBlockSize

structure Place where
  block : ℕ
  size : ℕ
  pos : ℕ

def Place.addr (a : Place) : ℤ := a.block + a.pos

/-- The keys between two positions. -/
inductive KeyChain (m : Image) (own : ℤ → Owner) (limit : ℕ) :
    Place → List (Name × ℕ) → Place → Prop
  | nil {a} : KeyChain m own limit a [] a
  | key {a name handle recs c} (hname : ValidName name) (hkey : KeyAt m a.addr name handle)
      (howns : OwnedBy own a.addr (a.addr + keySpan name) .key)
      (hfits : a.pos + keySpan name ≤ a.size)
      (hrest : KeyChain m own limit { a with pos := a.pos + keySpan name } recs c) :
      KeyChain m own limit a ((name, handle) :: recs) c
  | link {a : Place} {next : ℕ} {recs c} (hlink : LinkAt m a.addr next)
      (howns : OwnedBy own a.addr (a.addr + 8) .key) (hfits : a.pos + 8 ≤ a.size)
      (hblock : OwnedBy own (next - valueHeaderSize) next .key) (hge : headerSize ≤ next)
      (hle : next + keyBlockSize ≤ limit)
      (hrest : KeyChain m own limit ⟨next, keyBlockSize, 0⟩ recs c) :
      KeyChain m own limit a recs c

/-- The value of a handle owns its header and its bytes. -/
structure ValueAt (m : Image) (own : ℤ → Owner) (handle : ℕ) : Prop where
  ge : headerSize + valueHeaderSize ≤ handle
  owns : OwnedBy own (handle - valueHeaderSize) (handle + m.read32 (handle - valueHeaderSize))
    (.value handle)

def PersistState.place (s : PersistState) : Place :=
  ⟨s.currentKeyBlock, s.currentKeySize, s.currentKeyOfs⟩

def Place.initial : Place := ⟨initialKeyStore, initialKeyStoreSize, 0⟩

structure Layout (s : PersistState) (own : ℤ → Owner) (recs : List (Name × ℕ)) (handles : List ℕ) :
    Prop where
  ge : headerSize ≤ s.currentOfs
  aligned : s.currentOfs % 8 = 0
  page : s.currentSize % 4096 = 0
  watermark : s.currentOfs + fileWatermark < s.currentSize
  size : s.currentSize < 2 ^ 32
  fresh : ∀ i : ℤ, s.currentOfs ≤ i → own i = .free
  owned : ∀ i handle, own i = .value handle → handle ≤ s.currentOfs
  head : OwnedBy own 0 initialKeyStore .header
  magic : s.currentMap.slice 0 4 = magic
  count : s.currentMap.read32 keyCountOfs = recs.length
  chain : KeyChain s.currentMap own s.currentOfs .initial recs s.place
  room : OwnedBy own s.place.addr (s.currentKeyBlock + s.currentKeySize) .room
  reserved : s.currentKeyOfs + 8 ≤ s.currentKeySize
  block : s.currentKeySize ≤ keyBlockSize
  values : ∀ key ∈ recs, ValueAt s.currentMap own key.2
  handles : ∀ handle ∈ handles, ValueAt s.currentMap own handle
  nodup : (recs.map Prod.snd).Nodup

/-! ### Frames -/

section Frame

variable {m m' : Image} {own own' : ℤ → Owner} {limit limit' : ℕ} {a b c : Place}
  {recs recs' : List (Name × ℕ)} {name : Name} {ofs : ℤ} {handle next : ℕ}

theorem KeyAt.congr (h : KeyAt m ofs name handle)
    (heq : ∀ i, ofs ≤ i → i < ofs + keySpan name → m' i = m i) : KeyAt m' ofs name handle := by
  unfold keySpan at heq
  constructor
  · rw [Image.read32_congr fun i hlo hhi => heq i (by omega) (by omega), h.length]
  · rw [Image.slice_congr fun i hlo hhi => heq i (by omega) (by omega), h.bytes]
  · rw [Image.read32_congr fun i hlo hhi => heq i (by omega) (by omega), h.value]

theorem LinkAt.congr (h : LinkAt m ofs next) (heq : ∀ i, ofs ≤ i → i < ofs + 8 → m' i = m i)
    (hh : ∀ i, (next : ℤ) - valueHeaderSize ≤ i → i < next → m' i = m i) : LinkAt m' ofs next := by
  unfold valueHeaderSize at hh
  constructor
  · rw [Image.read32_congr fun i hlo hhi => heq i (by omega) (by omega), h.unnamed]
  · rw [Image.read32_congr fun i hlo hhi => heq i (by omega) (by omega), h.target]
  · unfold valueHeaderSize
    rw [Image.read32_congr fun i hlo hhi => hh i (by omega) (by omega)]
    exact h.size

theorem KeyChain.congr (h : KeyChain m own limit a recs c)
    (how : ∀ i, own i = .key → own' i = .key) (heq : ∀ i, own i = .key → m' i = m i)
    (hlm : limit ≤ limit') : KeyChain m' own' limit' a recs c := by
  have ho' {lo hi : ℤ} (ho : OwnedBy own lo hi .key) : OwnedBy own' lo hi .key :=
    fun i hlo hhi => how i (ho i hlo hhi)
  induction h with
  | nil => exact .nil
  | key hn hk ho hf _ ih =>
    have hk' := hk.congr fun i hlo hhi => heq i (ho i hlo hhi)
    exact .key hn hk' (ho' ho) hf ih
  | link hl ho hf hb hge hle _ ih =>
    have hl' := hl.congr (fun i hlo hhi => heq i (ho i hlo hhi))
      fun i hlo hhi => heq i (hb i hlo hhi)
    exact .link hl' (ho' ho) hf (ho' hb) hge (hle.trans hlm) ih

theorem KeyChain.append (h : KeyChain m own limit a recs b) (h' : KeyChain m own limit b recs' c) :
    KeyChain m own limit a (recs ++ recs') c := by
  induction h with
  | nil => exact h'
  | key hn hk ho hf _ ih => exact .key hn hk ho hf (ih h')
  | link hl ho hf hb hge hle _ ih => exact .link hl ho hf hb hge hle (ih h')

theorem ValueAt.congr (h : ValueAt m own handle)
    (ho : ∀ i, own i = .value handle → own' i = .value handle)
    (hs : m'.read32 (handle - valueHeaderSize) = m.read32 (handle - valueHeaderSize)) :
    ValueAt m' own' handle where
  ge := h.ge
  owns := by
    rw [hs]
    exact fun i hlo hhi => ho i (h.owns i hlo hhi)

theorem ValueAt.read32_congr (h : ValueAt m own handle)
    (heq : ∀ i, own i = .value handle → m' i = m i) :
    m'.read32 (handle - valueHeaderSize) = m.read32 (handle - valueHeaderSize) := by
  apply Image.read32_congr
  intro i hlo hhi
  apply heq i (h.owns i hlo _)
  unfold valueHeaderSize at hhi
  omega

end Frame

/-! ### Values -/

theorem headerOf_of_le {handle : ℕ} (hge : valueHeaderSize ≤ handle) (hlt : handle < 2 ^ 32) :
    headerOf handle = handle - valueHeaderSize := by
  unfold headerOf valueHeaderSize at *
  omega

namespace Layout

variable {s : PersistState} {own : ℤ → Owner} {recs : List (Name × ℕ)} {handles : List ℕ}
  {handle : ℕ}

variable (h : Layout s own recs handles)
include h

theorem owned_le {lo hi : ℤ} {o : Owner} (how : OwnedBy own lo hi o)
    (ho : o ≠ .free) (hlt : lo < hi) : hi ≤ s.currentOfs := by
  by_contra hgt
  -- the last byte would be behind the end of what is in use
  have hl := how (hi - 1) (by omega) (by omega)
  rw [h.fresh (hi - 1) (by omega)] at hl
  exact ho hl.symm

theorem value_le (hv : ValueAt s.currentMap own handle) :
    handle + s.currentMap.read32 (handle - valueHeaderSize) ≤ s.currentOfs := by
  have hle := h.owned_le hv.owns Owner.noConfusion (by unfold valueHeaderSize; omega)
  omega

theorem handle_lt (hm : handle ∈ handles) : handle < 2 ^ 32 := by
  have hle := h.value_le (h.handles handle hm)
  have := h.watermark
  have := h.size
  omega

theorem headerOf_value
    (hv : ValueAt s.currentMap own handle) : headerOf handle = handle - valueHeaderSize := by
  have hle := h.value_le hv
  have hge := hv.ge
  have := h.watermark
  have := h.size
  exact headerOf_of_le (by omega) (by omega)

theorem header_congr {m : Image} (heq : ∀ i, own i = .header → m i = s.currentMap i) :
    m.slice 0 4 = Persist.magic ∧ m.read32 keyCountOfs = recs.length := by
  have hh : ∀ i : ℤ, 0 ≤ i → i < 64 → m i = s.currentMap i :=
    fun i hlo hhi => heq i (h.head i hlo hhi)
  rw [← h.magic, ← h.count]
  unfold keyCountOfs
  exact ⟨Image.slice_congr fun i hlo hhi => hh i hlo (by omega),
    Image.read32_congr fun i hlo hhi => hh i (by omega) (by omega)⟩

/-- A change of the bytes of one owner, which is not the header, not the keys, and if it is a value,
not its size. -/
theorem modify {m : Image} {o : Owner} (hh : o ≠ .header)
    (hk : o ≠ .key) (heq : ∀ i, own i ≠ o → m i = s.currentMap i)
    (hs : ∀ handle : ℕ, o = .value handle → m.read32 (handle - valueHeaderSize) =
      s.currentMap.read32 (handle - valueHeaderSize)) :
    Layout { s with currentMap := m } own recs handles := by
  obtain ⟨hm, hc⟩ := h.header_congr fun i hi => heq i (hi.trans_ne hh.symm)
  have hvl {handle : ℕ} (hv : ValueAt s.currentMap own handle) : ValueAt m own handle := by
    apply hv.congr (fun _ hi => hi)
    by_cases ho : o = .value handle
    · exact hs handle ho
    · apply hv.read32_congr
      intro i hi
      apply heq
      rw [hi]
      exact fun hsm => ho hsm.symm
  exact { h with
    magic := hm
    count := hc
    chain := by
      apply h.chain.congr (fun _ hi => hi) _ le_rfl
      intro i hi
      apply heq
      rw [hi]
      exact hk.symm
    values := fun key hk => hvl (h.values key hk)
    handles := fun other hot => hvl (h.handles other hot) }

theorem modifyValue {m : Image} (heq : ∀ i, own i ≠ .value handle → m i = s.currentMap i)
    (hs : m.read32 (handle - valueHeaderSize) = s.currentMap.read32 (handle - valueHeaderSize)) :
    Layout { s with currentMap := m } own recs handles := by
  apply h.modify Owner.noConfusion Owner.noConfusion heq
  intro other ho
  cases ho
  exact hs

theorem modifyRoom {m : Image} (heq : ∀ i, own i ≠ .room → m i = s.currentMap i) :
    Layout { s with currentMap := m } own recs handles :=
  h.modify Owner.noConfusion Owner.noConfusion heq fun _ hv => Owner.noConfusion hv

theorem length_le : recs.length ≤ s.currentOfs := by
  have hs : (recs.map Prod.snd).toFinset ⊆ Finset.Icc 1 s.currentOfs := by
    intro handle hm
    obtain ⟨key, hk, rfl⟩ := List.mem_map.mp (List.mem_toFinset.mp hm)
    have hv := h.values key hk
    have hge := hv.ge
    have hle := h.value_le hv
    unfold headerSize at hge
    exact Finset.mem_Icc.mpr ⟨by omega, by omega⟩
  have hc := Finset.card_le_card hs
  rwa [List.toFinset_card_of_nodup h.nodup, List.length_map, Nat.card_Icc, Nat.add_sub_cancel] at hc

theorem setInUse (hv : ValueAt s.currentMap own handle)
    (inUse : Bool) : Layout (s.setInUse handle inUse) own recs handles := by
  have hh := h.headerOf_value hv
  apply h.modifyValue
  · intro i hi
    apply Image.write_singleton_of_ne
    rintro rfl
    apply hi
    rw [hh]
    exact hv.owns _ (by omega) (by unfold valueHeaderSize; omega)
  · apply Image.read32_congr
    intro i hlo hhi
    apply Image.write_singleton_of_ne
    omega

end Layout

/-! ### Allocation -/

/-- What is in use keeps its owner and its bytes. -/
def Extends (s : PersistState) (own : ℤ → Owner) (s' : PersistState) (own' : ℤ → Owner) : Prop :=
  ∀ i, own i ≠ .free → own' i = own i ∧ s'.currentMap i = s.currentMap i

/-- The values keep their space and their bytes. -/
def KeepsValues (s : PersistState) (own : ℤ → Owner) (s' : PersistState) (own' : ℤ → Owner) :
    Prop :=
  ∀ i handle, own i = .value handle → own' i = .value handle ∧ s'.currentMap i = s.currentMap i

section Keeps

variable {s s' s'' : PersistState} {own own' own'' : ℤ → Owner} {handle : ℕ}

theorem Extends.keepsValues (h : Extends s own s' own') : KeepsValues s own s' own' := by
  intro i handle hi
  have hk := h i (by rw [hi]; exact Owner.noConfusion)
  rwa [hi] at hk

theorem KeepsValues.trans (h : KeepsValues s own s' own') (h' : KeepsValues s' own' s'' own'') :
    KeepsValues s own s'' own'' := by
  intro i handle hi
  obtain ⟨ho, hm⟩ := h i handle hi
  obtain ⟨ho', hm'⟩ := h' i handle ho
  exact ⟨ho', hm'.trans hm⟩

theorem KeepsValues.valueAt (h : KeepsValues s own s' own') (hv : ValueAt s.currentMap own handle) :
    ValueAt s'.currentMap own' handle :=
  hv.congr (fun i hi => (h i handle hi).1) (hv.read32_congr fun i hi => (h i handle hi).2)

end Keeps

section Grow

variable {s : PersistState} {newSize : ℕ} {grows : Bool}

theorem growStore_place : (s.growStore newSize grows).place = s.place := by
  unfold growStore
  split_ifs <;> rfl

theorem mapFile_of_magic (hm : s.currentMap.slice 0 4 = magic) : s.mapFile = s := by
  unfold mapFile
  rw [← hm, Image.write_slice_self]

theorem growStore_map (hm : s.currentMap.slice 0 4 = magic) (h4 : 4 ≤ s.currentSize) {i : ℤ}
    (hi : i < s.currentSize) : (s.growStore newSize grows).currentMap i = s.currentMap i := by
  have hf (size : ℕ) {j : ℤ} (hj : j < s.currentSize) :
      s.currentMap.fill s.currentSize size 0 j = s.currentMap j :=
    Image.fill_of_not_mem (by omega)
  have hm' (size : ℕ) : (s.currentMap.fill s.currentSize size 0).slice 0 4 = magic := by
    rw [← hm]
    exact Image.slice_congr fun j _ hj => hf size (by omega)
  unfold growStore
  split_ifs
  · rw [mapFile_of_magic (hm' _)]
    exact hf _ hi
  · rfl

theorem keepWatermark_place : (s.keepWatermark grows).place = s.place := by
  unfold keepWatermark
  split_ifs
  · rfl
  · exact growStore_place

theorem keepWatermark_map (hm : s.currentMap.slice 0 4 = magic) (h4 : 4 ≤ s.currentSize) {i : ℤ}
    (hi : i < s.currentSize) : (s.keepWatermark grows).currentMap i = s.currentMap i := by
  unfold keepWatermark
  split_ifs
  · rfl
  · exact growStore_map hm h4 hi

theorem keepWatermark_currentSize (ho : s.currentOfs ≤ s.currentSize)
    (hpg : s.currentSize % 4096 = 0) (hr : s.currentSize + fileInitialSize < 2 ^ 32) :
    (s.keepWatermark true).currentSize =
      if s.currentOfs + fileWatermark < s.currentSize then s.currentSize
      else s.currentSize + fileInitialSize := by
  unfold fileInitialSize at hr
  have hm : s.CheckWatermark ↔ s.currentOfs + fileWatermark < s.currentSize := by
    unfold PersistState.CheckWatermark
    rw [Nat.mod_eq_of_lt (by unfold fileWatermark; omega)]
  have hp : pageRound (s.currentSize + 16384) = s.currentSize + 16384 :=
    if_neg (by omega)
  by_cases h : s.CheckWatermark
  · rw [keepWatermark, if_pos h, if_pos (hm.mp h)]
  · unfold keepWatermark growStore fileInitialSize
    rw [if_neg h, if_neg (mt hm.mpr h), Nat.mod_eq_of_lt hr, hp, if_pos ⟨by omega, rfl⟩]
    rfl

end Grow

theorem roundUp_of_le {size : ℕ} (hs : size ≤ 2 ^ 32 - 8) :
    size ≤ PersistState.roundUp size ∧ PersistState.roundUp size % 8 = 0 := by
  unfold roundUp
  split_ifs <;> omega

namespace Layout

variable {s s' : PersistState} {own own' : ℤ → Owner} {recs : List (Name × ℕ)} {handles : List ℕ}

theorem extend (h : Layout s own recs handles) (he : Extends s own s' own')
    (hp : s'.place = s.place) (hof : s.currentOfs ≤ s'.currentOfs)
    (ha : s'.currentOfs % 8 = 0) (hpg : s'.currentSize % 4096 = 0)
    (hw : s'.currentOfs + fileWatermark < s'.currentSize) (hs : s'.currentSize < 2 ^ 32)
    (hf : ∀ i : ℤ, s'.currentOfs ≤ i → own' i = .free)
    (hod : ∀ i handle, own' i = .value handle → handle ≤ s'.currentOfs) :
    Layout s' own' recs handles := by
  have how {lo hi : ℤ} {o : Owner} (ho : o ≠ .free) (how : OwnedBy own lo hi o) :
      OwnedBy own' lo hi o := by
    intro i hlo hhi
    have hi := how i hlo hhi
    rw [(he i (by rwa [hi])).1, hi]
  have hh := h.header_congr fun i hi => (he i (hi.trans_ne Owner.noConfusion)).2
  have hvl {handle : ℕ} (hv : ValueAt s.currentMap own handle) :
      ValueAt s'.currentMap own' handle := he.keepsValues.valueAt hv
  have hb : s'.currentKeyBlock = s.currentKeyBlock := congrArg Place.block hp
  have hks : s'.currentKeySize = s.currentKeySize := congrArg Place.size hp
  have hko : s'.currentKeyOfs = s.currentKeyOfs := congrArg Place.pos hp
  exact
    { ge := h.ge.trans hof
      aligned := ha
      page := hpg
      watermark := hw
      size := hs
      fresh := hf
      owned := hod
      head := how Owner.noConfusion h.head
      magic := hh.1
      count := hh.2
      chain := by
        rw [hp]
        refine h.chain.congr (fun i hi => ?_) (fun i hi => ?_) hof
        · rw [(he i (hi.trans_ne Owner.noConfusion)).1, hi]
        · exact (he i (hi.trans_ne Owner.noConfusion)).2
      room := by
        rw [hp, hb, hks]
        exact how Owner.noConfusion h.room
      reserved := by
        rw [hko, hks]
        exact h.reserved
      block := by
        rw [hks]
        exact h.block
      values := fun key hk => hvl (h.values key hk)
      handles := fun handle hhn => hvl (h.handles handle hhn)
      nodup := h.nodup }

end Layout

def PersistState.packing (s : PersistState) : Packing :=
  ⟨s.currentOfs, s.currentSize, s.currentKeySize - s.currentKeyOfs⟩

/-- A new value, with space for `origSize` bytes. -/
structure Allocated (s : PersistState) (own : ℤ → Owner) (origSize : ℕ) (inUse : Bool)
    (version : UInt8) (s' : PersistState) (own' : ℤ → Owner) (handle : ℕ) : Prop where
  handle_eq : handle = s.currentOfs + valueHeaderSize
  keeps : Extends s own s' own'
  size : s'.currentMap.read32 (handle - valueHeaderSize) = origSize
  inUse : s'.currentMap (handle - valueHeaderSize + 4) = inUseByte inUse
  version : s'.currentMap (handle - valueHeaderSize + 5) = version
  owns : OwnedBy own' (handle - valueHeaderSize) (handle + PersistState.roundUp origSize)
    (.value handle)
  keys : s'.keys = s.keys
  place : s'.place = s.place
  packing : s'.packing = s.packing.take (PersistState.roundUp origSize)

namespace Layout

variable {s : PersistState} {own : ℤ → Owner} {recs : List (Name × ℕ)} {handles : List ℕ}

theorem takeSpace_of_lt {origSize : ℕ} {inUse : Bool} {version : UInt8} {i : ℤ}
    (hi : i < s.currentOfs) : (s.takeSpace origSize inUse version).currentMap i = s.currentMap i :=
  Image.write_of_lt hi

theorem allocValue (h : Layout s own recs handles) {origSize : ℕ}
    (hf : s.CheckFreeSpace (PersistState.roundUp origSize)) (hs : origSize ≤ 2 ^ 32 - 8)
    (hr : s.currentSize + fileInitialSize < 2 ^ 32) (inUse : Bool) (version : UInt8) :
    ∃ own', Layout (s.allocValue origSize inUse version true).1 own' recs handles ∧
      Allocated s own origSize inUse version (s.allocValue origSize inUse version true).1 own'
        (s.allocValue origSize inUse version true).2 := by
  obtain ⟨hrn, ha⟩ := roundUp_of_le hs
  have hge := h.ge
  have hmd := h.aligned
  rw [allocValue_of_free hf]
  unfold PersistState.CheckFreeSpace valueHeaderSize at hf
  unfold headerSize at hge
  have hhn : (s.currentOfs + valueHeaderSize) % 2 ^ 32 = s.currentOfs + 8 :=
    Nat.mod_eq_of_lt (by unfold valueHeaderSize; omega)
  rw [hhn]
  let t := s.takeSpace origSize inUse version
  have ho : t.currentOfs = s.currentOfs + roundUp origSize + 8 :=
    takeSpace_currentOfs (by unfold valueHeaderSize; omega)
  have ht : t.currentSize = s.currentSize := rfl
  have hm : t.currentMap.slice 0 4 = Persist.magic := by
    rw [← h.magic]
    exact Image.slice_congr fun i _ hi => takeSpace_of_lt (by omega)
  have hg := keepWatermark_currentSize (by omega : t.currentOfs ≤ t.currentSize) h.page hr
  unfold fileInitialSize at hr
  have hpg := h.page
  have hmp {i : ℤ} (hi : i < s.currentSize) : (t.keepWatermark true).currentMap i =
      t.currentMap i := keepWatermark_map hm (by omega) hi
  have hb {i : ℤ} (hi : own i ≠ .free) : i < s.currentOfs := by
    by_contra hge
    exact hi (h.fresh i (by omega))
  let own' := assign own s.currentOfs (s.currentOfs + 8 + roundUp origSize)
    (.value (s.currentOfs + 8))
  have he : Extends s own (t.keepWatermark true) own' := by
    intro i hi
    have hi := hb hi
    exact ⟨assign_of_not_mem (by omega), (hmp (by omega)).trans (takeSpace_of_lt hi)⟩
  refine ⟨own', ?_, ?_⟩
  · apply h.extend he keepWatermark_place
    · rw [keepWatermark_currentOfs]
      omega
    · rw [keepWatermark_currentOfs]
      omega
    · rw [hg]
      unfold fileInitialSize
      split_ifs <;> omega
    · rw [keepWatermark_currentOfs, hg]
      unfold fileWatermark fileInitialSize
      split_ifs <;> omega
    · rw [hg]
      unfold fileInitialSize
      split_ifs <;> omega
    · rw [keepWatermark_currentOfs]
      intro i hi
      have hk : own' i = own i := assign_of_not_mem (by omega)
      rw [hk, h.fresh i (by omega)]
    · rw [keepWatermark_currentOfs]
      intro i handle hi
      by_cases hmm : (s.currentOfs : ℤ) ≤ i ∧ i < s.currentOfs + 8 + roundUp origSize
      · have hn : own' i = .value (s.currentOfs + 8) := assign_of_mem hmm.1 hmm.2
        cases hn.symm.trans hi
        omega
      · have hk : own' i = own i := assign_of_not_mem hmm
        have hol := h.owned i handle (hk.symm.trans hi)
        omega
  · -- the header is where the space begins
    have hh : ((s.currentOfs + 8 : ℕ) : ℤ) - valueHeaderSize = s.currentOfs := by
      unfold valueHeaderSize
      omega
    constructor
    · rfl
    · exact he
    · rw [hh, Image.read32_congr fun i _ hi => hmp (by omega)]
      exact Image.read32_write_append (by omega) _
    · rw [hh, hmp (by omega)]
      exact Image.write_add (by simp)
    · rw [hh, hmp (by omega)]
      exact Image.write_add (by simp)
    · rw [hh]
      exact ownedBy_assign
    · exact keepWatermark_keys
    · exact keepWatermark_place
    · have hp : (t.keepWatermark true).place = s.place := keepWatermark_place
      have hks : (t.keepWatermark true).currentKeySize = s.currentKeySize :=
        congrArg Place.size hp
      have hko : (t.keepWatermark true).currentKeyOfs = s.currentKeyOfs :=
        congrArg Place.pos hp
      unfold packing Packing.take
      rw [hg, hks, hko, keepWatermark_currentOfs, ho]
      rfl

end Layout

end SyslogNg.Persist
