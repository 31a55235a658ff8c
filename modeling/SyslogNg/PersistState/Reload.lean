import Mathlib.Data.List.TakeWhile
import SyslogNg.PersistState.Content
import SyslogNg.PersistState.Untrusted

/-!
# Loading a committed file again

The load walks along the chain of keys that the store wrote, and puts every value that is in use
into the new file. The new file then holds what was in use in the old one, in the same order, if
every value fits when it is its turn. That depends only on what the old file holds.
-/
namespace SyslogNg.Persist

open List PersistState LoadState

variable {s t : PersistState} {own own' : ℤ → Owner} {recs recs' : List (Name × ℕ)}
  {handles : List ℕ} {f : File} {a : Place} {i handle : ℕ} {name : Name}

/-! ### One step on a chain -/

def Place.enter (a : Place) (i : ℕ) : LoadState := ⟨a.block, a.size, a.pos, i⟩

theorem cString_of_nonzero (h : 0 ∉ name) : cString name = name := by
  unfold cString
  rw [takeWhile_eq_self_iff]
  intro byte hb
  simp only [decide_not, Bool.not_eq_eq_eq_not, Bool.not_true, decide_eq_false_iff_not]
  rintro rfl
  exact h hb

def copyOf (s : PersistState) (key : Name × ℕ) : Copied :=
  ⟨key.1, key.2, (s.content key.2).size, (s.content key.2).version⟩

theorem loadStep_enter (hi : i < keyCount f) (he : (a.enter i).keyEnd f ≤ a.size) :
    (loadStep f .normal (a.enter i)).value = ((a.enter i).follow f .normal).value := by
  have hle : a.pos + 4 + (a.enter i).nameLen f ≤ (a.enter i).keyEnd f := Nat.le_add_right _ _
  have he' : ¬(a.enter i).keyEnd f > (a.enter i).keySize := not_lt.mpr he
  have hn : ¬(a.enter i).pos + 4 + (a.enter i).nameLen f > (a.enter i).keySize :=
    not_lt.mpr (hle.trans he)
  have hl : ¬(a.enter i).pos + 4 > (a.enter i).keySize :=
    not_lt.mpr ((Nat.le_add_right _ _).trans (hle.trans he))
  have hlt : (a.enter i).i < keyCount f := hi
  rw [loadStep_of_lt hlt, if_neg hl, if_neg hn, if_neg he']

theorem loadStep_key (hi : i < keyCount s.commit) (hn : ValidName name)
    (hk : KeyAt s.currentMap a.addr name handle) (hft : a.pos + keySpan name ≤ a.size)
    (hge : headerSize + valueHeaderSize ≤ handle) (hle : handle ≤ s.currentSize)
    (hlt : s.currentSize < 2 ^ 32) : (loadStep s.commit .normal (a.enter i)).value =
      .go (Place.enter { a with pos := a.pos + keySpan name } (i + 1))
        (if s.InUse handle then some (copyOf s (name, handle)) else none) := by
  have hl : (a.enter i).nameLen s.commit = name.length := hk.length
  have hnm : (a.enter i).name s.commit = name := by
    unfold LoadState.name
    rw [hl]
    exact (congrArg cString hk.bytes).trans (cString_of_nonzero hn.nonzero)
  have ho : (a.enter i).keyOfs s.commit = handle := by
    unfold keyOfs
    rw [hl]
    exact hk.value
  have he : (a.enter i).keyEnd s.commit = a.pos + keySpan name := by
    have hp : (a.enter i).pos = a.pos := rfl
    unfold keyEnd keySpan
    omega
  have hh : headerOf handle = handle - valueHeaderSize := headerOf_of_le (by omega) (by omega)
  rw [loadStep_enter hi (by rw [he]; exact hft)]
  unfold follow
  rw [hnm, if_pos hn.ne, ho, he]
  unfold loadEntry
  have hbn : ¬(handle < headerSize ∨ handle > s.commit.size) := by
    change ¬(handle < headerSize ∨ handle > s.currentSize)
    omega
  rw [if_neg hbn]
  have hf : s.InUse handle ↔ s.commit.bytes (handle - valueHeaderSize + 4) ≠ 0 := by
    rw [← hh]
    rfl
  have hc : copyOf s (name, handle) =
    ⟨name, handle, s.commit.bytes.read32 (handle - valueHeaderSize),
      s.commit.bytes (handle - valueHeaderSize + 5)⟩ := by
    rw [← hh]
    rfl
  by_cases hiu : s.InUse handle
  · have hb : (s.commit.bytes.get8 (handle - valueHeaderSize + 4)).value ≠ 0 ∨
        Mode.normal ≠ .normal := .inl (hf.mp hiu)
    rw [if_pos hiu, hc]
    simp only [Logged.value_bind]
    rw [if_pos hb]
    rfl
  · have hb : ¬((s.commit.bytes.get8 (handle - valueHeaderSize + 4)).value ≠ 0 ∨
        Mode.normal ≠ .normal) := not_or.mpr ⟨mt hf.mpr hiu, not_not.mpr rfl⟩
    rw [if_neg hiu]
    simp only [Logged.value_bind]
    rw [if_neg hb]
    rfl

theorem loadStep_link {next : ℕ} (hi : i < keyCount s.commit) (hl : LinkAt s.currentMap a.addr next)
    (hf : a.pos + 8 ≤ a.size) (hge : headerSize ≤ next) (hle : next + keyBlockSize ≤ s.currentSize)
    (hlt : s.currentSize < 2 ^ 32) :
    (loadStep s.commit .normal (a.enter i)).value =
      .go (Place.enter ⟨next, keyBlockSize, 0⟩ i) none := by
  have hln : (a.enter i).nameLen s.commit = 0 := hl.unnamed
  have hu : (a.enter i).name s.commit = [] := by
    unfold LoadState.name
    rw [hln]
    rfl
  have ho : (a.enter i).keyOfs s.commit = next := by
    unfold keyOfs
    rw [hln]
    exact (congrArg s.currentMap.read32 (add_zero _)).trans hl.target
  have he : (a.enter i).keyEnd s.commit = a.pos + 8 := by
    unfold keyEnd
    rw [hln]
    rfl
  have hsize : s.commit.bytes.read32 (next - valueHeaderSize) = keyBlockSize := hl.size
  have hb : ¬(next = 0 ∨ next > s.commit.size) := by
    change ¬(next = 0 ∨ next > s.currentSize)
    unfold headerSize at hge
    omega
  have hw : ¬(next + keyBlockSize) % 2 ^ 32 > s.commit.size := by
    rw [Nat.mod_eq_of_lt (by omega)]
    exact not_lt.mpr hle
  rw [loadStep_enter hi (by rw [he]; exact hf)]
  unfold follow
  rw [hu, if_neg (not_not.mpr rfl), ho]
  unfold loadChain
  rw [if_neg hb]
  simp only [Logged.value_bind]
  rw [Image.value_get32, hsize, if_neg hw]
  rfl

/-! ### The new file -/

/-- The new file after some of the keys of the old one. -/
structure Loaded (s : PersistState) (done : List (Name × ℕ)) (t : PersistState) (own : ℤ → Owner)
    (recs : List (Name × ℕ)) : Prop where
  intact : Intact t own recs []
  dump : t.dump recs = s.dump (done.filter fun key => s.InUse key.2)
  keys : t.keys = tableOf recs
  unused : ∀ key ∈ recs, ¬t.InUse key.2

def initialOwners : ℤ → Owner :=
  assign (assign (fun _ => .free) 0 initialKeyStore .header) initialKeyStore headerSize .room

theorem layout_createStore : Layout .createStore initialOwners [] [] where
  ge := by decide
  aligned := by decide
  page := by decide
  watermark := by decide
  size := by decide
  fresh := by
    intro i hi
    have hge : (headerSize : ℤ) ≤ i := hi
    have hle : initialKeyStore ≤ headerSize := by decide
    unfold initialOwners
    rw [assign_of_not_mem (by omega), assign_of_not_mem (by omega)]
  owned := by
    intro i handle hi
    have hf := of_assign (of_assign hi Owner.noConfusion) Owner.noConfusion
    cases hf
  head := ownedBy_assign.assign_of_disjoint (.inl le_rfl)
  magic := by decide +kernel
  count := by decide +kernel
  chain := .nil
  room := ownedBy_assign
  reserved := by decide
  block := by decide
  values := fun _ hk => absurd hk not_mem_nil
  handles := fun _ hh => absurd hh not_mem_nil
  nodup := nodup_nil

theorem loaded_createStore (s : PersistState) : Loaded s [] .createStore initialOwners [] where
  intact := ⟨layout_createStore, by decide +kernel⟩
  dump := by
    unfold dump
    rw [filter_nil, map_nil, map_nil]
  keys := by
    rfl
  unused := fun _ hk => absurd hk not_mem_nil

namespace Loaded

variable {done : List (Name × ℕ)} {key : Name × ℕ}

section

variable (h : Loaded s done t own' recs')
include h

theorem packing : t.packing = packed (s.dump (done.filter fun key => s.InUse key.2)) := by
  rw [h.intact.packing, h.dump]

/-- The new file holds some of what the old one holds, so it is not larger. -/
theorem currentSize_lt (hs : Intact s own recs handles)
    (hsize : s.currentSize < 2 ^ 31) (hd : done.Sublist recs) :
    t.currentSize + 2 * fileInitialSize < 2 ^ 32 := by
  have hsb : ((s.dump (done.filter fun key => s.InUse key.2)).map demand).Sublist
      ((s.dump recs).map demand) := ((filter_sublist.trans hd).map _).map _
  have hu := Packing.used_le_of_sublist hsb
  have hb := Packing.size_le ((s.dump (done.filter fun key => s.InUse key.2)).map demand)
  have hns : t.currentSize = _ := congrArg Packing.size h.packing
  have ho : s.currentOfs = _ := congrArg Packing.used hs.packing
  have hw := hs.watermark
  unfold packed at hns ho
  unfold fileWatermark fileInitialSize at *
  omega

theorem copy (hs : Intact s own recs handles)
    (hm : (name, handle) ∈ recs) (hn : ValidName name) (hiu : s.InUse handle)
    (hf : t.packing.Fits (demand (name, s.content handle)))
    (hr : t.currentSize + 2 * fileInitialSize < 2 ^ 32) :
    ∃ own'' recs'', Loaded s (done ++ [(name, handle)])
      (t.copyEntry s.commit (copyOf s (name, handle)) (true, true)) own'' recs'' := by
  have hv := hs.values _ hm
  have hle := hs.value_le hv
  have hge := hv.ge
  have hlt := hs.size
  have hw := hs.watermark
  unfold headerSize valueHeaderSize at hge
  have hsize : (s.content handle).size ≤ 2 ^ 32 - 8 := by
    unfold content
    rw [hs.headerOf_value hv]
    dsimp only at hle ⊢
    omega
  cases ha : t.allocValue (s.content handle).size false (s.content handle).version true with
  | mk t₁ new =>
    obtain ⟨t', own'', had, hit, hin⟩ := h.intact.insert hn hsize hf hr ha
      (m := t₁.currentMap.copy new s.currentMap handle (s.content handle).size)
      fun i hi => Image.copy_of_not_mem hi
    have hcp : t.copyEntry s.commit (copyOf s (name, handle)) (true, true) = t' := by
      unfold copyEntry copyOf commit
      rw [ha]
      dsimp only
      rw [had]
    have hc : t'.content new = s.content handle := by
      rw [hin.content, Image.slice_copy_self]
      rfl
    rw [hcp]
    refine ⟨own'', recs' ++ [(name, new)], ⟨hit.dropHandles, ?_⟩, ?_, ?_, ?_⟩
    · exact hit.packing
    · have ho : t'.dump recs' = t.dump recs' := dump_congr fun key hk =>
        hin.keeps.content h.intact.toLayout (h.intact.values key hk)
      have hl : [(name, handle)].filter (fun key => s.InUse key.2) = [(name, handle)] := by
        simp [hiu]
      rw [dump_append, ho, hc, h.dump, filter_append, hl, dump_append]
    · rw [hin.keys, h.keys, tableOf_append]
    · intro key hk
      rcases mem_append.mp hk with ho | hnw
      · rw [hin.keeps.inUse h.intact.toLayout (h.intact.values key ho)]
        exact h.unused key ho
      · rw [mem_singleton.mp hnw, hin.inUse]
        exact Bool.false_ne_true

end

end Loaded

/-! ### The whole load -/

def always (_ : ℕ) : Bool × Bool := (true, true)

/-- Where a step copies a value to in the new file. -/
def copyTargets (f : File) (p : LoadState × PersistState) : List Extent :=
  (loadStep f .normal p.1).value.copied.elim [] fun copied =>
    [((p.2.allocValue copied.size false copied.version true).2, copied.size)]

/-- A step of the load together with the new file. -/
def loadBoth (f : File) (p : LoadState × PersistState) : Option (LoadState × PersistState) :=
  (loadNext f .normal p.1).map fun st => (st, loadEffect f .normal always p.1 p.2)

/-- Where `persist_state_load_v4` copies values to during its first steps. -/
def loadV4Copies (f : File) (fuel : ℕ) : List Extent :=
  outputs (loadBoth f) (copyTargets f) fuel (.start, .createStore)

def stepEntry (f : File) (st : LoadState) : List Copied :=
  (loadStep f .normal st).value.copied.toList

/-- The entries in use that `persist_state_load_v4` finds in the file, in its first steps from `st`
on. -/
def inUseEntries (f : File) (st : LoadState) (fuel : ℕ) : List Copied :=
  outputs (loadNext f .normal) (stepEntry f) fuel st

def Copied.demand (copied : Copied) : Demand := ⟨keySpan copied.name, copied.size⟩

def PersistState.demands (s : PersistState) (recs : List (Name × ℕ)) : List Demand :=
  (s.dump (recs.filter fun key => s.InUse key.2)).map demand

theorem demands_of_inUse (h : s.InUse key.2) :
    s.demands (key :: recs) = demand (key.1, s.content key.2) :: s.demands recs := by
  unfold demands
  rw [filter_cons_of_pos (by simpa using h)]
  rfl

theorem demands_of_not_inUse (h : ¬s.InUse key.2) : s.demands (key :: recs) = s.demands recs := by
  unfold demands
  rw [filter_cons_of_neg (by simpa using h)]

section Step

variable {st next : LoadState} {copied : Option Copied}

theorem loadNext_of_go (h : (loadStep f .normal st).value = .go next copied) :
    loadNext f .normal st = some next := congrArg LoadStep.next h

theorem loadEffect_of_none (h : (loadStep f .normal st).value = .go next none) :
    loadEffect f .normal always st t = t := by
  rw [loadEffect, h]
  rfl

theorem loadEffect_of_some {c : Copied} (h : (loadStep f .normal st).value = .go next (some c)) :
    loadEffect f .normal always st t = t.copyEntry f c (true, true) := by
  rw [loadEffect, h]
  rfl

theorem loadBoth_of_go (h : (loadStep f .normal st).value = .go next copied) :
    loadBoth f (st, t) = some (next, loadEffect f .normal always st t) := by
  unfold loadBoth
  rw [loadNext_of_go h]
  rfl

end Step

/-- What a step does to the new file, for a key whose value fits if it is in use. -/
theorem Loaded.step {done : List (Name × ℕ)} {st next : LoadState} (ht : Loaded s done t own' recs')
    (hs : Intact s own recs handles) (hsize : s.currentSize < 2 ^ 31)
    (hd : (done ++ [(name, handle)]).Sublist recs) (hn : ValidName name)
    (hst : (loadStep s.commit .normal st).value =
      .go next (if s.InUse handle then some (copyOf s (name, handle)) else none))
    (hf : s.InUse handle → t.packing.Fits (demand (name, s.content handle))) :
    ∃ own'' recs'', Loaded s (done ++ [(name, handle)]) (loadEffect s.commit .normal always st t)
      own'' recs'' := by
  by_cases hiu : s.InUse handle
  · rw [if_pos hiu] at hst
    rw [loadEffect_of_some hst]
    have hm : (name, handle) ∈ recs :=
      hd.subset (mem_append_right _ (mem_singleton_self _))
    have hr := ht.currentSize_lt hs hsize ((sublist_append_left _ _).trans hd)
    exact ht.copy hs hm hn hiu (hf hiu) hr
  · rw [if_neg hiu] at hst
    rw [loadEffect_of_none hst]
    refine ⟨own', recs', { ht with dump := ?_ }⟩
    rw [ht.dump]
    simp [hiu]

theorem packs_demands_cons {p : Packing} : p.Packs (s.demands (key :: recs)) ↔
    (s.InUse key.2 → p.Fits (demand (key.1, s.content key.2))) ∧
      ((if s.InUse key.2 then p.add (demand (key.1, s.content key.2)) else p).Packs
        (s.demands recs)) := by
  by_cases hiu : s.InUse key.2
  · rw [demands_of_inUse hiu, if_pos hiu]
    exact and_congr_left fun _ => ⟨fun h _ => h, fun h => h hiu⟩
  · rw [demands_of_not_inUse hiu, if_neg hiu]
    exact (and_iff_right fun h => absurd h hiu).symm

theorem packed_filter_append {done : List (Name × ℕ)} (key : Name × ℕ) :
    packed (s.dump ((done ++ [key]).filter fun key => s.InUse key.2)) = if s.InUse key.2 then
        (packed (s.dump (done.filter fun key => s.InUse key.2))).add
          (demand (key.1, s.content key.2))
      else packed (s.dump (done.filter fun key => s.InUse key.2)) := by
  rw [filter_append]
  split_ifs with hiu
  · have hl : [key].filter (fun key => s.InUse key.2) = [key] := by simp [hiu]
    rw [hl, dump_append, packed_append]
  · have hl : [key].filter (fun key => s.InUse key.2) = [] := by simp [hiu]
    rw [hl, append_nil]

theorem keyCount_commit (hs : Intact s own recs handles) (hsize : s.currentSize < 2 ^ 31) :
    keyCount s.commit = recs.length := by
  have hle := hs.length_le
  have hw := hs.watermark
  have hc : s.commit.bytes.read32 keyCountOfs = recs.length := hs.count
  unfold keyCount
  rw [hc]
  exact Int.bmod_eq_of_le (by omega) (by omega)

theorem loadStep_of_le (hi : keyCount f ≤ i) : (loadStep f .normal (a.enter i)).value = .stop := by
  have hn : ¬(a.enter i).i < keyCount f := not_lt.mpr hi
  rw [loadStep_of_not_lt hn]
  rfl

/-- The steps of the load, with the keys that are still to come. -/
inductive Walk (s : PersistState) : LoadState → List (Name × ℕ) → Prop
  | stop {st} (hstep : (loadStep s.commit .normal st).value = .stop) : Walk s st []
  | key {st next name handle rest} (hname : ValidName name)
      (hstep : (loadStep s.commit .normal st).value =
        .go next (if s.InUse handle then some (copyOf s (name, handle)) else none))
      (hrest : Walk s next rest) : Walk s st ((name, handle) :: rest)
  | link {st next rest} (hstep : (loadStep s.commit .normal st).value = .go next none)
      (hrest : Walk s next rest) : Walk s st rest

section

variable (hs : Intact s own recs handles) (hsize : s.currentSize < 2 ^ 31)
include hs hsize

/-- The load goes along the chain, and ends with its last key. -/
theorem KeyChain.walk {rest : List (Name × ℕ)} {c : Place}
    (h : KeyChain s.currentMap own s.currentOfs a rest c)
    (hsb : rest ⊆ recs) (hi : i + rest.length = recs.length) : Walk s (a.enter i) rest := by
  have hc := keyCount_commit hs hsize
  have hw := hs.watermark
  have hlt := hs.size
  induction h generalizing i with
  | nil =>
    rw [length_nil] at hi
    exact .stop (loadStep_of_le (by omega))
  | key hn hk _ hf _ ih =>
    rw [length_cons] at hi
    have hv := hs.values _ (hsb mem_cons_self)
    have hle := hs.value_le hv
    have hst := loadStep_key (i := i) (by omega) hn hk hf hv.ge (by omega) hlt
    exact .key hn hst (ih (cons_subset.mp hsb).2 (by omega))
  | @link a next rest c hl _ hf _ hge hle _ ih =>
    by_cases hls : i < recs.length
    · have hst := loadStep_link (by omega : (i : ℤ) < keyCount s.commit) hl hf hge (by omega) hlt
      exact .link hst (ih hsb hi)
    · -- the chain goes on, but all keys were read
      have hnl : rest = [] := length_eq_zero_iff.mp (by omega)
      subst hnl
      exact .stop (loadStep_of_le (by omega))

theorem Intact.walk : Walk s .start recs :=
  hs.chain.walk hs hsize (List.Subset.refl _) (Nat.zero_add _)

end

theorem Layout.headerSize_le_iff (h : Layout t own recs handles) {size : ℕ} {version : UInt8} :
    (headerSize : ℤ) ≤ (t.allocValue size false version true).2 ↔
      t.CheckFreeSpace (PersistState.roundUp size) := by
  have hge := h.ge
  have hlt := h.size
  by_cases hf : t.CheckFreeSpace (roundUp size)
  · rw [allocValue_of_free hf]
    refine iff_of_true ?_ hf
    unfold PersistState.CheckFreeSpace at hf
    omega
  · rw [allocValue_of_not_free hf]
    exact iff_of_false (by decide : ¬(headerSize : ℤ) ≤ (0 : ℕ)) hf

namespace Walk

variable {st : LoadState} {done rest : List (Name × ℕ)} {p : Packing}

/-- What the load finds in use in the file is what the keys stand for. -/
theorem entries_iff (h : Walk s st rest) :
    (∀ fuel, p.Packs ((inUseEntries s.commit st fuel).map Copied.demand)) ↔
      p.Packs (s.demands rest) := by
  induction h generalizing p with
  | @stop st hst =>
    refine iff_of_true (fun fuel => ?_) trivial
    have hn : inUseEntries s.commit st fuel = [] := by
      cases fuel with
      | zero => rfl
      | succ fuel =>
        rw [inUseEntries, outputs, stepEntry, loadNext, hst]
        rfl
    rw [hn]
    trivial
  | @key st next name handle rest hnm hst _ ih =>
    rw [packs_demands_cons, ← ih, ← forall_and_left]
    refine (forall_outputs_of_some (P := fun entries => p.Packs (entries.map Copied.demand)) trivial
      (loadNext_of_go hst)).trans (forall_congr' fun fuel => ?_)
    rw [map_append, Packing.Packs, along_append, stepEntry, hst]
    by_cases hiu : s.InUse handle
    · rw [if_pos hiu, if_pos hiu]
      exact ⟨fun h => ⟨fun _ => h.1.1, h.2⟩, fun h => ⟨⟨h.1 hiu, trivial⟩, h.2⟩⟩
    · rw [if_neg hiu, if_neg hiu]
      exact ⟨fun h => ⟨fun hu => absurd hu hiu, h.2⟩, fun h => ⟨trivial, h.2⟩⟩
  | @link st next rest hst _ ih =>
    rw [← ih]
    refine (forall_outputs_of_some (P := fun entries => p.Packs (entries.map Copied.demand)) trivial
      (loadNext_of_go hst)).trans (forall_congr' fun fuel => ?_)
    rw [stepEntry, hst]
    rfl

theorem forall_loadBoth {next : LoadState} {copied : Option Copied} {P : Extent → Prop}
    (hst : (loadStep s.commit .normal st).value = .go next copied) :
    (∀ fuel, ∀ copy ∈ outputs (loadBoth s.commit) (copyTargets s.commit) fuel (st, t), P copy) ↔
      (∀ copy ∈ copyTargets s.commit (st, t), P copy) ∧
        ∀ fuel, ∀ copy ∈ outputs (loadBoth s.commit) (copyTargets s.commit) fuel
          (next, loadEffect s.commit .normal always st t), P copy := by
  rw [forall_outputs]
  refine and_congr_right fun _ => ⟨fun h => h _ (loadBoth_of_go hst), fun h both hb => ?_⟩
  cases (loadBoth_of_go hst).symm.trans hb
  exact h

section

variable (h : Walk s st rest) (hs : Intact s own recs handles) (hsize : s.currentSize < 2 ^ 31)
  (hrecs : done ++ rest = recs) (ht : Loaded s done t own' recs')
include h hs hsize hrecs ht

/-- A value that does not fit is copied over the header. -/
theorem copies_iff :
    (∀ fuel, ∀ copy ∈ outputs (loadBoth s.commit) (copyTargets s.commit) fuel (st, t),
      (headerSize : ℤ) ≤ copy.1) ↔ t.packing.Packs (s.demands rest) := by
  induction h generalizing done t own' recs' with
  | @stop st hst =>
    refine iff_of_true (forall_outputs.mpr ⟨fun copy hc => ?_, fun both hb => ?_⟩) trivial
    · rw [copyTargets, hst] at hc
      cases hc
    · rw [loadBoth, loadNext, hst] at hb
      cases hb
  | @key st next name handle rest hn hst _ ih =>
    have htr : (∀ copy ∈ copyTargets s.commit (st, t), (headerSize : ℤ) ≤ copy.1) ↔
        (s.InUse handle → t.packing.Fits (demand (name, s.content handle))) := by
      rw [copyTargets, hst]
      by_cases hiu : s.InUse handle
      · rw [if_pos hiu]
        refine forall_mem_singleton.trans (ht.intact.headerSize_le_iff.trans ?_)
        exact ⟨fun h _ => h, fun h => h hiu⟩
      · rw [if_neg hiu]
        exact iff_of_true (fun copy hc => absurd hc not_mem_nil) fun h => absurd h hiu
    rw [forall_loadBoth hst, htr, packs_demands_cons]
    refine and_congr_right fun hf => ?_
    have hrecs' : (done ++ [(name, handle)]) ++ rest = recs := by simpa using hrecs
    have hd := hrecs' ▸ sublist_append_left _ _
    obtain ⟨own₁, recs₁, ht₁⟩ := ht.step hs hsize hd hn hst hf
    rw [ih hrecs' ht₁, ht₁.packing, packed_filter_append, ← ht.packing]
  | @link st next rest hst _ ih =>
    have htr : copyTargets s.commit (st, t) = [] := by
      rw [copyTargets, hst]
      rfl
    rw [forall_loadBoth hst, htr, loadEffect_of_none hst, ih hrecs ht]
    exact and_iff_right fun copy hc => absurd hc not_mem_nil

theorem run (hp : t.packing.Packs (s.demands rest)) :
    ∃ fuel t' own'' recs'',
      loop (loadNext s.commit .normal) (loadEffect s.commit .normal always) fuel
      st t = some t' ∧ Loaded s recs t' own'' recs'' := by
  induction h generalizing done t own' recs' with
  | stop hst =>
    rw [append_nil] at hrecs
    subst hrecs
    exact ⟨1, t, own', recs', loop_of_none (congrArg LoadStep.next hst), ht⟩
  | @key st next name handle rest hn hst _ ih =>
    obtain ⟨hf, hp⟩ := packs_demands_cons.mp hp
    have hrecs' : (done ++ [(name, handle)]) ++ rest = recs := by simpa using hrecs
    have hd := hrecs' ▸ sublist_append_left _ _
    obtain ⟨own₁, recs₁, ht₁⟩ := ht.step hs hsize hd hn hst hf
    have hpc := ht₁.packing.trans (packed_filter_append _)
    rw [← ht.packing] at hpc
    rw [← hpc] at hp
    obtain ⟨fuel, t', own'', recs'', hl, ht'⟩ := ih hrecs' ht₁ hp
    refine ⟨fuel + 1, t', own'', recs'', ?_, ht'⟩
    rw [loop_of_some (loadNext_of_go hst)]
    exact hl
  | link hst _ ih =>
    obtain ⟨fuel, t', own'', recs'', hl, ht'⟩ := ih hrecs ht hp
    refine ⟨fuel + 1, t', own'', recs'', ?_, ht'⟩
    rw [loop_of_some (loadNext_of_go hst), loadEffect_of_none hst]
    exact hl

end

end Walk

end SyslogNg.Persist
