import SyslogNg.Foundations.Run
import SyslogNg.PersistState.Load

/-!
# Allocations that fail

`persist_state_alloc_entry` returns 0 when the value, the key block or the key does not fit. What
it did before that is not rolled back. The only fact about reachable states that is needed here is
that handles are below the end of what is in use, which does not depend on the bytes of the file.
-/
namespace SyslogNg.Persist

/-- The calls on an open store; `write` is a write of its user to mapped memory. -/
inductive Op
  | allocEntry (persistName : Name) (allocSize : ℕ) (grows : Bool × Bool)
  | lookupEntry (key : Name)
  | renameEntry (oldKey newKey : Name)
  | write (ofs : ℤ) (bytes : List UInt8)

namespace PersistState

def write (s : PersistState) (ofs : ℤ) (bytes : List UInt8) : PersistState :=
  { s with currentMap := s.currentMap.write ofs bytes }

def apply (s : PersistState) : Op → PersistState
  | .allocEntry persistName allocSize grows => (s.allocEntry persistName allocSize grows).1
  | .lookupEntry key => (s.lookupEntry key).1
  | .renameEntry oldKey newKey => (s.renameEntry oldKey newKey).1
  | .write ofs bytes => s.write ofs bytes

end PersistState

/-- A store that was opened with any committed file. -/
def anyFileSystem : System PersistState Op where
  init s := ∃ f mode grows fuel, loadV4 f mode grows fuel PersistState.createStore = some (s, true)
  step s op s' := s' = s.apply op

theorem update_eq_some {α β : Type*} [DecidableEq α] {f : α → Option β} {a b : α} {v : Option β}
    {w : β} : Function.update f a v b = some w ↔ b = a ∧ v = some w ∨ b ≠ a ∧ f b = some w := by
  rw [Function.update_apply]
  split_ifs with h <;> simp [h]

structure Bounds (s : PersistState) : Prop where
  ofs : s.currentOfs ≤ s.currentSize
  size : s.currentSize < 2 ^ 32
  handle : ∀ key handle, s.keys key = some handle → handle ≤ s.currentOfs

namespace Bounds

variable {s s' : PersistState} {key : Name} {handle : ℕ} {grows : Bool}

theorem congr (h : Bounds s) (ho : s'.currentOfs = s.currentOfs)
    (hs : s'.currentSize = s.currentSize) (hk : s'.keys = s.keys) : Bounds s' where
  ofs := by
    rw [ho, hs]
    exact h.ofs
  size := by
    rw [hs]
    exact h.size
  handle := by
    rw [hk, ho]
    exact h.handle

theorem update (h : Bounds s) (hh : handle ≤ s.currentOfs) :
    Bounds { s with keys := Function.update s.keys key (some handle) } where
  ofs := h.ofs
  size := h.size
  handle := by
    intro other found hf
    rcases update_eq_some.mp hf with ⟨-, hn⟩ | ⟨-, ho⟩
    · exact Option.some.inj hn ▸ hh
    · exact h.handle other found ho

theorem createStore : Bounds PersistState.createStore where
  ofs := by decide
  size := by decide
  handle := by
    intro key handle hf
    cases hf

section

variable (h : Bounds s)
include h

/-- An allocation that succeeds returns a new handle. -/
theorem allocValue (origSize : ℕ) (inUse : Bool) (version : UInt8) (grows : Bool) :
    Bounds (s.allocValue origSize inUse version grows).1 ∧
      s.currentOfs ≤ (s.allocValue origSize inUse version grows).1.currentOfs ∧
      (s.allocValue origSize inUse version grows).2 ≤
        (s.allocValue origSize inUse version grows).1.currentOfs ∧
      (s.CheckFreeSpace (PersistState.roundUp origSize) →
        (s.allocValue origSize inUse version grows).2 = s.currentOfs + valueHeaderSize) := by
  by_cases hf : s.CheckFreeSpace (PersistState.roundUp origSize)
  · rw [PersistState.allocValue_of_free hf]
    have hs := h.size
    unfold PersistState.CheckFreeSpace at hf
    have hh : (s.currentOfs + valueHeaderSize) % 2 ^ 32 = s.currentOfs + valueHeaderSize :=
      Nat.mod_eq_of_lt (by omega)
    have ho : ((s.takeSpace origSize inUse version).keepWatermark grows).currentOfs =
        s.currentOfs + PersistState.roundUp origSize + valueHeaderSize := by
      rw [PersistState.keepWatermark_currentOfs, PersistState.takeSpace_currentOfs (by omega)]
    have hg : (s.takeSpace origSize inUse version).currentSize ≤
        ((s.takeSpace origSize inUse version).keepWatermark grows).currentSize :=
      PersistState.le_keepWatermark_currentSize
    have hsm : (s.takeSpace origSize inUse version).currentSize = s.currentSize := rfl
    rw [hh]
    dsimp only
    refine ⟨⟨by omega, PersistState.keepWatermark_currentSize_lt hs, ?_⟩, by omega,
      by omega, fun _ => rfl⟩
    intro key handle hfn
    rw [PersistState.keepWatermark_keys] at hfn
    have := h.handle key handle hfn
    omega
  · rw [PersistState.allocValue_of_not_free hf]
    exact ⟨h, le_rfl, Nat.zero_le _, fun hf' => absurd hf' hf⟩

theorem writeKey : Bounds (s.writeKey key handle).1 :=
  h.congr PersistState.writeKey_currentOfs PersistState.writeKey_currentSize
    PersistState.writeKey_keys

theorem chainTo : Bounds (s.chainTo handle) := h.congr rfl rfl rfl

theorem setMap (m : Image) : Bounds { s with currentMap := m } :=
  h.congr rfl rfl rfl

theorem setInUse (inUse : Bool) : Bounds (s.setInUse handle inUse) := h.setMap _

theorem addKeyBlock : Bounds (s.addKeyBlock key handle grows).1 := by
  have ha := (h.allocValue keyBlockSize true 0 grows).1
  unfold PersistState.addKeyBlock
  dsimp only
  split_ifs
  · exact ha
  · exact ha.chainTo.writeKey

theorem addKey (hh : handle ≤ s.currentOfs) : Bounds (s.addKey key handle grows).1 := by
  unfold PersistState.addKey
  dsimp only
  split_ifs
  · exact (h.update hh).writeKey
  · exact (h.update hh).writeKey.addKeyBlock

theorem dropEntry (persistName : Name) : Bounds (s.dropEntry persistName) := by
  unfold PersistState.dropEntry
  cases s.lookupKey persistName with
  | none => exact h
  | some handle => exact h.setInUse false

theorem freeValue : Bounds (s.freeValue handle) := by
  unfold PersistState.freeValue
  split_ifs
  · exact h
  · exact h
  · exact h
  · exact h.setInUse false

theorem allocEntry (persistName : Name) (allocSize : ℕ) (grows : Bool × Bool) :
    Bounds (s.allocEntry persistName allocSize grows).1 := by
  obtain ⟨ha, _, hh, _⟩ :=
    (h.dropEntry persistName).allocValue (allocSize % 2 ^ 32) true version grows.1
  unfold PersistState.allocEntry
  dsimp only
  split_ifs
  · exact ha
  · exact ha.addKey hh
  · exact (ha.addKey hh).freeValue

theorem lookupEntry : Bounds (s.lookupEntry key).1 := by
  unfold PersistState.lookupEntry
  cases s.lookupKey key with
  | none => exact h
  | some handle =>
    dsimp only
    split_ifs
    · exact h
    · exact h
    · exact h.setInUse true

theorem renameEntry (oldKey newKey : Name) : Bounds (s.renameEntry oldKey newKey).1 := by
  unfold PersistState.renameEntry
  cases ho : s.keys oldKey with
  | none => exact h
  | some handle =>
    have hr : Bounds { s with keys := Function.update s.keys oldKey none } := by
      refine ⟨h.ofs, h.size, fun key found hf => h.handle key found ?_⟩
      exact (update_eq_some.mp hf).elim (fun hn => nomatch hn.2) And.right
    exact hr.update (h.handle oldKey handle ho)

theorem copyEntry (f : File) (copied : Copied) (grows : Bool × Bool) :
    Bounds (s.copyEntry f copied grows) := by
  obtain ⟨ha, _, hh, _⟩ := h.allocValue copied.size false copied.version grows.1
  exact (ha.setMap _).addKey hh

theorem apply (op : Op) : Bounds (s.apply op) := by
  cases op with
  | allocEntry persistName allocSize grows => exact h.allocEntry persistName allocSize grows
  | lookupEntry key => exact h.lookupEntry
  | renameEntry oldKey newKey => exact h.renameEntry oldKey newKey
  | write ofs bytes => exact h.setMap _

theorem loadEffect (f : File) (mode : Mode) (grows : ℕ → Bool × Bool)
    (st : LoadState) : Bounds (loadEffect f mode grows st s) := by
  unfold Persist.loadEffect
  cases (loadStep f mode st).value.copied with
  | none => exact h
  | some copied => exact h.copyEntry f copied _

end

theorem reachable (h : anyFileSystem.Reachable s) : Bounds s := by
  apply h.invariant
  · rintro s ⟨f, mode, grows, fuel, hl⟩
    unfold loadV4 at hl
    split_ifs at hl with hsz
    · cases hl
    · obtain ⟨loaded, hlp, heq⟩ := Option.map_eq_some_iff.mp hl
      cases heq
      have hst : ∀ st s, Bounds s → Bounds (Persist.loadEffect f mode grows st s) :=
        fun st s hs => hs.loadEffect f mode grows st
      exact loop_invariant hst .createStore hlp
  · rintro s op _ hs rfl
    exact hs.apply op

end Bounds

/-! ### What a failed allocation changes -/

structure Observed where
  handle : ℕ
  size : ℕ
  bytes : List UInt8
  inUse : UInt8
  deriving DecidableEq

namespace PersistState

def observe (s : PersistState) (key : Name) : Option Observed :=
  (s.lookupKey key).map fun handle =>
    { handle := handle
      size := s.currentMap.read32 (headerOf handle)
      bytes := s.currentMap.slice handle (s.currentMap.read32 (headerOf handle))
      inUse := s.currentMap (headerOf handle + 4) }

/-- What can be seen of the entries after the file was committed and loaded again. -/
def observeReloaded (s : PersistState) (mode : Mode) (grows : ℕ → Bool × Bool) (fuel : ℕ) :
    Option (Name → Option Observed) :=
  (loadV4 s.commit mode grows fuel createStore).map fun loaded => loaded.1.observe

variable {s : PersistState} {persistName : Name} {handle allocSize : ℕ} {grows : Bool × Bool}

theorem observe_handle (key : Name) : (s.observe key).map Observed.handle = s.lookupKey key := by
  rw [observe, Option.map_map]
  exact Option.map_id'

theorem observe_inUse (key : Name) : (s.observe key).map Observed.inUse =
    (s.lookupKey key).map fun handle => s.currentMap (headerOf handle + 4) := by
  rw [observe, Option.map_map]
  rfl

theorem setInUse_of_eq (hz : s.currentMap (headerOf handle + 4) = 0) :
    s.setInUse handle false = s := by
  have hs : s.currentMap.write (headerOf handle + 4) [inUseByte false] = s.currentMap := by
    funext i
    rcases eq_or_ne i (headerOf handle + 4) with rfl | hne
    · rw [Image.write_singleton_self, hz]
      rfl
    · exact Image.write_singleton_of_ne hne
  unfold setInUse
  rw [hs]

theorem dropEntry_eq (s : PersistState) (persistName : Name) :
    ∃ m, s.dropEntry persistName = { s with currentMap := m } := by
  unfold dropEntry
  cases s.lookupKey persistName with
  | none => exact ⟨_, rfl⟩
  | some handle => exact ⟨_, rfl⟩

theorem dropEntry_keys : (s.dropEntry persistName).keys = s.keys := by
  obtain ⟨m, hm⟩ := s.dropEntry_eq persistName
  rw [hm]

theorem dropEntry_checkFreeSpace {size : ℕ} :
    (s.dropEntry persistName).CheckFreeSpace size ↔ s.CheckFreeSpace size := by
  obtain ⟨m, hm⟩ := s.dropEntry_eq persistName
  rw [hm]
  rfl

/-- Without space for the value, only the flag of the old entry was cleared. -/
theorem allocEntry_of_not_free (hf : ¬s.CheckFreeSpace (roundUp (allocSize % 2 ^ 32))) :
    s.allocEntry persistName allocSize grows = (s.dropEntry persistName, 0) := by
  have hd : ¬(s.dropEntry persistName).CheckFreeSpace (roundUp (allocSize % 2 ^ 32)) :=
    fun h => hf (dropEntry_checkFreeSpace.mp h)
  unfold allocEntry
  rw [allocValue_of_not_free hd]
  rfl

/-- With space for the value, the key is in the hash table, whether or not it could be stored. -/
theorem allocEntry_lookupKey_of_free (hs : Bounds s)
    (hf : s.CheckFreeSpace (roundUp (allocSize % 2 ^ 32))) :
    (s.allocEntry persistName allocSize grows).1.lookupKey persistName =
      some (s.currentOfs + valueHeaderSize) := by
  have ho : (s.dropEntry persistName).currentOfs = s.currentOfs := by
    obtain ⟨m, hm⟩ := s.dropEntry_eq persistName
    rw [hm]
  obtain ⟨_, _, _, hh⟩ :=
    (hs.dropEntry persistName).allocValue (allocSize % 2 ^ 32) true version grows.1
  have hh := hh (dropEntry_checkFreeSpace.mpr hf)
  have hne : s.currentOfs + valueHeaderSize ≠ 0 := Nat.succ_ne_zero _
  unfold allocEntry lookupKey
  dsimp only
  rw [hh, ho, if_neg hne]
  split_ifs
  · rw [addKey_keys, Function.update_self]
  · rw [freeValue_keys, addKey_keys, Function.update_self]

end PersistState

open PersistState

variable {s : PersistState}

/-- Every key and a reload show the same. -/
def PersistState.Unchanged (s s' : PersistState) : Prop :=
  (∀ key, s'.observe key = s.observe key) ∧
    ∀ mode grows fuel, s'.observeReloaded mode grows fuel = s.observeReloaded mode grows fuel

/-- There is no space for the value, and the name is not in use. -/
def PersistState.NoSpaceUnused (s : PersistState) (persistName : Name) (allocSize : ℕ) : Prop :=
  ¬s.CheckFreeSpace (roundUp (allocSize % 2 ^ 32)) ∧
    ∀ handle, s.lookupKey persistName = some handle → s.currentMap (headerOf handle + 4) = 0

/-- An allocation that fails leaves everything as it was if and only if there was no space for the
value, and the name was not in use; and then it fails. -/
theorem failed_allocEntry_unchanged_iff (hs : anyFileSystem.Reachable s) (persistName : Name)
    (allocSize : ℕ) (grows : Bool × Bool) :
    ((s.allocEntry persistName allocSize grows).2 = 0 →
        (s.Unchanged (s.allocEntry persistName allocSize grows).1 ↔
          s.NoSpaceUnused persistName allocSize)) ∧
      (s.NoSpaceUnused persistName allocSize → (s.allocEntry persistName allocSize grows).2 =
        0) := by
  refine ⟨fun _ => ⟨?_, ?_⟩, fun ⟨hf, _⟩ => by rw [allocEntry_of_not_free hf]⟩
  · rintro ⟨ho, _⟩
    have hsm := ho persistName
    by_cases hf : s.CheckFreeSpace (roundUp (allocSize % 2 ^ 32))
    · -- the new handle is behind every old one
      exfalso
      have hb := Bounds.reachable hs
      have hk := congrArg (Option.map Observed.handle) hsm
      rw [observe_handle, observe_handle, allocEntry_lookupKey_of_free hb hf] at hk
      have hle := hb.handle persistName _ hk.symm
      unfold valueHeaderSize at hle
      omega
    · refine ⟨hf, fun handle hh => ?_⟩
      have hd : s.dropEntry persistName = s.setInUse handle false := by
        rw [dropEntry, hh]
      have hh' : (s.setInUse handle false).lookupKey persistName = some handle := hh
      rw [allocEntry_of_not_free hf] at hsm
      have hfl := congrArg (Option.map Observed.inUse) hsm
      rw [observe_inUse, observe_inUse, hd, hh', hh] at hfl
      exact (Option.some.inj hfl).symm.trans (Image.write_singleton_self _)
  · rintro ⟨hf, hz⟩
    have hd : s.dropEntry persistName = s := by
      unfold dropEntry
      cases hk : s.lookupKey persistName with
      | none => rfl
      | some handle => exact setInUse_of_eq (hz handle hk)
    rw [allocEntry_of_not_free hf, hd]
    exact ⟨fun _ => rfl, fun _ _ _ => rfl⟩

theorem createStore_reachable : anyFileSystem.Reachable createStore := by
  refine .init ⟨⟨Image.zero, 0⟩, .normal, fun _ => (true, true), 1, ?_⟩
  rfl

def nameA : Name := [0x61]

/-- A store with one entry. -/
def storeA : PersistState := createStore.apply (.allocEntry nameA 100 (true, true))

theorem storeA_reachable : anyFileSystem.Reachable storeA := createStore_reachable.step rfl

/-- A name that is not known yet, and a value that does not fit: the entry that is in use stays as
it is. -/
theorem failed_allocEntry_unchanged_new : (storeA.allocEntry [0x62] 20000 (true, true)).2 = 0 ∧
      storeA.Unchanged (storeA.allocEntry [0x62] 20000 (true, true)).1 ∧
      (storeA.observe nameA).map Observed.inUse = some 1 := by
  have hu : storeA.lookupKey [0x62] = none := by decide +kernel
  have hn : storeA.NoSpaceUnused [0x62] 20000 :=
    ⟨by decide +kernel, fun handle hh => by cases hu.symm.trans hh⟩
  obtain ⟨hf, hs⟩ := failed_allocEntry_unchanged_iff storeA_reachable [0x62] 20000 (true, true)
  exact ⟨hs hn, (hf (hs hn)).mpr hn, by decide +kernel⟩

/-- An entry in use that is allocated again with a size that does not fit: 0 is returned, the entry
is not in use any more, and it is lost when the file is loaded again. A name that is too long: 0 is
returned, but the name is found. -/
theorem failed_allocEntry_changes : (∃ s, anyFileSystem.Reachable s ∧
      (s.allocEntry nameA 20000 (true, true)).2 = 0 ∧
      (s.observe nameA).map Observed.inUse = some 1 ∧
      ((s.allocEntry nameA 20000 (true, true)).1.observe nameA).map Observed.inUse = some 0 ∧
      (s.observeReloaded .normal (fun _ => (true, true)) 2).map
        (fun entries => (entries nameA).isSome) = some true ∧
      ((s.allocEntry nameA 20000 (true, true)).1.observeReloaded .normal (fun _ => (true, true))
        2).map (fun entries => (entries nameA).isSome) = some false) ∧
    ∃ name, (createStore.allocEntry name 8 (true, true)).2 = 0 ∧ createStore.lookupKey name = none ∧
      (createStore.allocEntry name 8 (true, true)).1.lookupKey name = some 4104 := by
  constructor
  · exact ⟨_, storeA_reachable, by decide +kernel, by decide +kernel, by decide +kernel,
      by decide +kernel, by decide +kernel⟩
  · refine ⟨List.replicate 4090 0x61, by decide +kernel, by decide +kernel, ?_⟩
    exact allocEntry_lookupKey_of_free .createStore (by decide +kernel)

end SyslogNg.Persist
