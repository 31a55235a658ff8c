import SyslogNg.PersistState.Serialize

/-!
# The persistent state file

`lib/persist-state.c`: the file that is mapped into memory, the blocks for values in it, and the
store of keys, which is a hash table in memory and a chain of key blocks in the file. Offsets,
sizes and handles are `guint32`s. Whether the file could be extended when it had to grow is an
argument (`grows`).
-/
namespace SyslogNg.Persist

open Function

abbrev Name := List UInt8

/-- `PersistState`; `currentMap` holds the bytes of the file. -/
structure PersistState where
  currentSize : ℕ
  currentOfs : ℕ
  currentMap : Image
  keys : Name → Option ℕ
  currentKeyBlock : ℕ
  currentKeyOfs : ℕ
  currentKeySize : ℕ

def headerSize : ℕ := 4096

def keyCountOfs : ℤ := 8

def initialKeyStore : ℕ := 64

def initialKeyStoreSize : ℕ := 4032

def fileInitialSize : ℕ := 16384

def keyBlockSize : ℕ := 4096

def fileWatermark : ℕ := 4096

def valueHeaderSize : ℕ := 8

def magic : List UInt8 := [0x53, 0x4c, 0x50, 0x34]

def version : UInt8 := 4

def inUseByte (inUse : Bool) : UInt8 := if inUse then 1 else 0

@[irreducible] def headerOf (handle : ℕ) : ℤ := ((handle + 2 ^ 32 - valueHeaderSize) % 2 ^ 32 : ℕ)

namespace PersistState

variable (s : PersistState)

/-! ### The file -/

def mapFile : PersistState := { s with currentMap := s.currentMap.write 0 magic }

/-- A size, rounded up to pages of 4096 bytes. -/
def pageRound (newSize : ℕ) : ℕ :=
  if newSize % 4096 ≠ 0 then (newSize / 4096 + 1) * 4096 % 2 ^ 32 else newSize

def growStore (newSize : ℕ) (grows : Bool) : PersistState :=
  if pageRound newSize > s.currentSize ∧ grows then
    mapFile
      { s with
        currentMap := s.currentMap.fill s.currentSize (pageRound newSize - s.currentSize) 0
        currentSize := pageRound newSize }
  else s

def new : PersistState where
  currentSize := 0
  currentOfs := headerSize
  currentMap := Image.zero
  keys := fun _ => none
  currentKeyBlock := 0
  currentKeyOfs := 0
  currentKeySize := 0

def createStore : PersistState :=
  growStore
    { new with
      currentKeyBlock := initialKeyStore
      currentKeyOfs := 0
      currentKeySize := initialKeyStoreSize }
    fileInitialSize true

/-! ### Values -/

def CheckWatermark : Prop := (s.currentOfs + fileWatermark) % 2 ^ 32 < s.currentSize

def CheckFreeSpace (size : ℕ) : Prop := size + valueHeaderSize + s.currentOfs ≤ s.currentSize

instance : Decidable s.CheckWatermark := inferInstanceAs (Decidable (_ < _))

instance (size : ℕ) : Decidable (s.CheckFreeSpace size) := inferInstanceAs (Decidable (_ ≤ _))

def roundUp (size : ℕ) : ℕ := if size % 8 ≠ 0 then (size / 8 + 1) * 8 % 2 ^ 32 else size

/-- The value header at the end of what is in use, and the space for the value behind it. -/
def takeSpace (origSize : ℕ) (inUse : Bool) (version : UInt8) : PersistState :=
  { s with
    currentMap := s.currentMap.write s.currentOfs (be32 origSize ++ [inUseByte inUse, version])
    currentOfs := (s.currentOfs + roundUp origSize + valueHeaderSize) % 2 ^ 32 }

/-- The file grows when the watermark is reached. -/
def keepWatermark (grows : Bool) : PersistState :=
  if s.CheckWatermark then s
  else s.growStore ((s.currentSize + fileInitialSize) % 2 ^ 32) grows

def allocValue (origSize : ℕ) (inUse : Bool) (version : UInt8) (grows : Bool) : PersistState × ℕ :=
  if ¬s.CheckFreeSpace (roundUp origSize) then (s, 0)
  else
    ((s.takeSpace origSize inUse version).keepWatermark grows,
      (s.currentOfs + valueHeaderSize) % 2 ^ 32)

def setInUse (handle : ℕ) (inUse : Bool) : PersistState :=
  { s with currentMap := s.currentMap.write (headerOf handle + 4) [inUseByte inUse] }

def freeValue (handle : ℕ) : PersistState :=
  if handle = 0 then s
  else if handle < s.currentSize then s
  else if (s.currentMap.read32 (headerOf handle) + handle) % 2 ^ 32 > s.currentSize then s
  else s.setInUse handle false

/-! ### Keys -/

def lookupKey (key : Name) : Option ℕ := s.keys key

def renameEntry (oldKey newKey : Name) : PersistState × Bool :=
  match s.keys oldKey with
  | some handle =>
    ({ s with
        keys := update (update s.keys oldKey none) newKey (some handle) }, true)
  | none => (s, false)

/-- The end of the current key block, while space for the link to the next block stays reserved. -/
def keyArchive : SerializeArchive where
  buff := (s.currentKeyBlock + s.currentKeyOfs : ℕ)
  len := (((s.currentKeySize : ℤ) - s.currentKeyOfs - 8) % 2 ^ 32).toNat

/-- The name and the handle, at the end of the current key block. -/
def serializeKey (key : Name) (handle : ℕ) : SerializeArchive × Image :=
  let named := s.keyArchive.writeCstring s.currentMap key
  named.1.writeUint32 named.2 handle

/-- The attempt to put a key into the current key block. What was written before it failed
stays. -/
def writeKey (key : Name) (handle : ℕ) : PersistState × Bool :=
  let sa := (s.serializeKey key handle).1
  let m := (s.serializeKey key handle).2
  if sa.error then ({ s with currentMap := m }, false)
  else
    ({ s with
        currentMap := m.write keyCountOfs (be32 ((m.read32 keyCountOfs + 1) % 2 ^ 32))
        currentKeyOfs := s.currentKeyOfs + sa.pos }, true)

/-- The end of the current key block, with the reserved space. -/
def linkArchive : SerializeArchive where
  buff := (s.currentKeyBlock + s.currentKeyOfs : ℕ)
  len := (((s.currentKeySize : ℤ) - s.currentKeyOfs) % 2 ^ 64).toNat

/-- The link from the current key block to the new one, which becomes the current one. -/
def chainTo (newBlock : ℕ) : PersistState :=
  let ended := s.linkArchive.writeCstring s.currentMap []
  { s with
    currentMap := (ended.1.writeUint32 ended.2 newBlock).2
    currentKeyBlock := newBlock
    currentKeySize := keyBlockSize
    currentKeyOfs := 0 }

/-- A new key block, and another attempt. -/
def addKeyBlock (key : Name) (handle : ℕ) (grows : Bool) : PersistState × Bool :=
  let alloc := s.allocValue keyBlockSize true 0 grows
  if alloc.2 = 0 then (alloc.1, false) else (alloc.1.chainTo alloc.2).writeKey key handle

/-- `persist_state_add_key`; `grows` is for the new key block. -/
def addKey (key : Name) (handle : ℕ) (grows : Bool) : PersistState × Bool :=
  let s := { s with keys := update s.keys key (some handle) }
  let attempt := s.writeKey key handle
  if attempt.2 then attempt else attempt.1.addKeyBlock key handle grows

/-! ### Entries -/

def dropEntry (persistName : Name) : PersistState :=
  match s.lookupKey persistName with
  | some handle => s.setInUse handle false
  | none => s

/-- `persist_state_alloc_entry`; `grows` is for the value and for a new key block. -/
def allocEntry (persistName : Name) (allocSize : ℕ) (grows : Bool × Bool) : PersistState × ℕ :=
  let alloc := (s.dropEntry persistName).allocValue (allocSize % 2 ^ 32) true version grows.1
  if alloc.2 = 0 then (alloc.1, 0)
  else
    let added := alloc.1.addKey persistName alloc.2 grows.2
    if added.2 then (added.1, alloc.2) else (added.1.freeValue alloc.2, 0)

/-- `persist_state_lookup_entry`: the handle, the size and the version of the entry. -/
def lookupEntry (key : Name) : PersistState × Option (ℕ × ℕ × UInt8) :=
  match s.lookupKey key with
  | none => (s, none)
  | some handle =>
    let size := s.currentMap.read32 (headerOf handle)
    if handle > s.currentSize then (s, none)
    else if (size + handle) % 2 ^ 32 > s.currentSize then (s, none)
    else (s.setInUse handle true, some (handle, size, s.currentMap (headerOf handle + 5)))

/-! ### What stays as it is -/

section Fields

variable {s} {newSize origSize handle : ℕ} {inUse grows : Bool} {version : UInt8} {key : Name}

@[simp] theorem growStore_keys : (s.growStore newSize grows).keys = s.keys := by
  unfold growStore
  split_ifs <;> rfl

@[simp] theorem growStore_currentOfs : (s.growStore newSize grows).currentOfs = s.currentOfs := by
  unfold growStore
  split_ifs <;> rfl

theorem le_growStore_currentSize : s.currentSize ≤ (s.growStore newSize grows).currentSize := by
  unfold growStore
  split_ifs with h
  · exact h.1.le
  · exact le_rfl

theorem pageRound_lt (hn : newSize < 2 ^ 32) : pageRound newSize < 2 ^ 32 := by
  unfold pageRound
  split_ifs
  · exact Nat.mod_lt _ (by norm_num)
  · exact hn

theorem growStore_currentSize_lt (hs : s.currentSize < 2 ^ 32) (hn : newSize < 2 ^ 32) :
    (s.growStore newSize grows).currentSize < 2 ^ 32 := by
  unfold growStore
  split_ifs
  · exact pageRound_lt hn
  · exact hs

@[simp] theorem keepWatermark_keys : (s.keepWatermark grows).keys = s.keys := by
  unfold keepWatermark
  split_ifs
  · rfl
  · exact growStore_keys

@[simp] theorem keepWatermark_currentOfs : (s.keepWatermark grows).currentOfs = s.currentOfs := by
  unfold keepWatermark
  split_ifs
  · rfl
  · exact growStore_currentOfs

theorem le_keepWatermark_currentSize : s.currentSize ≤ (s.keepWatermark grows).currentSize := by
  unfold keepWatermark
  split_ifs
  · exact le_rfl
  · exact le_growStore_currentSize

theorem keepWatermark_currentSize_lt (hs : s.currentSize < 2 ^ 32) :
    (s.keepWatermark grows).currentSize < 2 ^ 32 := by
  unfold keepWatermark
  split_ifs
  · exact hs
  · exact growStore_currentSize_lt hs (Nat.mod_lt _ (by norm_num))

theorem allocValue_of_not_free (h : ¬s.CheckFreeSpace (roundUp origSize)) :
    s.allocValue origSize inUse version grows = (s, 0) := if_pos h

theorem allocValue_of_free (h : s.CheckFreeSpace (roundUp origSize)) :
    s.allocValue origSize inUse version grows =
      ((s.takeSpace origSize inUse version).keepWatermark grows,
        (s.currentOfs + valueHeaderSize) % 2 ^ 32) := if_neg (not_not.mpr h)

theorem takeSpace_currentOfs (h : s.currentOfs + roundUp origSize + valueHeaderSize < 2 ^ 32) :
    (s.takeSpace origSize inUse version).currentOfs =
      s.currentOfs + roundUp origSize + valueHeaderSize := by
  unfold takeSpace
  rw [Nat.mod_eq_of_lt h]

@[simp] theorem allocValue_keys : (s.allocValue origSize inUse version grows).1.keys = s.keys := by
  unfold allocValue
  split_ifs
  · exact keepWatermark_keys
  · rfl

@[simp] theorem writeKey_keys : (s.writeKey key handle).1.keys = s.keys := by
  unfold writeKey
  dsimp only
  split_ifs <;> rfl

@[simp] theorem writeKey_currentOfs : (s.writeKey key handle).1.currentOfs = s.currentOfs := by
  unfold writeKey
  dsimp only
  split_ifs <;> rfl

@[simp] theorem writeKey_currentSize : (s.writeKey key handle).1.currentSize = s.currentSize := by
  unfold writeKey
  dsimp only
  split_ifs <;> rfl

theorem addKeyBlock_keys : (s.addKeyBlock key handle grows).1.keys = s.keys := by
  unfold addKeyBlock
  dsimp only
  split_ifs
  · exact allocValue_keys
  · rw [writeKey_keys]
    exact allocValue_keys

theorem addKey_keys : (s.addKey key handle grows).1.keys = update s.keys key (some handle) := by
  unfold addKey
  dsimp only
  split_ifs
  · exact writeKey_keys
  · rw [addKeyBlock_keys]
    exact writeKey_keys

theorem freeValue_keys : (s.freeValue handle).keys = s.keys := by
  unfold freeValue
  split_ifs <;> rfl

end Fields

end PersistState
end SyslogNg.Persist
