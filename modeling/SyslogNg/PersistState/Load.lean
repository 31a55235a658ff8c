import SyslogNg.Foundations.Orbit
import SyslogNg.PersistState.Store

/-!
# Loading the committed file

`persist_state_load_v4` in `lib/persist-state.c`. The two nested loops are one step function: a
step reads one key of the current block, and either goes on behind it or follows the chain to the
next block. The committed file is not trusted, so that a step may read outside of it; the log says
where it reads. `bytes` is the memory around the mapped file.
-/
namespace SyslogNg.Persist

/-- The committed file, mapped at address 0. -/
structure File where
  bytes : Image
  size : ℕ

inductive Mode
  | normal
  | dump
  | edit
  deriving DecidableEq

/-- Where the loop is: in the key block at `keyBlock`, of size `keySize`, the archive is at
`pos`. -/
structure LoadState where
  keyBlock : ℕ
  keySize : ℕ
  pos : ℕ
  i : ℕ
  deriving DecidableEq

structure Copied where
  name : Name
  entryOfs : ℕ
  size : ℕ
  version : UInt8

inductive LoadStep
  /-- The end of the loop, or a format error. -/
  | stop
  | go (next : LoadState) (copied : Option Copied)

namespace LoadStep

def next : LoadStep → Option LoadState
  | stop => none
  | go next _ => some next

def copied : LoadStep → Option Copied
  | stop => none
  | go _ copied => copied

end LoadStep

def keyCount (f : File) : ℤ := Int.bmod (f.bytes.read32 keyCountOfs) (2 ^ 32)

def LoadState.start : LoadState where
  keyBlock := initialKeyStore
  keySize := initialKeyStoreSize
  pos := 0
  i := 0

def cString (bytes : List UInt8) : Name := bytes.takeWhile (· ≠ 0)

/-- The part of the step that is about a named key. -/
def loadEntry (f : File) (mode : Mode) (name : Name) (entryOfs : ℕ) (next : LoadState) :
    Logged LoadStep :=
  if entryOfs < headerSize ∨ entryOfs > f.size then pure .stop
  else do
    let header : ℤ := entryOfs - valueHeaderSize
    let inUse ← f.bytes.get8 (header + 4)
    if inUse ≠ 0 ∨ mode ≠ .normal then
      let size ← f.bytes.get32 header
      let version ← f.bytes.get8 (header + 5)
      let _ ← f.bytes.get entryOfs size
      pure (.go next (some ⟨name, entryOfs, size, version⟩))
    else pure (.go next none)

/-- The part of the step at the end of a block. -/
def loadChain (f : File) (chainOfs i : ℕ) : Logged LoadStep :=
  if chainOfs = 0 ∨ chainOfs > f.size then pure .stop
  else do
    let keySize ← f.bytes.get32 (chainOfs - valueHeaderSize)
    if (chainOfs + keySize) % 2 ^ 32 > f.size then pure .stop
    else pure (.go ⟨chainOfs, keySize, 0, i⟩ none)

/-- The part of the step behind the name. -/
def loadKey (f : File) (mode : Mode) (st : LoadState) (name : List UInt8) (sa : SerializeArchive) :
    Logged LoadStep := do
  match ← sa.readUint32 f.bytes with
  | none => pure .stop
  | some (ofs, sa) =>
    if cString name ≠ [] then
      loadEntry f mode (cString name) ofs { st with pos := sa.pos, i := st.i + 1 }
    else loadChain f ofs st.i

def loadStep (f : File) (mode : Mode) (st : LoadState) : Logged LoadStep :=
  if st.i < keyCount f then do
    let sa : SerializeArchive := { buff := st.keyBlock, len := st.keySize, pos := st.pos }
    match ← sa.readCstring f.bytes with
    | none => pure .stop
    | some (name, sa) => loadKey f mode st name sa
  else pure .stop

def loadNext (f : File) (mode : Mode) (st : LoadState) : Option LoadState :=
  (loadStep f mode st).value.next

/-- One value is allocated in the new file, copied, and its key is added. -/
def PersistState.copyEntry (s : PersistState) (f : File) (copied : Copied) (grows : Bool × Bool) :
    PersistState :=
  let alloc := s.allocValue copied.size false copied.version grows.1
  let s :=
    { alloc.1 with
      currentMap := alloc.1.currentMap.copy alloc.2 f.bytes copied.entryOfs copied.size }
  (s.addKey copied.name alloc.2 grows.2).1

def loadEffect (f : File) (mode : Mode) (grows : ℕ → Bool × Bool) (st : LoadState)
    (s : PersistState) : PersistState :=
  (loadStep f mode st).value.copied.elim s fun copied => s.copyEntry f copied (grows st.i)

def loadV4 (f : File) (mode : Mode) (grows : ℕ → Bool × Bool) (fuel : ℕ) (s : PersistState) :
    Option (PersistState × Bool) :=
  if f.size > 2 ^ 31 - 1 then some (s, false)
  else (loop (loadNext f mode) (loadEffect f mode grows) fuel .start s).map fun s => (s, true)

/-- `persist_state_commit`: the file of the store is the one that is loaded next. -/
def PersistState.commit (s : PersistState) : File := ⟨s.currentMap, s.currentSize⟩

end SyslogNg.Persist
