import SyslogNg.PersistState.AllocFailure
import SyslogNg.PersistState.Reload

/-!
# Users of the persistent state

The users of the store allocate and look up entries and write through the handles they got, and
the file is committed and loaded again. The file keeps its layout as long as the size of a value
does not overflow when it is rounded up, and every value that is in use fits into the new file.
-/
namespace SyslogNg.Persist

open List

structure Client where
  store : PersistState
  /-- The handles that the users have. -/
  handles : List ℕ

inductive ClientOp
  | alloc (persistName : Name) (allocSize : ℕ)
  | lookup (key : Name)
  | rename (oldKey newKey : Name)
  | write (handle ofs : ℕ) (bytes : List UInt8)
  /-- The file is committed, and loaded into a new store. -/
  | restart

inductive ClientStep : Client → ClientOp → Client → Prop
  | alloc {c name size} (hname : ValidName name)
      (hne : (c.store.allocEntry name size (true, true)).2 ≠ 0) :
      ClientStep c (.alloc name size)
        ⟨(c.store.allocEntry name size (true, true)).1,
          (c.store.allocEntry name size (true, true)).2 :: c.handles⟩
  | lookup {c key} :
      ClientStep c (.lookup key)
        ⟨(c.store.lookupEntry key).1,
          (c.store.lookupEntry key).2.elim c.handles fun found => found.1 :: c.handles⟩
  | rename {c oldKey newKey} :
      ClientStep c (.rename oldKey newKey) { c with store := (c.store.renameEntry oldKey newKey).1 }
  | write {c handle ofs bytes} (hmem : handle ∈ c.handles)
      (hfits : ofs + bytes.length ≤ (c.store.content handle).size) :
      ClientStep c (.write handle ofs bytes) { c with store := c.store.write (handle + ofs) bytes }
  | restart {c fuel s}
      (hload : loadV4 c.store.commit .normal always fuel .createStore = some (s, true)) :
      ClientStep c .restart ⟨s, []⟩

def clientSystem : System Client ClientOp where
  init c := c = ⟨.createStore, []⟩
  step := ClientStep

/-- The file is not too large to be loaded, and going through its entries in use, each value fits
into the new file. -/
def Reloadable (s : PersistState) : Prop :=
  s.currentSize < 2 ^ 31 ∧
    ∀ fuel, Packing.initial.Packs ((inUseEntries s.commit .start fuel).map Copied.demand)

/-- The condition under which a step keeps the layout. -/
def Fitting (c : Client) : ClientOp → Prop
  | .alloc _ size => size % 2 ^ 32 ≤ 2 ^ 32 - 8 ∧ c.store.currentSize < 2 ^ 31
  | .restart => Reloadable c.store
  | _ => True

/-! ### Steps that keep the layout -/

/-- Every handle in the hash table is stored in the file, under some name. -/
def KeysStored (s : PersistState) (recs : List (Name × ℕ)) : Prop :=
  ∀ key handle, s.keys key = some handle → ∃ name, (name, handle) ∈ recs

/-- The names are those of the hash table, which has every entry that is in use. -/
structure Synced (s : PersistState) (recs : List (Name × ℕ)) : Prop where
  named : ∀ key handle, s.keys key = some handle → (key, handle) ∈ recs
  used : ∀ key ∈ recs, s.InUse key.2 → s.keys key.1 = some key.2

variable {s s' : PersistState} {own own' : ℤ → Owner} {recs recs' : List (Name × ℕ)}
  {handles : List ℕ} {name key : Name} {size handle ofs : ℕ} {bytes : List UInt8} {t : PersistState}

theorem KeysStored.valueAt (hk : KeysStored s recs) (h : Intact s own recs handles)
    (hky : s.keys key = some handle) : ValueAt s.currentMap own handle := by
  obtain ⟨name, hm⟩ := hk key handle hky
  exact h.values _ hm

namespace Intact

variable (h : Intact s own recs handles)
include h

theorem dropEntry (hk : KeysStored s recs) (name : Name) :
    Intact (s.dropEntry name) own recs handles := by
  unfold PersistState.dropEntry
  cases hky : s.lookupKey name with
  | none => exact h
  | some handle => exact h.setInUse (hk.valueAt h hky) false

/-- An allocation that succeeds puts the new entry behind the others. -/
theorem allocEntry (hk : KeysStored s recs)
    (hn : ValidName name) (hsz : size % 2 ^ 32 ≤ 2 ^ 32 - 8) (hlt : s.currentSize < 2 ^ 31)
    (hne : (s.allocEntry name size (true, true)).2 ≠ 0) : ∃ own' bytes,
      Intact (s.allocEntry name size (true, true)).1 own'
        (recs ++ [(name, (s.allocEntry name size (true, true)).2)])
        ((s.allocEntry name size (true, true)).2 :: handles) ∧
      Inserted (s.dropEntry name) own name ⟨size % 2 ^ 32, version, bytes⟩ true
        (s.allocEntry name size (true, true)).1 own' (s.allocEntry name size (true, true)).2 := by
  have hf : s.CheckFreeSpace (PersistState.roundUp (size % 2 ^ 32)) := by
    by_contra hfull
    rw [PersistState.allocEntry_of_not_free hfull] at hne
    exact hne rfl
  have hfits : (s.dropEntry name).packing.Fits ⟨keySpan name, size % 2 ^ 32⟩ :=
    PersistState.dropEntry_checkFreeSpace.mpr hf
  have hr : (s.dropEntry name).currentSize + 2 * fileInitialSize < 2 ^ 32 := by
    obtain ⟨m, hm⟩ := s.dropEntry_eq name
    rw [hm]
    unfold fileInitialSize
    dsimp only
    omega
  cases ha : (s.dropEntry name).allocValue (size % 2 ^ 32) true version true with
  | mk t new =>
    obtain ⟨s', own', had, hin, hi⟩ :=
      (h.dropEntry hk name).insert hn hsz hfits hr ha fun _ _ => rfl
    have he : s.allocEntry name size (true, true) = (s', new) := by
      have hnw : new ≠ 0 := by
        rw [hi.handle_eq]
        exact Nat.succ_ne_zero _
      have had' : t.addKey name new true = (s', true) := had
      unfold PersistState.allocEntry
      rw [ha, if_neg hnw, had', if_pos rfl]
    rw [he]
    exact ⟨own', _, hin, hi⟩

theorem content_size (hvalue : ValueAt s.currentMap own handle) :
    (s.content handle).size = s.currentMap.read32 (handle - valueHeaderSize) := by
  rw [← h.headerOf_value hvalue]
  rfl

theorem addHandle (hvalue : ValueAt s.currentMap own handle) :
    Intact s own recs (handle :: handles) := ⟨h.toLayout.addHandle hvalue, h.packing⟩

section

variable (hvalue : ValueAt s.currentMap own handle)
  (hfits : ofs + bytes.length ≤ (s.content handle).size)
include hvalue hfits

/-- Users write behind the headers of their values. -/
theorem write_header {other : ℕ}
    (ho : ValueAt s.currentMap own other) {i : ℤ} (hlo : headerOf other ≤ i) (hhi : i < other) :
    (s.write (handle + ofs) bytes).currentMap i = s.currentMap i := by
  apply Image.write_of_not_mem
  rintro ⟨hge, hlt⟩
  have hsz := h.content_size hvalue
  have hw := hvalue.owns i (by omega) (by omega)
  have hh := ho.owns i (by rwa [← h.headerOf_value ho]) (by omega)
  cases hw.symm.trans hh
  omega

theorem write : Intact (s.write (handle + ofs) bytes) own recs handles := by
  have hsz {other : ℕ} (ho : ValueAt s.currentMap own other) :
      (s.write (handle + ofs) bytes).currentMap.read32 (headerOf other) =
        s.currentMap.read32 (headerOf other) := by
    have hh := h.headerOf_value ho
    unfold valueHeaderSize at hh
    exact Image.read32_congr fun i hlo hhi => h.write_header hvalue hfits ho hlo (by omega)
  constructor
  · refine h.modifyValue (?_ : ∀ i, own i ≠ .value handle → _) ?_
    · intro i hi
      apply Image.write_of_not_mem
      rintro ⟨hge, hlt⟩
      have hr := h.content_size hvalue
      exact hi (hvalue.owns i (by omega) (by omega))
    · rw [← h.headerOf_value hvalue]
      exact hsz hvalue
  · -- how full the file is depends only on the sizes
    have hd : ((s.write (handle + ofs) bytes).dump recs).map demand =
        (s.dump recs).map demand := by
      unfold PersistState.dump
      rw [List.map_map, List.map_map]
      apply map_congr_left
      intro key hk
      exact congrArg (Demand.mk (keySpan key.1)) (hsz (h.values key hk))
    unfold packed
    rw [hd]
    exact h.packing

theorem write_inUse {other : ℕ} (ho : ValueAt s.currentMap own other) :
    (s.write (handle + ofs) bytes).InUse other ↔ s.InUse other := by
  have hh := h.headerOf_value ho
  unfold valueHeaderSize at hh
  unfold PersistState.InUse
  rw [h.write_header hvalue hfits ho (by omega) (by omega)]

end

theorem lookupEntry (hk : KeysStored s recs) (key : Name) : Intact (s.lookupEntry key).1 own recs
      ((s.lookupEntry key).2.elim handles fun found => found.1 :: handles) := by
  cases hky : s.keys key with
  | none =>
    rw [PersistState.lookupEntry_of_none hky]
    exact h
  | some handle =>
    have hvalue := hk.valueAt h hky
    rw [h.lookupEntry_of_some hky hvalue]
    exact (h.addHandle hvalue).setInUse hvalue true

theorem renameEntry (oldKey newKey : Name) :
    Intact (s.renameEntry oldKey newKey).1 own recs handles := by
  unfold PersistState.renameEntry
  cases s.keys oldKey with
  | none => exact h
  | some handle => exact ⟨h.toLayout.setKeys _, h.packing⟩

end Intact

/-! ### The reload -/

theorem loadV4_normal {fuel : ℕ} (hsz : s.currentSize < 2 ^ 31) :
    loadV4 s.commit .normal always fuel .createStore =
      (loop (loadNext s.commit .normal) (loadEffect s.commit .normal always) fuel .start
        .createStore).map fun t => (t, true) := by
  have hn : ¬s.commit.size > 2 ^ 31 - 1 := by
    change ¬s.currentSize > 2 ^ 31 - 1
    omega
  rw [loadV4, if_neg hn]

theorem Intact.packs_iff (h : Intact s own recs handles) (hsz : s.currentSize < 2 ^ 31) :
    Reloadable s ↔ Packing.initial.Packs (s.demands recs) := by
  rw [← (h.walk hsz).entries_iff]
  exact and_iff_right hsz

theorem Intact.reload (h : Intact s own recs handles) (hr : Reloadable s) :
    ∃ fuel t own' recs', loadV4 s.commit .normal always fuel .createStore = some (t, true) ∧
      Loaded s recs t own' recs' := by
  have hsz := hr.1
  have hp := (h.packs_iff hsz).mp hr
  obtain ⟨fuel, t, own', recs', hlp, hl⟩ :=
    (h.walk hsz).run h hsz (nil_append _) (loaded_createStore s) hp
  refine ⟨fuel, t, own', recs', ?_, hl⟩
  rw [loadV4_normal hsz, hlp]
  rfl

theorem loadV4_unique {fuel fuel' : ℕ} {t t' : PersistState} (hsz : s.currentSize < 2 ^ 31)
    (h : loadV4 s.commit .normal always fuel .createStore = some (t, true))
    (h' : loadV4 s.commit .normal always fuel' .createStore = some (t', true)) : t = t' := by
  rw [loadV4_normal hsz] at h h'
  obtain ⟨u, hl, heq⟩ := Option.map_eq_some_iff.mp h
  obtain ⟨u', hl', heq'⟩ := Option.map_eq_some_iff.mp h'
  cases heq
  cases heq'
  exact loop_unique hl hl'

/-- After the load a key has the last of its entries that were in use. -/
theorem Loaded.entry_eq (h : Loaded s recs t own' recs') (key : Name) :
    t.entry key = (tableOf (recs.filter fun r => s.InUse r.2) key).map s.content := by
  have hd : (tableOf recs' key).map t.content =
      (tableOf (recs.filter fun r => s.InUse r.2) key).map s.content := by
    rw [← tableOf_map, ← tableOf_map]
    exact congrArg (tableOf · key) h.dump
  rw [← hd]
  have hk := congrFun h.keys key
  cases hf : tableOf recs' key with
  | none => exact PersistState.entry_of_none (hk.trans hf)
  | some handle =>
    have hvalue := h.intact.values _ (mem_of_tableOf hf)
    exact h.intact.entry_of_some (hk.trans hf) hvalue

/-! ### Keys -/

theorem Synced.keysStored (h : Synced s recs) : KeysStored s recs :=
  fun key handle hk => ⟨key, h.named key handle hk⟩

section Keys

variable {c : Content} {flag : Bool}

theorem KeysStored.insert (h : KeysStored s recs)
    (hi : Inserted (s.dropEntry name) own name c flag s' own' handle) :
    KeysStored s' (recs ++ [(name, handle)]) := by
  intro key found hf
  rw [hi.keys, PersistState.dropEntry_keys] at hf
  rcases update_eq_some.mp hf with ⟨rfl, ⟨⟩⟩ | ⟨-, ho⟩
  · exact ⟨key, mem_append_right _ (mem_singleton_self _)⟩
  · obtain ⟨other, hm⟩ := h key found ho
    exact ⟨other, mem_append_left _ hm⟩

theorem KeysStored.rename (h : KeysStored s recs) (oldKey newKey : Name) :
    KeysStored (s.renameEntry oldKey newKey).1 recs := by
  unfold PersistState.renameEntry
  cases ho : s.keys oldKey with
  | none => exact h
  | some handle =>
    intro key found hf
    rcases update_eq_some.mp hf with ⟨-, ⟨⟩⟩ | ⟨-, hr⟩
    · exact h oldKey handle ho
    · rcases update_eq_some.mp hr with ⟨-, ⟨⟩⟩ | ⟨-, hr⟩
      exact h key found hr

section

variable (h : Synced s recs) (hs : Intact s own recs handles)
include h hs

/-- The old entry of a name is not in use any more. -/
theorem Synced.used_of_drop {r : Name × ℕ}
    (hr : r ∈ recs) (hiu : (s.dropEntry name).InUse r.2) : r.1 ≠ name ∧ s.keys r.1 = some r.2 := by
  cases hk : s.keys name with
  | none =>
    rw [PersistState.dropEntry, PersistState.lookupKey, hk] at hiu
    have hf := h.used r hr hiu
    refine ⟨fun heq => ?_, hf⟩
    rw [heq, hk] at hf
    cases hf
  | some dropped =>
    rw [PersistState.dropEntry, PersistState.lookupKey, hk] at hiu
    rw [hs.setInUse_inUse (h.keysStored.valueAt hs hk) (hs.values r hr)] at hiu
    split_ifs at hiu with heq
    have hf := h.used r hr hiu
    refine ⟨fun hn => heq ?_, hf⟩
    rw [hn, hk] at hf
    exact (Option.some.inj hf).symm

theorem Synced.insert (hi : Inserted (s.dropEntry name) own name c flag s' own' handle) :
    Synced s' (recs ++ [(name, handle)]) where
  named := by
    intro key found hf
    rw [hi.keys, PersistState.dropEntry_keys] at hf
    rcases update_eq_some.mp hf with ⟨rfl, ⟨⟩⟩ | ⟨-, ho⟩
    · exact mem_append_right _ (mem_singleton_self _)
    · exact mem_append_left _ (h.named key found ho)
  used := by
    intro key hk hiu
    have hd := hs.dropEntry h.keysStored name
    rw [hi.keys, PersistState.dropEntry_keys]
    rcases mem_append.mp hk with ho | hn
    · rw [hi.keeps.inUse hd.toLayout (hd.values key ho)] at hiu
      obtain ⟨hne, hf⟩ := h.used_of_drop hs ho hiu
      rw [Function.update_of_ne hne]
      exact hf
    · rw [mem_singleton.mp hn, Function.update_self]

theorem Synced.lookup (key : Name) : Synced (s.lookupEntry key).1 recs := by
  cases hk : s.keys key with
  | none =>
    rw [PersistState.lookupEntry_of_none hk]
    exact h
  | some handle =>
    have hvalue := h.keysStored.valueAt hs hk
    rw [hs.lookupEntry_of_some hk hvalue]
    refine ⟨h.named, fun r hr hiu => ?_⟩
    rw [hs.setInUse_inUse hvalue (hs.values r hr)] at hiu
    split_ifs at hiu with heq
    · -- handles are stored once
      have hsm := inj_on_of_nodup_map hs.nodup hr (h.named key handle hk) heq
      rw [hsm]
      exact hk
    · exact h.used r hr hiu

theorem Synced.write (hvalue : ValueAt s.currentMap own handle)
    (hfits : ofs + bytes.length ≤ (s.content handle).size) :
    Synced (s.write (handle + ofs) bytes) recs where
  named := h.named
  used := by
    intro r hr hiu
    exact h.used r hr ((hs.write_inUse hvalue hfits (hs.values r hr)).mp hiu)

end

theorem Loaded.synced {done : List (Name × ℕ)} (h : Loaded s done t own recs) : Synced t recs where
  named := by
    intro key handle hk
    rw [h.keys] at hk
    exact mem_of_tableOf hk
  used := fun r hr hiu => absurd hiu (h.unused r hr)

end Keys

/-! ### Runs -/

/-- The layout of the file, for any renames. -/
def Laid (c : Client) : Prop :=
  ∃ own recs, Intact c.store own recs c.handles ∧ KeysStored c.store recs

/-- The layout of the file, without renames. -/
def LaidInSync (c : Client) : Prop :=
  ∃ own recs, Intact c.store own recs c.handles ∧ Synced c.store recs

def ClientOp.IsRename : ClientOp → Prop
  | .rename _ _ => True
  | _ => False

variable {c c' : Client} {op : ClientOp}

theorem Laid.step (h : Laid c) (hok : Fitting c op) (hst : ClientStep c op c') : Laid c' := by
  obtain ⟨own, recs, hs, hk⟩ := h
  cases hst with
  | alloc hn hne =>
    obtain ⟨own', bytes, hs', hi⟩ := hs.allocEntry hk hn hok.1 hok.2 hne
    exact ⟨own', _, hs', hk.insert hi⟩
  | lookup =>
    refine ⟨own, recs, hs.lookupEntry hk _, fun key handle hky => hk key handle ?_⟩
    rwa [PersistState.lookupEntry_keys] at hky
  | rename => exact ⟨own, recs, hs.renameEntry _ _, hk.rename _ _⟩
  | write hm hfits => exact ⟨own, recs, hs.write (hs.handles _ hm) hfits, hk⟩
  | restart hld =>
    obtain ⟨fuel, t, own', recs', hld', hl⟩ := hs.reload hok
    cases loadV4_unique hok.1 hld hld'
    exact ⟨own', recs', hl.intact, hl.synced.keysStored⟩

theorem LaidInSync.step (h : LaidInSync c) (hok : Fitting c op) (hr : ¬op.IsRename)
    (hst : ClientStep c op c') : LaidInSync c' := by
  obtain ⟨own, recs, hs, hk⟩ := h
  cases hst with
  | alloc hn hne =>
    obtain ⟨own', bytes, hs', hi⟩ := hs.allocEntry hk.keysStored hn hok.1 hok.2 hne
    exact ⟨own', _, hs', hk.insert hs hi⟩
  | lookup => exact ⟨own, recs, hs.lookupEntry hk.keysStored _, hk.lookup hs _⟩
  | rename => exact absurd trivial hr
  | write hm hfits =>
    have hvalue := hs.handles _ hm
    exact ⟨own, recs, hs.write hvalue hfits, hk.write hs hvalue hfits⟩
  | restart hld =>
    obtain ⟨fuel, t, own', recs', hld', hl⟩ := hs.reload hok
    cases loadV4_unique hok.1 hld hld'
    exact ⟨own', recs', hl.intact, hl.synced⟩

theorem laidInSync_createStore : LaidInSync ⟨.createStore, []⟩ :=
  ⟨initialOwners, [], (loaded_createStore .createStore).intact,
    (loaded_createStore .createStore).synced⟩

/-! ### What a reload keeps -/

def PersistState.KeyInUse (s : PersistState) (key : Name) : Prop :=
  ∃ handle, s.lookupKey key = some handle ∧ s.InUse handle

/-- What is in use is the same in the new store, and the rest is not there; the header tells how
many entries there are. -/
structure Keeps (s s' : PersistState) : Prop where
  kept : ∀ key, s.KeyInUse key → s'.entry key = s.entry key ∧ (s'.entry key).isSome
  absent : ∀ key, ¬s.KeyInUse key → s'.entry key = none
  magic : s'.currentMap.slice 0 4 = magic
  count : ∃ keys : List Name, keys.Nodup ∧ (∀ key, key ∈ keys ↔ s.KeyInUse key) ∧
    s'.currentMap.read32 keyCountOfs = keys.length

/-- The load of the committed file succeeds, keeps what is in use, and copies no value over the
header of the new file. -/
def Reloads (s : PersistState) : Prop :=
  (∃ fuel s', loadV4 s.commit .normal always fuel .createStore = some (s', true) ∧ Keeps s s') ∧
    ∀ fuel, ∀ copy ∈ loadV4Copies s.commit fuel, (headerSize : ℤ) ≤ copy.1

theorem Synced.mem_used_iff (h : Synced s recs) :
    (key, handle) ∈ recs.filter (fun r => s.InUse r.2) ↔ s.keys key = some handle ∧
    s.InUse handle := by
  rw [mem_filter, decide_eq_true_iff]
  constructor
  · rintro ⟨hm, hiu⟩
    exact ⟨h.used _ hm hiu, hiu⟩
  · rintro ⟨hk, hiu⟩
    exact ⟨h.named key handle hk, hiu⟩

theorem Synced.tableOf_used (h : Synced s recs) (hk : s.keys key = some handle)
    (hiu : s.InUse handle) : tableOf (recs.filter fun r => s.InUse r.2) key = some handle := by
  cases hf : tableOf (recs.filter fun r => s.InUse r.2) key with
  | none =>
    have hm := h.mem_used_iff.mpr ⟨hk, hiu⟩
    exact absurd rfl (tableOf_eq_none_iff.mp hf _ hm)
  | some found =>
    have ho := (h.mem_used_iff.mp (mem_of_tableOf hf)).1
    exact ho.symm.trans hk

theorem Synced.nodup_used (h : Synced s recs) (hn : (recs.map Prod.snd).Nodup) :
    ((recs.filter fun r => s.InUse r.2).map Prod.fst).Nodup := by
  refine List.Nodup.map_on ?_ (hn.of_map.filter _)
  intro r hr r' hr' heq
  have hk := (h.mem_used_iff.mp hr).1
  have hk' := (h.mem_used_iff.mp hr').1
  rw [heq] at hk
  exact Prod.ext heq (Option.some.inj (hk.symm.trans hk'))

theorem Loaded.keeps (h : Loaded s recs t own' recs') (hs : Intact s own recs handles)
    (hk : Synced s recs) : Keeps s t where
  kept := by
    rintro key ⟨handle, hky, hiu⟩
    have he := h.entry_eq key
    rw [hk.tableOf_used hky hiu] at he
    rw [he, hs.entry_of_some hky (hk.keysStored.valueAt hs hky)]
    exact ⟨rfl, rfl⟩
  absent := by
    intro key hnt
    have hn : tableOf (recs.filter fun r => s.InUse r.2) key = none := by
      rw [tableOf_eq_none_iff]
      rintro ⟨name, handle⟩ hm rfl
      exact hnt ⟨handle, hk.mem_used_iff.mp hm⟩
    rw [h.entry_eq key, hn]
    rfl
  magic := h.intact.magic
  count := by
    refine ⟨_, hk.nodup_used hs.nodup, fun key => ?_, ?_⟩
    · rw [List.mem_map]
      constructor
      · rintro ⟨⟨name, handle⟩, hm, rfl⟩
        exact ⟨handle, hk.mem_used_iff.mp hm⟩
      · rintro ⟨handle, hky⟩
        exact ⟨(key, handle), hk.mem_used_iff.mpr hky, rfl⟩
    · have hl := congrArg List.length h.dump
      unfold PersistState.dump at hl
      rw [length_map, length_map] at hl
      rw [h.intact.count, length_map, hl]

/-- For every history of allocations, lookups, writes and restarts in which no size overflows when
it is rounded up and each restart finds a file that can be loaded: the next reload keeps what is in
use exactly if the file is not too large and every value in use fits into the new file when it is
its turn. -/
theorem reload_keeps_iff
    (h : (clientSystem.restrict fun c op => Fitting c op ∧ ¬op.IsRename).Reachable c) :
    Reloads c.store ↔ Reloadable c.store := by
  have hla : LaidInSync c := by
    apply h.invariant
    · rintro c rfl
      exact laidInSync_createStore
    · rintro c op c' hc ⟨⟨hok, hrn⟩, hst⟩
      exact hc.step hok hrn hst
  obtain ⟨own, recs, hs, hk⟩ := hla
  have hcp (hsz : c.store.currentSize < 2 ^ 31) :=
    (hs.walk hsz).copies_iff hs hsz (nil_append _) (loaded_createStore c.store)
  constructor
  · rintro ⟨⟨fuel, s', hl, _⟩, ht⟩
    have hsz : c.store.currentSize < 2 ^ 31 := by
      by_contra hge
      have hgt : c.store.commit.size > 2 ^ 31 - 1 := by
        change c.store.currentSize > 2 ^ 31 - 1
        omega
      rw [loadV4, if_pos hgt] at hl
      cases hl
    exact (hs.packs_iff hsz).mpr ((hcp hsz).mp ht)
  · intro hr
    obtain ⟨fuel, t, own', recs', hl, hld⟩ := hs.reload hr
    have ht := (hcp hr.1).mpr ((hs.packs_iff hr.1).mp hr)
    exact ⟨⟨fuel, t, hl, hld.keeps hs hk⟩, ht⟩

def Client.afterAlloc (c : Client) (name : Name) (size : ℕ) : Client :=
  ⟨(c.store.allocEntry name size (true, true)).1,
    (c.store.allocEntry name size (true, true)).2 :: c.handles⟩

abbrev inSyncSystem := clientSystem.restrict fun c op => Fitting c op ∧ ¬op.IsRename

theorem reachable_afterAlloc {byte : UInt8} (h : inSyncSystem.Reachable c) (hb : byte ≠ 0)
    (hsz : size % 2 ^ 32 ≤ 2 ^ 32 - 8 ∧ c.store.currentSize < 2 ^ 31)
    (hne : (c.store.allocEntry [byte] size (true, true)).2 ≠ 0) :
    inSyncSystem.Reachable (c.afterAlloc [byte] size) := by
  have hok : Fitting c (.alloc [byte] size) ∧ ¬ClientOp.IsRename (.alloc [byte] size) := ⟨hsz, id⟩
  have hn : ValidName [byte] := ⟨cons_ne_nil _ _, by simpa using hb.symm, by simp⟩
  exact h.step ⟨hok, .alloc hn hne⟩

def nameD : Name := [0x64]

/-- `a` with 100 bytes, `d` with 50 bytes, and `a` again with 8 bytes. The first `a` is not in use
any more. -/
def replaced : Client :=
  ((Client.afterAlloc ⟨.createStore, []⟩ nameA 100).afterAlloc nameD 50).afterAlloc nameA 8

theorem replaced_reachable : inSyncSystem.Reachable replaced := by
  have hf : inSyncSystem.Reachable (Client.afterAlloc ⟨.createStore, []⟩ nameA 100) :=
    reachable_afterAlloc (.init rfl) (by decide) (by decide +kernel) (by decide +kernel)
  have hsc : inSyncSystem.Reachable (Client.afterAlloc _ nameD 50) :=
    reachable_afterAlloc hf (by decide) (by decide +kernel) (by decide +kernel)
  exact reachable_afterAlloc hsc (by decide) (by decide +kernel) (by decide +kernel)

/-- The load reads three keys, and then it ends. -/
theorem replaced_inUseEntries (fuel : ℕ) : inUseEntries replaced.store.commit .start fuel =
    inUseEntries replaced.store.commit .start (min fuel 3) := by
  rcases Nat.lt_or_ge fuel 3 with hlt | hge
  · rw [min_eq_left hlt.le]
  obtain ⟨n, rfl⟩ := Nat.exists_eq_add_of_le' hge
  have h₁ : loadNext replaced.store.commit .normal .start = some ⟨64, 4032, 9, 1⟩ := by
    decide +kernel
  have h₂ : loadNext replaced.store.commit .normal ⟨64, 4032, 9, 1⟩ = some ⟨64, 4032, 18, 2⟩ := by
    decide +kernel
  have h₃ : loadNext replaced.store.commit .normal ⟨64, 4032, 18, 2⟩ = some ⟨64, 4032, 27, 3⟩ := by
    decide +kernel
  have h₄ : loadNext replaced.store.commit .normal ⟨64, 4032, 27, 3⟩ = none := by decide +kernel
  have hl : stepEntry replaced.store.commit ⟨64, 4032, 27, 3⟩ = [] := by decide +kernel
  have he : outputs (loadNext replaced.store.commit .normal) (stepEntry replaced.store.commit) n
      ⟨64, 4032, 27, 3⟩ = [] := by
    cases n with
    | zero => rfl
    | succ n => simp only [outputs, h₄, hl, Option.elim_none, append_nil]
  rw [min_eq_right hge]
  simp only [inUseEntries, outputs, h₁, h₂, h₃, he, Option.elim_some]

theorem replaced_reloadable : Reloadable replaced.store := by
  have hp : ∀ n ≤ 3, decide (Packing.initial.Packs
      ((inUseEntries replaced.store.commit .start n).map Copied.demand)) = true := by
    decide +kernel
  refine ⟨by decide +kernel, fun fuel => ?_⟩
  rw [replaced_inUseEntries]
  exact of_decide_eq_true (hp _ (min_le_right fuel 3))

theorem reload_keeps_replaced : Reloads replaced.store :=
  (reload_keeps_iff replaced_reachable).mpr replaced_reloadable

/-- `a` with 8192 bytes, `d` with 12288 bytes, and `a` again with 8 bytes. The first `a` is not in
use any more. -/
def shrunk : Client :=
  ((Client.afterAlloc ⟨.createStore, []⟩ nameA 8192).afterAlloc nameD 12288).afterAlloc nameA 8

/-- Without the first `a`, the file does not grow before `d` is copied, which does not fit: its
12288 bytes are written over the header. -/
theorem reload_overwrites_header :
    (clientSystem.restrict fun c op => Fitting c op ∧ ¬op.IsRename).Reachable shrunk ∧
      (0, 12288) ∈ loadV4Copies shrunk.store.commit 2 ∧ ¬Reloads shrunk.store := by
  have hc : (0, 12288) ∈ loadV4Copies shrunk.store.commit 2 := by decide +kernel
  refine ⟨?_, hc, fun h => absurd (h.2 2 _ hc) (by decide)⟩
  have hf : inSyncSystem.Reachable (Client.afterAlloc ⟨.createStore, []⟩ nameA 8192) :=
    reachable_afterAlloc (.init rfl) (by decide) (by decide +kernel) (by decide +kernel)
  have hsc : inSyncSystem.Reachable (Client.afterAlloc _ nameD 12288) :=
    reachable_afterAlloc hf (by decide) (by decide +kernel) (by decide +kernel)
  exact reachable_afterAlloc hsc (by decide) (by decide +kernel) (by decide +kernel)

end SyslogNg.Persist
