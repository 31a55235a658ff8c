import SyslogNg.PersistState.Client

/-!
# Renamed entries

`persist_state_rename_entry` changes the hash table, but not the names in the file. After the file
was loaded again, an entry has the name under which it was stored.
-/
namespace SyslogNg.Persist

open PersistState

variable {s t : PersistState} {own own' : ℤ → Owner} {recs rest : List (Name × ℕ)}
  {handles : List ℕ} {st : LoadState} {c : Client} {handle : ℕ}

namespace PersistState

def lookups (s : PersistState) (keys : List Name) : PersistState :=
  keys.foldl (fun s key => (s.lookupEntry key).1) s

/-- The handle of the last entry in use that the file has under a name. -/
def storedUnder (s : PersistState) (fuel : ℕ) (key : Name) : Option ℕ :=
  tableOf ((inUseEntries s.commit .start fuel).map fun entry => (entry.name, entry.entryOfs)) key

/-- Nothing in use is stored under the old name, and if the renamed entry is in use, what is stored
last under the new name is the same. -/
def StoredAs (s : PersistState) (oldKey newKey : Name) : Prop :=
  ∀ fuel, orbit (loadNext s.commit .normal) fuel .start = none →
    s.storedUnder fuel oldKey = none ∧
      (s.KeyInUse newKey →
        (s.storedUnder fuel newKey).map s.content = (s.lookupKey newKey).map s.content)

/-- After a reload, the old name is not found, and the new one has the entry if it was in use. -/
def RenameSurvives (s : PersistState) (oldKey newKey : Name) (keys : List Name) : Prop :=
  let committed := (s.renameEntry oldKey newKey).1.lookups keys
  ∃ fuel s', loadV4 committed.commit .normal always fuel createStore = some (s', true) ∧
    s'.entry oldKey = none ∧ (committed.KeyInUse newKey → s'.entry newKey = s.entry oldKey)

end PersistState

/-! ### What the file has -/

/-- When the load has ended, it has found all entries in use. -/
theorem Walk.entries_eq (h : Walk s st rest) {fuel : ℕ}
    (he : orbit (loadNext s.commit .normal) fuel st = none) :
    (inUseEntries s.commit st fuel).map (fun entry => (entry.name, entry.entryOfs)) =
      rest.filter fun r => s.InUse r.2 := by
  induction h generalizing fuel with
  | @stop st hs =>
    cases fuel with
    | zero => cases he
    | succ fuel =>
      rw [inUseEntries, outputs, stepEntry, loadNext, hs]
      rfl
  | @key st next name handle rest _ hs _ ih =>
    cases fuel with
    | zero => cases he
    | succ fuel =>
      rw [orbit, loadNext_of_go hs] at he
      have hr := ih he
      rw [inUseEntries, outputs, stepEntry, loadNext_of_go hs, hs]
      by_cases hiu : s.InUse handle
      · rw [if_pos hiu, List.filter_cons_of_pos (by simpa using hiu), ← hr]
        rfl
      · rw [if_neg hiu, List.filter_cons_of_neg (by simpa using hiu), ← hr]
        rfl
  | @link st next rest hs _ ih =>
    cases fuel with
    | zero => cases he
    | succ fuel =>
      rw [orbit, loadNext_of_go hs] at he
      rw [← ih he, inUseEntries, outputs, stepEntry, loadNext_of_go hs, hs]
      rfl

theorem Intact.storedUnder_eq (h : Intact s own recs handles) (hs : s.currentSize < 2 ^ 31)
    {fuel : ℕ} (he : orbit (loadNext s.commit .normal) fuel .start = none) (key : Name) :
    s.storedUnder fuel key = tableOf (recs.filter fun r => s.InUse r.2) key := by
  rw [storedUnder, (h.walk hs).entries_eq he]

/-! ### Lookups -/

/-- Lookups change nothing but flags. -/
theorem Laid.lookups (h : Laid c) (keys : List Name) :
    ∃ handles, Laid ⟨c.store.lookups keys, handles⟩ ∧ (c.store.lookups keys).keys = c.store.keys ∧
      ∀ key handle, c.store.keys key = some handle →
        (c.store.lookups keys).content handle = c.store.content handle := by
  induction keys generalizing c with
  | nil => exact ⟨c.handles, h, rfl, fun _ _ _ => rfl⟩
  | cons key keys ih =>
    have hok : Fitting c (.lookup key) := trivial
    obtain ⟨handles, hl, hk, hc⟩ := ih (h.step hok .lookup)
    have hsm : (c.store.lookupEntry key).1.keys = c.store.keys := lookupEntry_keys
    refine ⟨handles, hl, hk.trans hsm, fun other handle ho => ?_⟩
    refine (hc other handle (by rwa [hsm])).trans ?_
    obtain ⟨own, recs, hs, hst⟩ := h
    cases hky : c.store.keys key with
    | none => rw [lookupEntry_of_none hky]
    | some found =>
      have hv := hst.valueAt hs hky
      rw [hs.lookupEntry_of_some hky hv]
      exact hs.setInUse_content hv (hst.valueAt hs ho)

theorem keys_of_rename {oldKey newKey : Name} (h : (s.renameEntry oldKey newKey).2 = true) :
    ∃ handle, s.keys oldKey = some handle ∧
      (s.renameEntry oldKey newKey).1.keys newKey = some handle ∧
      (s.renameEntry oldKey newKey).1.content handle = s.content handle := by
  unfold renameEntry at h ⊢
  cases ho : s.keys oldKey with
  | none =>
    rw [ho] at h
    cases h
  | some handle => exact ⟨handle, rfl, Function.update_self _ _ _, rfl⟩

theorem renameEntry_commit {oldKey newKey : Name} :
    (s.renameEntry oldKey newKey).1.commit = s.commit := by
  unfold renameEntry
  cases s.keys oldKey with
  | none => rfl
  | some handle => rfl

theorem Reloadable.congr (h : Reloadable s) (hc : t.commit = s.commit) : Reloadable t := by
  have hs : t.currentSize = s.currentSize := congrArg File.size hc
  unfold Reloadable
  rw [hc, hs]
  exact h

/-! ### Renames and restarts -/

theorem laid_of_reachable (h : (clientSystem.restrict Fitting).Reachable c) : Laid c := by
  apply h.invariant
  · rintro c rfl
    obtain ⟨own, recs, hs, hk⟩ := laidInSync_createStore
    exact ⟨own, recs, hs, hk.keysStored⟩
  · rintro c op c' hc ⟨hok, hst⟩
    exact hc.step hok hst

/-- For every history, also one with earlier renames: after a rename that returned `TRUE` and any
lookups, if the committed file can be loaded, the rename survives exactly if the file had the entry
under the new name only. -/
theorem rename_survives_iff (h : (clientSystem.restrict Fitting).Reachable c) {oldKey newKey : Name}
    (hrename : (c.store.renameEntry oldKey newKey).2 = true) (keys : List Name)
    (hreload : Reloadable ((c.store.renameEntry oldKey newKey).1.lookups keys)) :
    c.store.RenameSurvives oldKey newKey keys ↔
      ((c.store.renameEntry oldKey newKey).1.lookups keys).StoredAs oldKey newKey := by
  have hla := laid_of_reachable h
  have hok : Fitting c (.rename oldKey newKey) := trivial
  have hr := hla.step hok .rename
  obtain ⟨handles, ⟨own, recs, hs, hst⟩, hk, hcn⟩ := hr.lookups keys
  obtain ⟨handle, ho, hn, hsm⟩ := keys_of_rename hrename
  let s := (c.store.renameEntry oldKey newKey).1.lookups keys
  have hlk : s.lookupKey newKey = some handle := (congrFun hk newKey).trans hn
  have he : c.store.entry oldKey = some (s.content handle) := by
    obtain ⟨own, recs, hs, hst⟩ := hla
    rw [hs.entry_of_some ho (hst.valueAt hs ho), ← hsm]
    exact congrArg some (hcn newKey handle hn).symm
  obtain ⟨fuel, t, own', recs', hl, hld⟩ := hs.reload hreload
  have hen : orbit (loadNext s.commit .normal) fuel .start = none := by
    have hnt : ¬s.commit.size > 2 ^ 31 - 1 := by
      have hsz : s.currentSize < 2 ^ 31 := hreload.1
      change ¬s.currentSize > 2 ^ 31 - 1
      omega
    have hso : (loadV4 s.commit .normal always fuel .createStore).isSome := by
      rw [hl]
      rfl
    exact (loadV4_isSome_iff hnt).mp hso
  have hsa : s.StoredAs oldKey newKey ↔ t.entry oldKey = none ∧
      (s.KeyInUse newKey → t.entry newKey = some (s.content handle)) := by
    rw [hld.entry_eq, hld.entry_eq, Option.map_eq_none_iff]
    constructor
    · intro ha
      obtain ⟨hf, hsc⟩ := ha fuel hen
      rw [hs.storedUnder_eq hreload.1 hen] at hf hsc
      rw [hlk] at hsc
      exact ⟨hf, hsc⟩
    · intro ha fuel' hen'
      rw [hs.storedUnder_eq hreload.1 hen', hs.storedUnder_eq hreload.1 hen', hlk]
      exact ha
  rw [hsa]
  unfold PersistState.RenameSurvives
  rw [he]
  constructor
  · rintro ⟨fuel', t', hl', hsr⟩
    cases loadV4_unique hreload.1 hl hl'
    exact hsr
  · exact fun hsr => ⟨fuel, t, hl, hsr⟩

def nameB : Name := [0x62]

/-- The second entry of `a` under the name `b` -/
def renamedEntry : Client := { replaced with store := (replaced.store.renameEntry nameA nameB).1 }

theorem renamedEntry_reachable : (clientSystem.restrict Fitting).Reachable renamedEntry := by
  have ho := replaced_reachable.mono And.left
  have hok : Fitting replaced (.rename nameA nameB) := trivial
  exact ho.step ⟨hok, .rename⟩

/-- An entry that is renamed back to the name under which it was stored. -/
theorem rename_survives_back : renamedEntry.store.RenameSurvives nameB nameA [] := by
  have hc : ((renamedEntry.store.renameEntry nameB nameA).1.lookups []).commit =
      replaced.store.commit := renameEntry_commit.trans renameEntry_commit
  have hr := replaced_reloadable.congr hc
  refine (rename_survives_iff renamedEntry_reachable (by decide +kernel) [] hr).mpr ?_
  intro fuel hen
  have hl : ((renamedEntry.store.renameEntry nameB nameA).1.lookups []).lookupKey nameA =
      some 4280 := by decide +kernel
  have hf : ∀ n < 3, (orbit (loadNext replaced.store.commit .normal) n .start).isSome = true := by
    decide +kernel
  have hge : 3 ≤ fuel := by
    by_contra hlt
    have ho := hf fuel (by omega)
    rw [← hc, hen] at ho
    cases ho
  unfold storedUnder
  rw [hc, replaced_inUseEntries, hl, min_eq_right hge]
  exact ⟨by decide +kernel, fun _ => by decide +kernel⟩

/-- `a` is renamed to `b`, and the file is loaded again: `a` is found, and `b` is not. -/
theorem rename_lost : (clientSystem.restrict Fitting).Reachable replaced ∧
      (replaced.store.renameEntry nameA nameB).2 = true ∧ renamedEntry.store.KeyInUse nameB ∧
      (loadV4 renamedEntry.store.commit .normal always 4 .createStore).map (fun loaded =>
        ((loaded.1.entry nameA).isSome, (loaded.1.entry nameB).isSome)) = some (true, false) := by
  refine ⟨replaced_reachable.mono And.left, by decide +kernel, ?_, by decide +kernel⟩
  exact ⟨4280, by decide +kernel, by decide +kernel⟩

/-! ### What the users have -/

variable {c' : Client} {op : ClientOp}

/-- The steps that may change what is behind a handle. -/
def ClientOp.Touches (handle : ℕ) : ClientOp → Prop
  | .write other _ _ => other = handle
  | .restart => True
  | _ => False

theorem content_step (h : Laid c) (hok : Fitting c op) (hm : handle ∈ c.handles)
    (hst : ClientStep c op c') (hn : ¬op.Touches handle) :
    handle ∈ c'.handles ∧ c'.store.content handle = c.store.content handle := by
  obtain ⟨own, recs, hs, hk⟩ := h
  have hv := hs.handles _ hm
  cases hst with
  | @alloc name size hname hne =>
    obtain ⟨own', bytes, -, hi⟩ := hs.allocEntry hk hname hok.1 hok.2 hne
    have hd := hs.dropEntry hk name
    refine ⟨List.mem_cons_of_mem _ hm, ?_⟩
    rw [hi.keeps.content hd.toLayout (hd.handles _ hm), PersistState.dropEntry]
    cases hl : c.store.lookupKey name with
    | none => rfl
    | some dropped => exact hs.setInUse_content (hk.valueAt hs hl) hv
  | @lookup key =>
    cases hl : c.store.keys key with
    | none =>
      rw [lookupEntry_of_none hl]
      exact ⟨hm, rfl⟩
    | some found =>
      have hf := hk.valueAt hs hl
      rw [hs.lookupEntry_of_some hl hf]
      exact ⟨List.mem_cons_of_mem _ hm, hs.setInUse_content hf hv⟩
  | @rename oldKey newKey =>
    refine ⟨hm, ?_⟩
    unfold PersistState.renameEntry
    cases c.store.keys oldKey <;> rfl
  | @write other ofs bytes ho hf =>
    refine ⟨hm, hs.content_congr hv fun i hi _ => ?_⟩
    apply Image.write_of_not_mem
    rintro ⟨hge, hlt⟩
    -- the byte belongs to the value that is written
    have ho := hs.handles _ ho
    have hsz := hs.content_size ho
    cases hi.symm.trans (ho.owns i (by omega) (by omega))
    exact hn rfl
  | restart => exact absurd trivial hn

/-- After any history and in every run, what is behind a handle stays the same as long as nobody
writes through this handle and the file is not loaded again. -/
theorem content_kept (h : (clientSystem.restrict Fitting).Reachable c) (hm : handle ∈ c.handles)
    {ops : List ClientOp}
    (hr : (clientSystem.restrict fun c op => Fitting c op ∧ ¬op.Touches handle).Run c ops c') :
    handle ∈ c'.handles ∧ c'.store.content handle = c.store.content handle := by
  refine (hr.invariant (I := fun c' => Laid c' ∧ handle ∈ c'.handles ∧
    c'.store.content handle = c.store.content handle) ?_ ⟨laid_of_reachable h, hm, rfl⟩).2
  rintro c₁ op c₂ ⟨hla, hm₁, heq⟩ ⟨⟨hok, hn⟩, hst⟩
  obtain ⟨hm₂, hk⟩ := content_step hla hok hm₁ hst hn
  exact ⟨hla.step hok hst, hm₂, hk.trans heq⟩

/-- The second `a` is renamed to `b` and written, and an allocation makes the file grow. -/
def grown : Client :=
  Client.afterAlloc { renamedEntry with
    store := renamedEntry.store.write (4280 + 0) [1, 2, 3] } [0x65] 12000

/-- The value of `d` stays as it is. -/
theorem content_kept_grown :
    (4216 ∈ grown.handles ∧ grown.store.content 4216 = replaced.store.content 4216) ∧
      grown.store.currentSize = 2 * replaced.store.currentSize ∧
      grown.store.currentMap 4280 ≠ replaced.store.currentMap 4280 := by
  have hrn : Fitting replaced (.rename nameA nameB) ∧ ¬(ClientOp.rename nameA nameB).Touches 4216 :=
    ⟨trivial, id⟩
  have hw : Fitting renamedEntry (.write 4280 0 [1, 2, 3]) ∧
      ¬(ClientOp.write 4280 0 [1, 2, 3]).Touches 4216 :=
    ⟨trivial, show ¬(4280 = 4216) by decide⟩
  have ha : Fitting { renamedEntry with store := renamedEntry.store.write (4280 + 0) [1, 2, 3] }
      (.alloc [0x65] 12000) ∧ ¬(ClientOp.alloc [0x65] 12000).Touches 4216 :=
    ⟨⟨by decide +kernel, by decide +kernel⟩, id⟩
  refine ⟨content_kept (replaced_reachable.mono And.left) (by decide +kernel)
    (.snoc (.snoc (.snoc .nil ⟨hrn, .rename⟩) ⟨hw, .write ?_ ?_⟩) ⟨ha, .alloc ?_ ?_⟩), ?_, ?_⟩
  · decide +kernel
  · decide +kernel
  · exact ⟨by decide, by decide, by decide⟩
  · decide +kernel
  · decide +kernel
  · decide +kernel

end SyslogNg.Persist
