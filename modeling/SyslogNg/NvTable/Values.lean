import SyslogNg.NvTable.Layout
import SyslogNg.Foundations.ViewStore

/-!
# NVTable: the values of a table

A table is a store with views: a direct entry owns its value and an indirect entry is
a view of the referenced handle. `Layout` adds to the memory invariant that every view
is of a direct entry whose `referenced` flag is set, which is what allows a set to skip
the walk over the referrers when the flag is clear.
-/
namespace SyslogNg.NvTable

open NVTable Function ViewStore NVEntry

namespace NVEntry

def name (e : NVEntry) : NVName :=
  match e.body with
  | .vdirect name _ => name
  | .vindirect _ name => name

def cell (e : NVEntry) : Cell ℕ NVValue :=
  match e.body with
  | .vdirect _ value => .own (.ofBytes value)
  | .vindirect slice _ => .view slice.handle slice.cut

end NVEntry

namespace NVTable

def cells (t : NVTable) (h : ℕ) : Option (Cell ℕ NVValue) := (t.entryOf h).map NVEntry.cell

def values (t : NVTable) : ℕ → NVValue := read .null t.cells

end NVTable

structure Layout (names : ℕ → NVName) (t : NVTable) : Prop where
  memory : t.Memory
  named : ∀ h e, t.entryOf h = some e → e.name = names h ∨ e.name = .empty
  marked : ∀ h e slice name, t.entryOf h = some e → e.body = .vindirect slice name →
    ∃ e', t.entryOf slice.handle = some e' ∧ e'.indirect = false ∧ e'.referenced = true

section

variable {names : ℕ → NVName} {t t' : NVTable} {h : ℕ} {e : NVEntry} {name : NVName}

theorem indirect_eq_false : e.indirect = false ↔ ∃ name value, e.body = .vdirect name value := by
  unfold indirect
  split <;> simp_all

theorem indirect_eq_true : e.indirect = true ↔ ∃ slice name, e.body = .vindirect slice name := by
  unfold indirect
  split <;> simp_all

theorem cells_eq_view {k : ℕ} {f : NVValue → NVValue} (hc : t.cells h = some (.view k f)) :
    ∃ e slice name, t.entryOf h = some e ∧ e.body = .vindirect slice name ∧ slice.handle = k ∧
      slice.cut = f := by
  obtain ⟨e, he, hcl⟩ := Option.map_eq_some_iff.mp hc
  unfold cell at hcl
  split at hcl
  · cases hcl
  · rename_i slice name hb
    cases hcl
    exact ⟨e, slice, name, he, hb, rfl, rfl⟩

theorem cells_direct {value : Bytes} (he : t.entryOf h = some e)
    (hb : e.body = .vdirect name value) : t.cells h = some (.own (.ofBytes value)) := by
  simp [cells, he, cell, hb]

theorem cells_indirect {slice : NVReferencedSlice} (he : t.entryOf h = some e)
    (hb : e.body = .vindirect slice name) : t.cells h = some (.view slice.handle slice.cut) := by
  simp [cells, he, cell, hb]

theorem cells_update (hu : t'.entryOf = update t.entryOf h (some e)) :
    t'.cells = update t.cells h (some e.cell) := by
  funext k
  by_cases hk : k = h
  · simp [cells, hu, hk]
  · simp [cells, hu, hk]

theorem cells_congr (hu : t'.entryOf = t.entryOf) : t'.cells = t.cells := by
  funext k
  rw [cells, hu, cells]

variable (hl : Layout names t)

include hl

theorem Layout.flat : Flat t.cells := by
  intro k k' f hk
  obtain ⟨e, slice, name, he, hb, rfl, -⟩ := cells_eq_view hk
  obtain ⟨e', he', hd, -⟩ := hl.marked k e slice name he hb
  obtain ⟨name', value, hb'⟩ := indirect_eq_false.mp hd
  exact ⟨_, cells_direct he' hb'⟩

/-- Only a direct entry with its flag set can have referrers. -/
theorem Layout.unviewed
    (hu : ∀ e, t.entryOf h = some e → e.indirect = false → e.referenced = false) :
    Unviewed t.cells h := by
  intro j f hj
  obtain ⟨e, slice, name, he, hb, rfl, -⟩ := cells_eq_view hj
  obtain ⟨e', he', hd, hr⟩ := hl.marked j e slice name he hb
  rw [hu e' he' hd] at hr
  cases hr

omit hl in
theorem getValueFrom_direct {fuel o : ℕ} {value : Bytes}
    (ha : t.addr h = some o) (he : t.entries o = some e) (hb : e.body = .vdirect name value) :
    t.getValueFrom (fuel + 1) h = some (.ofBytes value) := by
  rw [addr] at ha
  simp [getValueFrom, ha, he, hb]

/-- The two mutually recursive readers follow at most one reference. -/
theorem Layout.getValueFrom_eq {fuel : ℕ} : t.getValueFrom (fuel + 2) h = some (t.values h) := by
  cases ha : t.addr h with
  | none =>
    have hn : t.cells h = none := by simp [cells, entryOf, ha]
    rw [values, read_none hn]
    rw [addr] at ha
    simp [getValueFrom, ha]
  | some o =>
    obtain ⟨e, he⟩ := hl.memory.live h o ha
    have hen : t.entryOf h = some e := entryOf_eq_some.mpr ⟨o, ha, he⟩
    cases hb : e.body with
    | vdirect name value =>
      rw [values, read_own (cells_direct hen hb)]
      exact getValueFrom_direct ha he hb
    | vindirect slice name =>
      obtain ⟨e', hen', hd, -⟩ := hl.marked h e slice name hen hb
      obtain ⟨name', value, hb'⟩ := indirect_eq_false.mp hd
      obtain ⟨o', ha', he'⟩ := entryOf_eq_some.mp hen'
      rw [values, read_view (cells_indirect hen hb) (cells_direct hen' hb')]
      have hg : t.getValueFrom (fuel + 1) slice.handle = some (.ofBytes value) :=
        getValueFrom_direct ha' he' hb'
      rw [addr] at ha
      rw [getValueFrom]
      simp only [ha, he, hb, hg, Option.map_some]

theorem Layout.getValue_eq : t.getValue h = some (t.values h) := hl.getValueFrom_eq

theorem Layout.resolveIndirect_eq {slice : NVReferencedSlice} :
    t.resolveIndirect slice = some (slice.cut (t.values slice.handle)) := by
  rw [resolveIndirect, hl.getValue_eq]
  rfl

theorem Layout.resolveEntry_eq (he : t.entryOf h = some e) :
    t.resolveEntry e = some (t.values h) := by
  cases hb : e.body with
  | vdirect name value => simp [resolveEntry, hb, values, read_own (cells_direct he hb)]
  | vindirect slice name =>
    obtain ⟨e', he', hd, -⟩ := hl.marked h e slice name he hb
    obtain ⟨name', value, hb'⟩ := indirect_eq_false.mp hd
    have hc' := cells_direct he' hb'
    simp only [resolveEntry, hb, hl.resolveIndirect_eq, values, read_own hc',
      read_view (cells_indirect he hb) hc']

omit hl in
theorem Layout.values_congr (hu : t'.entryOf = t.entryOf) : t'.values = t.values := by
  rw [values, cells_congr hu, values]

theorem Layout.congr (hm : t'.Memory) (hu : t'.entryOf = t.entryOf) : Layout names t' := by
  refine ⟨hm, ?_, ?_⟩
  · rw [hu]
    exact hl.named
  · rw [hu]
    exact hl.marked

/-- Replacing an entry without referrers by a direct one. -/
theorem Layout.update_direct (hm : t'.Memory) (hun : Unviewed t.cells h)
    (hu : t'.entryOf = update t.entryOf h (some e)) (hn : e.name = names h ∨ e.name = .empty)
    (hd : e.indirect = false) : Layout names t' := by
  refine ⟨hm, ?_, ?_⟩
  · intro k f hf
    rw [hu] at hf
    by_cases hk : k = h
    · simp only [hk, update_self, Option.some.injEq] at hf
      rwa [hk, ← hf]
    · exact hl.named k f (by simpa [hk] using hf)
  · intro k f slice name hf hb
    rw [hu] at hf ⊢
    have hk : k ≠ h := by
      rintro rfl
      simp only [update_self, Option.some.injEq] at hf
      rw [← hf] at hb
      simp [indirect, hb] at hd
    rw [update_of_ne hk] at hf
    have hne : slice.handle ≠ h := by
      rintro rfl
      exact hun k _ (cells_indirect hf hb)
    obtain ⟨e', he', h1, h2⟩ := hl.marked k f slice name hf hb
    exact ⟨e', by rwa [update_of_ne hne], h1, h2⟩

omit hl in
theorem values_update_direct {value : Bytes} (hun : Unviewed t.cells h)
    (hu : t'.entryOf = update t.entryOf h (some e)) (hb : e.body = .vdirect name value) :
    t'.values = update t.values h (.ofBytes value) := by
  rw [values, cells_update hu, values, ← read_update_own hun]
  simp [cell, hb]

end

end SyslogNg.NvTable
