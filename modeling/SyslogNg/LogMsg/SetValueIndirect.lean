import SyslogNg.NvTable.Semantics

/-!
# Setting a message value by reference

`log_msg_set_value_indirect` retries `nv_table_add_value_indirect` on larger and larger
payloads until it succeeds or the payload cannot grow. The model keeps the calls that
returned `FALSE`, so that it can be said on which payloads the loop asked for more bytes.
The update of the structured data list after a new entry is not part of it.
-/
namespace SyslogNg.LogMsg

open NvTable NvTable.NVTable Function

def lmVNone : ℕ := 0

def lmVMax : ℕ := 9

/-- The payload of a message and its `LF_STATE_OWN_PAYLOAD` flag. -/
structure Payload where
  table : NVTable
  own : Bool

structure RetryResult where
  /-- Payload and slice of every call that returned `FALSE`. -/
  attempts : List (NVTable × NVReferencedSlice)
  result : AddResult

/-- The size doubles from at least one byte to `NV_TABLE_MAX_BYTES = 2 ^ 28`. -/
def retryLimit : ℕ := 29

def retryIndirect (handle : ℕ) (name : NVName) :
    ℕ → NVTable → NVReferencedSlice → Option RetryResult
  | 0, _, _ => none
  | fuel + 1, t, slice =>
    match addValueIndirect t handle name slice true with
    | none => none
    | some (r, slice') =>
      if r.ok then some ⟨[], r⟩
      else
        match r.table.realloc with
        | none => some ⟨[(t, slice)], r⟩
        | some (_, t') =>
          (retryIndirect handle name fuel t' slice').map fun out =>
            { out with attempts := (t, slice) :: out.attempts }

structure SetResult where
  payload : Payload
  attempts : List (NVTable × NVReferencedSlice)
  newEntry : Bool

/-- `log_msg_set_value_indirect`; `type` is a `guint8`, `ofs` and `len` are `guint16`. -/
def setValueIndirect (names : ℕ → NVName) (m : Payload) (handle refHandle type ofs len : ℕ) :
    Option SetResult :=
  if handle = lmVNone then some ⟨m, [], false⟩
  else if handle < lmVMax then none
  else
    match m.table.getValue refHandle with
    | none => none
    | some v =>
      if v.length = 0 then some ⟨m, [], false⟩
      else
        let t := if m.own then m.table else m.table.clone ((names handle).len + 1)
        (retryIndirect handle (names handle) retryLimit t
          ⟨refHandle, ofs % 2 ^ 16, len % 2 ^ 16, type % 2 ^ 8⟩).map fun out =>
            ⟨⟨out.result.table, true⟩, out.attempts, out.result.newEntry⟩

variable {names : ℕ → NVName} {t : NVTable} {h : ℕ} {slice : NVReferencedSlice}

/-- The target can be overwritten in every attempt: no walk over its referrers comes first,
and none would come first if the referenced entry were made direct. -/
structure Overwritable (t : NVTable) (h ref : ℕ) : Prop where
  set : (t.entryOf ref).isSome
  no_walk : ∀ s : NVReferencedSlice, s.handle = ref → ¬ t.IndirectWalks h s
  detached : Detached h (t.entryOf ref)

theorem Overwritable.congr {t' : NVTable} {ref : ℕ} (ho : Overwritable t h ref)
    (hr : t'.entryOf ref = t.entryOf ref) (hh : t'.entryOf h = t.entryOf h) :
    Overwritable t' h ref := by
  refine ⟨hr ▸ ho.set, ?_, hr ▸ ho.detached⟩
  rintro s rfl ⟨hne, hd, ht⟩
  exact ho.no_walk s rfl ⟨hne, hr ▸ hd, hh ▸ ht⟩

theorem realloc_none (hl : Layout names t) (hr : t.realloc = none) : t.size = maxBytes := by
  have hf := hl.memory.fits
  simp only [NVTable.realloc] at hr
  split_ifs at hr with hs
  unfold getSize at hs
  unfold ofsTableTop tableHdr at hf
  omega

/-- One doubling uses up one unit of fuel. -/
theorem doubled_size {size size' fuel : ℕ} (hlt : size < maxBytes)
    (hf : 2 * maxBytes ≤ size * 2 ^ (fuel + 1)) (hs : size' = getSize (size * 2)) :
    2 * maxBytes ≤ size' * 2 ^ fuel := by
  rcases le_total (size * 2) maxBytes with hle | hle
  · rw [hs, getSize, min_eq_left hle]
    calc 2 * maxBytes ≤ size * 2 ^ (fuel + 1) := hf
      _ = size * 2 * 2 ^ fuel := by ring
  · rw [hs, getSize, min_eq_right hle]
    have hp : fuel ≠ 0 := by
      rintro rfl
      omega
    have hpw : 2 ≤ 2 ^ fuel := Nat.le_self_pow hp 2
    calc 2 * maxBytes = maxBytes * 2 := Nat.mul_comm _ _
      _ ≤ maxBytes * 2 ^ fuel := Nat.mul_le_mul_left _ hpw

/-- What the retry loop leaves behind. -/
structure RetryOutcome (names : ℕ → NVName) (t : NVTable) (h : ℕ) (v : NVValue)
    (out : RetryResult) : Prop where
  short : ∀ a ∈ out.attempts, a.1.freeGap < a.1.indirectNeed h (names h) a.2 true
  stored : out.result.ok = true → out.result.table.values = update t.values h v
  failed : out.result.ok = false → out.result.table.values = t.values ∧
    out.result.table.size = maxBytes

theorem retryIndirect_outcome (h0 : h ≠ 0) (hh : h < 2 ^ 16) :
    ∀ (fuel : ℕ) (t : NVTable) (slice : NVReferencedSlice), Layout names t →
      Overwritable t h slice.handle → slice.ofs + slice.len < 2 ^ 32 →
      2 * maxBytes ≤ t.size * 2 ^ fuel → ∃ out, retryIndirect h (names h) fuel t slice = some out ∧
        RetryOutcome names t h ((t.values slice.handle).slice slice.ofs slice.len) out := by
  intro fuel
  induction fuel with
  | zero =>
    intro t slice hl _ _ hs
    have := hl.memory.size_le
    unfold maxBytes at *
    omega
  | succ fuel ih =>
    intro t slice hl ho hlt hs
    obtain ⟨ref, hrf⟩ := Option.isSome_iff_exists.mp ho.set
    obtain ⟨r, s, hr, hot, hsm⟩ := hl.addValueIndirect_spec true h0 hh hrf
      (ho.no_walk slice rfl) hlt
    simp only [retryIndirect, hr]
    cases hok : r.ok with
    | true =>
      refine ⟨⟨[], r⟩, rfl, by simp, fun _ => hot.stored hok, fun hf => ?_⟩
      rw [hok] at hf
      cases hf
    | false =>
      obtain ⟨hv, hgp⟩ := hot.failed hok
      have hk := hot.kept hok
      cases hre : r.table.realloc with
      | none =>
        refine ⟨⟨[(t, slice)], r⟩, by simp, by simpa using hgp, fun hf => ?_,
          fun _ => ⟨hv, realloc_none hot.layout hre⟩⟩
        rw [hok] at hf
        cases hf
      | some p =>
        obtain ⟨old, t'⟩ := p
        obtain ⟨hl', he', hs'⟩ := hot.layout.realloc_spec hre
        have ho' : Overwritable t' h s.handle := by
          rw [hsm.handle]
          refine ho.congr ?_ ?_
          · rw [he', hk _ ho.detached]
          · rw [he', hk _ hl.detached_self]
        have hv' : t'.values = t.values := (Layout.values_congr he').trans hv
        have hg : 2 * maxBytes ≤ t'.size * 2 ^ fuel := by
          rw [hot.size] at hs'
          have hlt : t.size < maxBytes := lt_of_le_of_ne hl.memory.size_le fun heq => by
            simp [NVTable.realloc, hot.size, heq, getSize, maxBytes] at hre
          exact doubled_size hlt hs hs'
        obtain ⟨out, hrn, hsh, hst, hfl⟩ := ih t' s hl' ho' hsm.no_wrap hg
        refine ⟨{ out with attempts := (t, slice) :: out.attempts }, by simp [hrn], ?_, ?_, ?_⟩
        · intro a ha
          rcases List.mem_cons.mp ha with rfl | ha
          · exact hgp
          · exact hsh a ha
        · intro hf
          rw [hst hf, hv', hsm.handle, hsm.bytes]
        · intro hf
          rw [← hv']
          exact hfl hf

theorem setValueIndirect_short (hl : Layout names t) (h0 : h ≠ 0) (hh : h < 2 ^ 16)
    (hm : lmVMax ≤ h) {ref : ℕ} (ho : Overwritable t h ref) (own : Bool) (type ofs len : ℕ) :
    ∃ out, setValueIndirect names ⟨t, own⟩ h ref type ofs len = some out ∧
      ∀ a ∈ out.attempts, a.1.freeGap < a.1.indirectNeed h (names h) a.2 true := by
  rw [setValueIndirect, if_neg (show h ≠ lmVNone from h0), if_neg (not_lt.mpr hm), hl.getValue_eq]
  dsimp only
  split_ifs with he how
  · exact ⟨_, rfl, by simp⟩
  all_goals
    have hw : ofs % 2 ^ 16 + len % 2 ^ 16 < 2 ^ 32 := by
      omega
    have hs : ∀ u : NVTable, Layout names u → 2 * maxBytes ≤ u.size * 2 ^ retryLimit := by
      intro u hu
      have hf := hu.memory.fits
      unfold ofsTableTop tableHdr at hf
      unfold maxBytes retryLimit
      omega
  · obtain ⟨out, hr, hot⟩ := retryIndirect_outcome h0 hh retryLimit t
      ⟨ref, ofs % 2 ^ 16, len % 2 ^ 16, type % 2 ^ 8⟩ hl ho hw (hs t hl)
    exact ⟨_, by rw [hr]; rfl, hot.short⟩
  · obtain ⟨hl', hen⟩ := hl.clone_spec ((names h).len + 1)
    obtain ⟨out, hr, hot⟩ := retryIndirect_outcome h0 hh retryLimit
      (t.clone ((names h).len + 1)) ⟨ref, ofs % 2 ^ 16, len % 2 ^ 16, type % 2 ^ 8⟩ hl'
      (ho.congr (by rw [hen]) (by rw [hen])) hw (hs _ hl')
    exact ⟨_, by rw [hr]; rfl, hot.short⟩

/-- In every fitting history, an indirect set whose target is not a direct entry flagged as
referenced fails only for lack of space and otherwise stores exactly the slice; and unless
the referenced entry is itself a slice of the target, `log_msg_set_value_indirect` grows the
payload only while the slice does not fit. -/
theorem addValueIndirect_value_semantics (hr : (fittingSystem names).Reachable t) (h0 : h ≠ 0)
    (hh : h < 2 ^ 16) (hne : h ≠ slice.handle) (hlt : slice.ofs + slice.len < 2 ^ 32)
    (hset : t.isValueSet slice.handle = true) (hno : ¬ t.IndirectWalks h slice) :
    (∀ wantNew, ∃ r s, addValueIndirect t h (names h) slice wantNew = some (r, s) ∧
      (r.ok = false → t.freeGap < t.indirectNeed h (names h) slice wantNew) ∧ (r.ok = true →
        r.table.getValue h = (t.getValue slice.handle).map (·.slice slice.ofs slice.len) ∧
        ∀ k ≠ h, r.table.getValue k = t.getValue k)) ∧
    (lmVMax ≤ h → Detached h (t.entryOf slice.handle) → ∀ own type ofs len,
      ∃ out, setValueIndirect names ⟨t, own⟩ h slice.handle type ofs len = some out ∧
        ∀ a ∈ out.attempts, a.1.freeGap < a.1.indirectNeed h (names h) a.2 true) := by
  have hl := layout_of_reachable hr
  obtain ⟨o, ha⟩ := Option.isSome_iff_exists.mp hset
  obtain ⟨ref, hrf⟩ := hl.memory.live slice.handle o ha
  have he : t.entryOf slice.handle = some ref := entryOf_eq_some.mpr ⟨o, ha, hrf⟩
  constructor
  · intro wantNew
    obtain ⟨r, s, hrn, ho, -⟩ := hl.addValueIndirect_spec wantNew h0 hh he hno hlt
    refine ⟨r, s, hrn, fun hok => (ho.failed hok).2, fun hok => ?_⟩
    have hv := ho.stored hok
    refine ⟨?_, fun k hk => ?_⟩
    · rw [ho.layout.getValue_eq, hv, update_self, hl.getValue_eq]
      rfl
    · rw [ho.layout.getValue_eq, hl.getValue_eq, hv, update_of_ne hk]
  · intro hm hdt own type ofs len
    refine setValueIndirect_short hl h0 hh hm ⟨by simp [he], ?_, hdt⟩ own type ofs len
    rintro s hs ⟨-, hd, ht⟩
    exact hno ⟨hne, hs ▸ hd, ht⟩

/-- The table of the examples below: 11 is a slice of 10, and 12 has a value of its own. -/
def slicedTable : NVTable :=
  [Op.addValue 10 [97, 98, 99] true, .addValueIndirect 11 ⟨10, 1, 2, 0⟩ true,
    .addValue 12 [122] true].foldl (execTable fun _ => .empty) (.new 9 3 256)

theorem slicedTable_reachable : (fittingSystem fun _ => .empty).Reachable slicedTable := by
  let names : ℕ → NVName := fun _ => .empty
  let t0 : NVTable := .new 9 3 256
  let t1 := execTable names t0 (.addValue 10 [97, 98, 99] true)
  have h0 : (fittingSystem names).Reachable t0 := .init (Or.inl ⟨9, 3, 256, rfl⟩)
  have h1 : (fittingSystem names).Reachable t1 :=
    reachable_execTable h0 (.addValue 10 [97, 98, 99] true) ⟨⟨by decide, by decide⟩, trivial⟩
  have hn : t1.entryOf 11 = none := by decide +kernel
  have h2 := reachable_execTable h1 (.addValueIndirect 11 ⟨10, 1, 2, 0⟩ true)
    ⟨⟨by decide, by decide, by decide⟩, fun hw => by
      obtain ⟨e, he, -⟩ := hw.target
      rw [hn] at he
      cases he⟩
  have h3 := reachable_execTable h2 (.addValue 12 [122] true) ⟨⟨by decide, by decide⟩, trivial⟩
  simp only [slicedTable, List.foldl_cons, List.foldl_nil]
  exact h3

/-- The slice 11 can be turned into a slice of 12. -/
theorem addValueIndirect_value_semantics_slice :
    ∃ r s, addValueIndirect slicedTable 11 .empty ⟨12, 0, 1, 0⟩ true = some (r, s) ∧
      r.ok = true ∧ r.table.getValue 11 = some (.ofBytes [122]) ∧
      r.table.getValue 10 = some (.ofBytes [97, 98, 99]) := by
  have hno : ¬ slicedTable.IndirectWalks 11 ⟨12, 0, 1, 0⟩ := by
    intro hw
    obtain ⟨e, he, hd, -⟩ := hw.target
    have hi : (slicedTable.entryOf 11).map NVEntry.indirect = some true := by decide +kernel
    simp [he, hd] at hi
  obtain ⟨hc, -⟩ := @addValueIndirect_value_semantics _ _ 11 ⟨12, 0, 1, 0⟩ slicedTable_reachable
    (by decide) (by decide) (by decide) (by decide) (by decide +kernel) hno
  obtain ⟨r, s, hr, -, hok⟩ := hc true
  have hr' := hr
  have ht : (addValueIndirect slicedTable 11 .empty ⟨12, 0, 1, 0⟩ true).map (·.1.ok) =
      some true := by decide +kernel
  rw [hr'] at ht
  have hrk : r.ok = true := by simpa using ht
  obtain ⟨hs, ho⟩ := hok hrk
  have h12 : slicedTable.getValue 12 = some (.ofBytes [122]) := by decide +kernel
  have h10 : slicedTable.getValue 10 = some (.ofBytes [97, 98, 99]) := by decide +kernel
  refine ⟨r, s, hr', hrk, ?_, (ho 10 (by decide)).trans h10⟩
  rw [hs]
  exact (congrArg _ h12).trans rfl

/-- A set to the referenced handle 10 returns `FALSE` with free bytes to spare, and the retry
loop grows the payload to the limit and gives up. -/
theorem addValueIndirect_referenced_target_fails :
    (fittingSystem fun _ => .empty).Reachable slicedTable ∧ slicedTable.isValueSet 12 = true ∧
      (addValueIndirect slicedTable 10 .empty ⟨12, 0, 1, 0⟩ true).map (·.1.ok) = some false ∧
      (slicedTable.indirectNeed 10 .empty ⟨12, 0, 1, 0⟩ true : ℤ) ≤ slicedTable.freeGap ∧
      (setValueIndirect (fun _ => .empty) ⟨slicedTable, true⟩ 10 12 0 0 1).map
        (fun out => (out.payload.table.size, out.payload.table.getValue 10)) =
          some (maxBytes, some (.ofBytes [97, 98, 99])) := by
  refine ⟨slicedTable_reachable, ?_, ?_, ?_, ?_⟩
  · decide +kernel
  · decide +kernel
  · decide +kernel
  · decide +kernel

end SyslogNg.LogMsg
