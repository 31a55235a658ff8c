import SyslogNg.SyslogFormat.SdataRoundTrip
import SyslogNg.SyslogFormat.SdataUpdate

/-!
# Contiguous elements

A message without structured data gets SDATA values one after the other, after the initial parse.
The entries of an element stay next to each other, so that the element is written in one piece,
exactly as long as each new entry is inserted beside its element or between two others.
-/
namespace SyslogNg.SyslogFormat

open List Option LogMessage

/-! ### Values of elements -/

/-- A name `.SDATA.id` or `.SDATA.id.param` -/
structure SdKey where
  id : Bytes
  param : Option Bytes
  id_ne_nil : id ≠ []
  id_noDot : 0x2e ∉ id
  param_ne_nil : ∀ p ∈ param, p ≠ []
  param_noDot : ∀ p ∈ param, 0x2e ∉ p

namespace SdKey

def tail (key : SdKey) : Bytes :=
  key.id ++ match key.param with
    | some param => 0x2e :: param
    | none => []

def name (key : SdKey) : ValueName := .named (sdPrefix ++ key.tail)

theorem isSdata_name (key : SdKey) : key.name.isSdata = true := by
  simp [name, ValueName.isSdata]

theorem sdName_name (key : SdKey) : key.name.sdName = key.tail := by
  simp [name, ValueName.sdName]

theorem splitSdName_tail (key : SdKey) : splitSdName key.tail = (key.id, key.param.getD []) := by
  rw [tail]
  cases hp : key.param with
  | none =>
    simp only [append_nil]
    exact splitSdName_of_notMem key.id_noDot key.id_ne_nil
  | some param => exact splitSdName_dot key.id (key.param_noDot param hp)

/-- Only the parameters of `meta` are in `meta.` -/
theorem inMeta_tail (key : SdKey) (value : Bytes) :
    inMeta (key.tail, value) = true ↔ key.id = metaId ∧ key.param.isSome := by
  have hm : metaPrefix = metaId ++ [0x2e] := rfl
  rw [inMeta, isPrefixOf_iff_prefix, hm, tail]
  cases hp : key.param with
  | none =>
    simp only [append_nil, isSome_none, Bool.false_eq_true, and_false, iff_false]
    rintro ⟨rest, hr⟩
    refine key.id_noDot ?_
    rw [← hr]
    simp
  | some param =>
    simp only [isSome_some, and_true]
    constructor
    · rintro ⟨rest, hr⟩
      have hid : (key.id ++ 0x2e :: param).takeWhile (· != 0x2e) = key.id := by
        rw [takeWhile_append_of_pos
          (by simpa using fun b hb => ne_of_mem_of_not_mem hb key.id_noDot)]
        simp
      rw [← hid, ← hr]
      rfl
    · intro hid
      rw [hid]
      exact ⟨param, by simp⟩

end SdKey

/-! ### Runs -/

/-- A call of `log_msg_set_value`; whether the payload can take the value depends on its size. -/
structure SetOp where
  key : SdKey
  value : Bytes
  fits : Bool

/-- Names without a handle, such as the ones that are too long, are not set. -/
def SetOp.run (hasHandle : ValueName → Bool) (m : LogMessage) (op : SetOp) : LogMessage :=
  if hasHandle op.key.name then m.store false op.key.name op.value op.fits else m

def runSets (hasHandle : ValueName → Bool) (m : LogMessage) (ops : List SetOp) : LogMessage :=
  ops.foldl (SetOp.run hasHandle) m

def ValueName.sdId (name : ValueName) : Bytes := SyslogFormat.sdId name.sdName

section

variable (hasHandle : ValueName → Bool) (m : LogMessage)
include hasHandle m

theorem run_cases (op : SetOp) :
    (¬ (hasHandle op.key.name = true ∧ m.values op.key.name = none ∧ m.sdata.length ≠ 255) ∧
      (op.run hasHandle m).sdata = m.sdata) ∨
    (hasHandle op.key.name = true ∧ m.values op.key.name = none ∧
      ∃ before after, m.sdata = before ++ after ∧ InsertsBetween op.key.name.text before after ∧
        (op.run hasHandle m).sdata = before ++ op.key.name :: after) := by
  rw [SetOp.run]
  by_cases hh : hasHandle op.key.name = true
  · rw [if_pos hh]
    by_cases hv : m.values op.key.name = none
    · have hs : (m.store false op.key.name op.value op.fits).sdata =
          updateSdataSlow false m.sdata op.key.name := by
        simp [store, hv, op.key.isSdata_name]
      rw [hs]
      by_cases hr : m.sdata.length = 255
      · exact .inl ⟨fun h => h.2.2 hr, if_pos hr⟩
      · exact .inr ⟨hh, hv, updateSdataSlow_spec hr op.key.name⟩
    · refine .inl ⟨fun h => hv h.2.1, ?_⟩
      have hin : (m.values op.key.name).isNone = false :=
        isNone_eq_false_iff.mpr (isSome_iff_ne_none.mpr hv)
      simp [store, hin]
  · rw [if_neg hh]
    exact .inl ⟨fun h => hh h.1, rfl⟩

theorem sublist_run (op : SetOp) : m.sdata.Sublist (op.run hasHandle m).sdata := by
  rcases run_cases hasHandle m op with ⟨-, hsm⟩ | ⟨-, -, before, after, hs, -, hi⟩
  · rw [hsm]
  · rw [hi, hs]
    exact (List.Sublist.refl before).append (sublist_cons_self _ after)

theorem sublist_runSets (ops : List SetOp) : m.sdata.Sublist (runSets hasHandle m ops).sdata := by
  induction ops generalizing m with
  | nil => exact List.Sublist.refl _
  | cons op ops ih => exact (sublist_run hasHandle m op).trans (ih _)

end

variable {hasHandle : ValueName → Bool} {m : LogMessage} {name : ValueName} {ops : List SetOp}
  {names : Finset ValueName}

/-- Only names that were set are in the array. -/
theorem mem_sdata_runSets (hn : name ∈ (runSets hasHandle m ops).sdata) :
    name ∈ m.sdata ∨ ∃ op ∈ ops, op.key.name = name := by
  induction ops generalizing m with
  | nil => exact .inl hn
  | cons op ops ih =>
    rcases ih hn with hn | ⟨op', hop', rfl⟩
    · rcases run_cases hasHandle m op with ⟨-, hsm⟩ | ⟨-, -, before, after, hs, -, hi⟩
      · rw [hsm] at hn
        exact .inl hn
      · rw [hi, mem_append, mem_cons] at hn
        rw [hs, mem_append]
        rcases hn with hn | rfl | hn
        · exact .inl (.inl hn)
        · exact .inr ⟨op, mem_cons_self, rfl⟩
        · exact .inl (.inr hn)
    · exact .inr ⟨op', mem_cons_of_mem _ hop', rfl⟩

/-- A new name keeps the array in order: it has no entry yet, and the place that the text of the
name leads to is beside its element, or between two elements if it is the first of its own. -/
structure Keeps (sdata : List ValueName) (name : ValueName) : Prop where
  fresh : name ∉ sdata
  place : ∀ before after, sdata = before ++ after → InsertsBetween name.text before after →
    FitsBetween ValueName.sdId name before after

/-- The condition on a step: it is about names that are set for the first time. -/
def SetOp.Keeps (hasHandle : ValueName → Bool) (m : LogMessage) (op : SetOp) : Prop :=
  hasHandle op.key.name = true → m.values op.key.name = none →
    SyslogFormat.Keeps m.sdata op.key.name

/-- Each element is in one piece and each value once in the array. -/
structure Contiguous (sdata : List ValueName) : Prop where
  grouped : Grouped ValueName.sdId sdata
  nodup : sdata.Nodup

theorem Contiguous.sublist {sdata sdata' : List ValueName} (h : Contiguous sdata)
    (hs : sdata'.Sublist sdata) : Contiguous sdata' :=
  ⟨h.grouped.sublist hs, h.nodup.sublist hs⟩

theorem contiguous_insert_iff {before after : List ValueName}
    (h : Contiguous (before ++ after)) (hp : InsertsBetween name.text before after) :
    Contiguous (before ++ name :: after) ↔ Keeps (before ++ after) name := by
  have hpr : (before ++ name :: after).Perm (name :: (before ++ after)) := perm_middle
  constructor
  · intro hi
    refine ⟨(nodup_cons.mp (hpr.nodup_iff.mp hi.nodup)).1, ?_⟩
    intro before' after' heq hp'
    obtain ⟨rfl, rfl⟩ := hp.unique hp' heq
    exact hi.grouped.fitsBetween
  · intro hk
    refine ⟨(grouped_insert_iff h.grouped).mpr (hk.place before after rfl hp), ?_⟩
    exact hpr.nodup_iff.mpr (nodup_cons.mpr ⟨hk.fresh, h.nodup⟩)

theorem contiguous_run_iff {op : SetOp} (h : Contiguous m.sdata) (hr : m.sdata.length ≠ 255) :
    Contiguous (op.run hasHandle m).sdata ↔ op.Keeps hasHandle m := by
  rcases run_cases hasHandle m op with
    ⟨hn, hsm⟩ | ⟨hh, hv, before, after, hs, hp, hi⟩
  · rw [hsm]
    exact ⟨fun _ hh hv => absurd ⟨hh, hv, hr⟩ hn, fun _ => h⟩
  · have hif := contiguous_insert_iff (hs ▸ h) hp
    rw [hi, hif, ← hs]
    exact ⟨fun hk _ _ => hk, fun hk => hk hh hv⟩

/-- All steps of a run meet the condition. -/
def AllKeep (hasHandle : ValueName → Bool) (m : LogMessage) (ops : List SetOp) : Prop :=
  ∀ before op after, ops = before ++ op :: after → op.Keeps hasHandle (runSets hasHandle m before)

theorem allKeep_cons (hasHandle : ValueName → Bool) (m : LogMessage) (op : SetOp)
    (ops : List SetOp) : AllKeep hasHandle m (op :: ops) ↔
      op.Keeps hasHandle m ∧ AllKeep hasHandle (op.run hasHandle m) ops := by
  constructor
  · intro h
    exact ⟨h [] op ops rfl,
      fun before op' after heq => h (op :: before) op' after (by rw [heq]; rfl)⟩
  · rintro ⟨hf, hr⟩ before op' after heq
    cases before with
    | nil =>
      obtain ⟨rfl, rfl⟩ := cons_eq_cons.mp heq
      exact hf
    | cons op'' before =>
      obtain ⟨rfl, rfl⟩ := cons_eq_cons.mp heq
      exact hr before op' after rfl

/-- An array without repetitions in which all names are from a set of less than 255 has room. -/
theorem length_lt_of_subset (hf : names.card < 255)
    {sdata : List ValueName} (hn : sdata.Nodup) (hs : ∀ name ∈ sdata, name ∈ names) :
    sdata.length < 255 := by
  calc sdata.length = sdata.toFinset.card := (toFinset_card_of_nodup hn).symm
    _ ≤ names.card := Finset.card_le_card fun name hnm => hs name (List.mem_toFinset.mp hnm)
    _ < 255 := hf

/-- A run keeps the elements contiguous exactly if each of its steps does: what is torn apart once
stays so. -/
theorem contiguous_runSets_iff (hf : names.card < 255) (h : Contiguous m.sdata)
    (hs : ∀ name ∈ m.sdata, name ∈ names) (ho : ∀ op ∈ ops, op.key.name ∈ names) :
    Contiguous (runSets hasHandle m ops).sdata ↔ AllKeep hasHandle m ops := by
  induction ops generalizing m with
  | nil => exact ⟨fun _ before op after heq => by simp at heq, fun _ => h⟩
  | cons op ops ih =>
    have hrm : m.sdata.length ≠ 255 := (length_lt_of_subset hf h.nodup hs).ne
    have hs' : ∀ name ∈ (op.run hasHandle m).sdata, name ∈ names := by
      intro name hnm
      have hon : name ∈ (runSets hasHandle m [op]).sdata := hnm
      rcases mem_sdata_runSets hon with hnm | ⟨op', hop', rfl⟩
      · exact hs name hnm
      · rw [mem_singleton.mp hop']
        exact ho op mem_cons_self
    have hr : ∀ op' ∈ ops, op'.key.name ∈ names := fun op' hop' =>
      ho op' (mem_cons_of_mem op hop')
    rw [allKeep_cons, ← contiguous_run_iff h hrm]
    constructor
    · intro he
      have hn := he.sublist (sublist_runSets hasHandle (op.run hasHandle m) ops)
      exact ⟨hn, (ih hn hs' hr).mp he⟩
    · rintro ⟨hn, hk⟩
      exact (ih hn hs' hr).mpr hk

/-- Values are in the array as long as there is room. -/
def LogMessage.Listed (m : LogMessage) : Prop :=
  ∀ name : ValueName, name.isSdata = true → m.values name ≠ none → name ∈ m.sdata

theorem mem_sdata_run {op : SetOp}
    (hr : m.sdata.length ≠ 255) (hl : m.Listed) (hh : hasHandle op.key.name = true) :
    op.key.name ∈ (op.run hasHandle m).sdata := by
  rcases run_cases hasHandle m op with ⟨hn, hs⟩ | ⟨-, -, before, after, -, -, hi⟩
  · rw [hs]
    exact hl _ op.key.isSdata_name fun hv => hn ⟨hh, hv, hr⟩
  · rw [hi]
    simp

theorem listed_run (op : SetOp)
    (hr : m.sdata.length ≠ 255) (hl : m.Listed) : (op.run hasHandle m).Listed := by
  intro name hs hv
  have hsb := (sublist_run hasHandle m op).subset
  by_cases hh : hasHandle op.key.name = true
  · by_cases hn : name = op.key.name
    · rw [hn]
      exact mem_sdata_run hr hl hh
    · have hsm : (op.run hasHandle m).values name = m.values name := by
        rw [SetOp.run, if_pos hh]
        cases op.fits with
        | true => exact Function.update_of_ne hn _ _
        | false => rfl
      exact hsb (hl name hs (hsm ▸ hv))
  · rw [SetOp.run, if_neg hh] at hv
    exact hsb (hl name hs hv)

/-- In a run that keeps the elements contiguous nothing is dropped. -/
theorem mem_sdata_of_contiguous (hf : names.card < 255)
    (he : Contiguous (runSets hasHandle m ops).sdata) (hl : m.Listed)
    (hs : ∀ name ∈ (runSets hasHandle m ops).sdata, name ∈ names) {op : SetOp} (hop : op ∈ ops)
    (hh : hasHandle op.key.name = true) : op.key.name ∈ (runSets hasHandle m ops).sdata := by
  induction ops generalizing m with
  | nil => cases hop
  | cons first ops ih =>
    have hk := sublist_runSets hasHandle m (first :: ops)
    have hr : m.sdata.length ≠ 255 := (length_lt_of_subset hf (he.sublist hk).nodup
      fun name hn => hs name (hk.subset hn)).ne
    rcases mem_cons.mp hop with rfl | hop
    · exact (sublist_runSets hasHandle _ ops).subset (mem_sdata_run hr hl hh)
    · exact ih he (listed_run first hr hl) hs hop

/-! ### The text -/

/-- Each SD-ID of the array is opened once and each of its parameters is written once. -/
structure LogMessage.FormatsOnce (m : LogMessage) (n : UInt32) : Prop where
  text : m.formatSdata (sequenceText n) =
    sdText ((m.sdBlocks (sequenceText n)).map escapedElement)
  opens : ∀ name ∈ m.sdata,
    ((m.sdBlocks (sequenceText n)).map Prod.fst).count name.sdId = 1
  emits : ∀ name ∈ m.sdata, (splitSdName name.sdName).2 ≠ [] →
    (written (m.sdBlocks (sequenceText n))).count (splitSdName name.sdName) = 1

/-- If a sequence number is to be added, there is no `meta.sequenceId` yet, and `meta` is not
without parameters. -/
def LogMessage.SeqNumFits (m : LogMessage) (n : UInt32) : Prop :=
  n ≠ 0 → m.storesSeqNum = false →
    (∀ name ∈ m.sdata, splitSdName name.sdName ≠ (metaId, sequenceIdName)) ∧
    ((∃ name ∈ m.sdata, name.sdId = metaId) →
      ∃ name ∈ m.sdata, name.sdId = metaId ∧ (splitSdName name.sdName).2 ≠ [])

section Format

variable {m : LogMessage}

theorem ids_sdBlocks_nil (m : LogMessage) :
    (m.sdBlocks []).map Prod.fst = openings ValueName.sdId none m.sdata := by
  rw [sdBlocks, ite_self, ids_blocksFrom_nil, sdEntries, openings_map]
  rfl

theorem written_sdBlocks_nil (m : LogMessage) : written (m.sdBlocks []) =
    (m.sdata.map fun name => splitSdName name.sdName).filter fun parts => parts.2 ≠ [] := by
  have hw := written_blocksFrom_nil none m.sdEntries
  have hf := blocksFrom_none [] m.sdEntries
  rw [hf, map_nil, nil_append] at hw
  rw [sdBlocks, ite_self, hw, sdEntries]
  induction m.sdata with
  | nil => rfl
  | cons name names ih =>
    rw [map_cons, flatMap_cons, ih, map_cons]
    by_cases hp : (splitSdName name.sdName).2 = []
    · simp [ownParam, hp]
    · simp [ownParam, hp, SyslogFormat.sdId]

theorem count_ids_nil (h : Contiguous m.sdata) (hnm : name ∈ m.sdata) :
    ((m.sdBlocks []).map Prod.fst).count name.sdId = 1 := by
  obtain ⟨hn, hm⟩ := h.grouped.openings
  rw [ids_sdBlocks_nil]
  exact count_eq_one_of_mem hn ((hm _).mpr (List.mem_map_of_mem hnm))

variable (hkeys : ∀ name ∈ m.sdata, ∃ key : SdKey, key.name = name)

include hkeys

/-- Names of values are told apart by the id and the parameter. -/
theorem splitSdName_injOn : ∀ name ∈ m.sdata, ∀ name' ∈ m.sdata,
    splitSdName name.sdName = splitSdName name'.sdName → name = name' := by
  intro name hn name' hn' heq
  obtain ⟨key, rfl⟩ := hkeys name hn
  obtain ⟨key', rfl⟩ := hkeys name' hn'
  rw [key.sdName_name, key'.sdName_name, key.splitSdName_tail, key'.splitSdName_tail,
    Prod.mk.injEq] at heq
  obtain ⟨hid, hp⟩ := heq
  have hs : key.param = key'.param := by
    cases hk : key.param with
    | none =>
      cases hk' : key'.param with
      | none => rfl
      | some param =>
        rw [hk, hk'] at hp
        exact absurd hp.symm (key'.param_ne_nil param hk')
    | some param =>
      cases hk' : key'.param with
      | none =>
        rw [hk, hk'] at hp
        exact absurd hp (key.param_ne_nil param hk)
      | some param' =>
        rw [hk, hk'] at hp
        exact congrArg some hp
  rw [SdKey.name, SdKey.name, SdKey.tail, SdKey.tail, hid, hs]

theorem nodup_written_sdBlocks_nil (h : m.sdata.Nodup) : (written (m.sdBlocks [])).Nodup := by
  rw [written_sdBlocks_nil]
  refine List.Nodup.filter _ (List.Nodup.map_on ?_ h)
  exact splitSdName_injOn hkeys

/-- An entry in `meta.` is a parameter of `meta`. -/
theorem inMeta_entry_iff {entry : SdEntry} (he : entry ∈ m.sdEntries) :
    inMeta entry = true ↔ sdId entry.1 = metaId ∧ (splitSdName entry.1).2 ≠ [] := by
  obtain ⟨name, hn, rfl⟩ := List.mem_map.mp he
  obtain ⟨key, rfl⟩ := hkeys name hn
  rw [key.sdName_name, key.inMeta_tail, sdId, key.splitSdName_tail]
  cases hp : key.param with
  | none => simp
  | some param => simp [key.param_ne_nil param hp]

section

variable (h : Contiguous m.sdata)
include h

theorem count_written_nil (hn : name ∈ m.sdata) (hp : (splitSdName name.sdName).2 ≠ []) :
    (written (m.sdBlocks [])).count (splitSdName name.sdName) = 1 := by
  refine count_eq_one_of_mem (nodup_written_sdBlocks_nil hkeys h.nodup) ?_
  rw [written_sdBlocks_nil, mem_filter]
  exact ⟨List.mem_map_of_mem hn, by simpa using hp⟩

/-- The number is written in `meta`, which has parameters. -/
theorem formatsOnce_iff_inserted {n : UInt32}
    (hi : InsertedIn metaId (sequenceIdName, sequenceText n) (m.sdBlocks [])
      (m.sdBlocks (sequenceText n))) :
    m.FormatsOnce n ↔ ∀ name ∈ m.sdata, splitSdName name.sdName ≠ (metaId, sequenceIdName) := by
  have hc (parts : Bytes × Bytes) : (written (m.sdBlocks (sequenceText n))).count parts =
      ((metaId, sequenceIdName) :: written (m.sdBlocks [])).count parts :=
    hi.written.count_eq parts
  constructor
  · intro hf name hn heq
    have hp : (splitSdName name.sdName).2 ≠ [] := by
      rw [heq]
      decide
    have ho := hf.emits name hn hp
    rw [hc, heq, count_cons_self, ← heq, count_written_nil hkeys h hn hp] at ho
    cases ho
  · intro hnn
    refine ⟨formatSdata_eq m (sdataEscaped_sequenceText n), fun name hn => ?_, fun name hn hp => ?_⟩
    · rw [hi.ids]
      exact count_ids_nil h hn
    · rw [hc, count_cons_of_ne (hnn name hn).symm]
      exact count_written_nil hkeys h hn hp

/-- The number is written in an element of its own. -/
theorem formatsOnce_iff_appended {n : UInt32} (ha : m.sdBlocks (sequenceText n) =
      m.sdBlocks [] ++ [(metaId, [(sequenceIdName, sequenceText n)])]) :
    m.FormatsOnce n ↔ ∀ name ∈ m.sdata, name.sdId ≠ metaId := by
  have hi : (m.sdBlocks (sequenceText n)).map Prod.fst =
      (m.sdBlocks []).map Prod.fst ++ [metaId] := by rw [ha, map_append]; rfl
  have hw : written (m.sdBlocks (sequenceText n)) =
      written (m.sdBlocks []) ++ [(metaId, sequenceIdName)] := by
    rw [ha, written, flatMap_append]
    rfl
  constructor
  · intro hf name hn heq
    have ho := hf.opens name hn
    rw [hi, count_append, count_ids_nil h hn, heq] at ho
    cases ho
  · intro hnn
    refine ⟨formatSdata_eq m (sdataEscaped_sequenceText n), fun name hn => ?_, fun name hn hp => ?_⟩
    · rw [hi, count_append, count_ids_nil h hn,
        count_eq_zero_of_not_mem (by simpa using hnn name hn)]
    · have hne : splitSdName name.sdName ≠ (metaId, sequenceIdName) := fun heq =>
        hnn name hn (congrArg Prod.fst heq)
      rw [hw, count_append, count_written_nil hkeys h hn hp,
        count_eq_zero_of_not_mem (by simpa using hne)]

theorem formatsOnce_iff (n : UInt32) : m.FormatsOnce n ↔ m.SeqNumFits n := by
  by_cases hnu : n ≠ 0 ∧ m.storesSeqNum = false
  · obtain ⟨hn, hs⟩ := hnu
    have hsq : sequenceText n ≠ [] := mt sequenceText_eq_nil_iff.mp hn
    have hb (seqNum : Bytes) :
        m.sdBlocks seqNum = (blocksFrom seqNum none m.sdEntries).2 := by
      rw [sdBlocks, hs, if_neg Bool.false_ne_true]
    cases hf : m.sdEntries.find? inMeta with
    | some first =>
      have hfr := (inMeta_entry_iff hkeys (List.mem_of_find?_eq_some hf)).mp (List.find?_some hf)
      have hi : InsertedIn metaId (sequenceIdName, sequenceText n) (m.sdBlocks [])
          (m.sdBlocks (sequenceText n)) := by
        rcases blocksFrom_inMeta hsq none hf with ⟨hc, -⟩ | ⟨-, hi⟩
        · cases hc
        · rwa [hfr.1, ← hb, ← hb] at hi
      obtain ⟨name, hnm, rfl⟩ := List.mem_map.mp (List.mem_of_find?_eq_some hf)
      rw [formatsOnce_iff_inserted hkeys h hi]
      exact ⟨fun hnn _ _ => ⟨hnn, fun _ => ⟨name, hnm, hfr⟩⟩, fun hft =>
        (hft hn hs).1⟩
    | none =>
      have ha : m.sdBlocks (sequenceText n) =
          m.sdBlocks [] ++ [(metaId, [(sequenceIdName, sequenceText n)])] := by
        rw [hb, hb, blocksFrom_not_inMeta hsq none hf]
      rw [formatsOnce_iff_appended hkeys h ha]
      constructor
      · intro hnn _ _
        refine ⟨fun name hnm heq => hnn name hnm (congrArg Prod.fst heq), ?_⟩
        rintro ⟨name, hnm, heq⟩
        exact absurd heq (hnn name hnm)
      · intro hft name hnm heq
        obtain ⟨name', hnm', hm⟩ := (hft hn hs).2 ⟨name, hnm, heq⟩
        have he : (name'.sdName, m.getValue name') ∈ m.sdEntries :=
          List.mem_map.mpr ⟨name', hnm', rfl⟩
        exact List.find?_eq_none.mp hf _ he ((inMeta_entry_iff hkeys he).mpr hm)
  · have hb : m.sdBlocks (sequenceText n) = m.sdBlocks [] := by
      rw [sdBlocks, sdBlocks]
      split_ifs with hs
      · rfl
      · have hz : n = 0 := by
          by_contra hn
          exact hnu ⟨hn, by simpa using hs⟩
        rw [sequenceText_eq_nil_iff.mpr hz]
    refine ⟨fun _ hn hs => absurd ⟨hn, hs⟩ hnu, fun _ =>
      ⟨formatSdata_eq m (sdataEscaped_sequenceText n), ?_, ?_⟩⟩
    · intro name hnm
      rw [hb]
      exact count_ids_nil h hnm
    · intro name hnm hp
      rw [hb]
      exact count_written_nil hkeys h hnm hp

end

end Format

structure LogMessage.Unstructured (m : LogMessage) : Prop where
  sdata : m.sdata = []
  values : ∀ name : ValueName, name.isSdata = true → m.values name = none

/-- After any calls that set less than 255 names of elements and parameters, the elements of a
message that had none are contiguous, all names that were set are among them, each element is opened
once and each parameter is written once, exactly if all the calls put their names to a place that is
right for them and a sequence number that is to be added finds a place, too. -/
theorem sdata_contiguous_iff (hasHandle : ValueName → Bool) {m : LogMessage} (hm : m.Unstructured)
    (ops : List SetOp) (hfew : (ops.map fun op => op.key.name).toFinset.card < 255) (n : UInt32) :
    (Contiguous (runSets hasHandle m ops).sdata ∧ (∀ op ∈ ops, hasHandle op.key.name = true →
        op.key.name ∈ (runSets hasHandle m ops).sdata) ∧ (runSets hasHandle m ops).FormatsOnce n) ↔
    AllKeep hasHandle m ops ∧ (runSets hasHandle m ops).SeqNumFits n := by
  have hs : Contiguous m.sdata := by
    rw [hm.sdata]
    exact ⟨grouped_nil, nodup_nil⟩
  have hst : ∀ name ∈ (runSets hasHandle m ops).sdata, ∃ op ∈ ops, op.key.name = name := by
    intro name hn
    rcases mem_sdata_runSets hn with hn | hop
    · rw [hm.sdata] at hn
      cases hn
    · exact hop
  have hkeys : ∀ name ∈ (runSets hasHandle m ops).sdata, ∃ key : SdKey, key.name = name := by
    intro name hn
    obtain ⟨op, -, rfl⟩ := hst name hn
    exact ⟨op.key, rfl⟩
  have hnm : ∀ op ∈ ops, op.key.name ∈ (ops.map fun op => op.key.name).toFinset := fun op hop =>
    List.mem_toFinset.mpr (List.mem_map.mpr ⟨op, hop, rfl⟩)
  have hr : Contiguous (runSets hasHandle m ops).sdata ↔ AllKeep hasHandle m ops := by
    refine contiguous_runSets_iff hfew hs ?_ hnm
    rw [hm.sdata]
    simp
  have hl : m.Listed := fun name hsd hv => absurd (hm.values name hsd) hv
  constructor
  · rintro ⟨he, -, hf⟩
    exact ⟨hr.mp he, (formatsOnce_iff hkeys he n).mp hf⟩
  · rintro ⟨hk, hft⟩
    have he := hr.mpr hk
    refine ⟨he, fun op hop hh => ?_, (formatsOnce_iff hkeys he n).mpr hft⟩
    refine mem_sdata_of_contiguous hfew he hl (fun name hn => ?_) hop hh
    obtain ⟨op', hop', rfl⟩ := hst name hn
    exact hnm op' hop'

def abKey (param : UInt8) (h : param ≠ 0x2e) : SdKey where
  id := [0x61, 0x62]
  param := some [param]
  id_ne_nil := by decide
  id_noDot := by decide
  param_ne_nil := by simp
  param_noDot := by simpa using h.symm

def azKey : SdKey where
  id := [0x61]
  param := some [0x7a]
  id_ne_nil := by decide
  id_noDot := by decide
  param_ne_nil := by simp
  param_noDot := by simp

/-- Two parameters of `ab` and then one of `a`, which gets in between: the name of the last
parameter of `ab` begins with `.SDATA.a`, too. -/
def tornOps : List SetOp :=
  [⟨abKey 0x78 (by decide), [0x31], true⟩, ⟨abKey 0x79 (by decide), [0x32], true⟩,
    ⟨azKey, [0x33], true⟩]

theorem not_contiguous_tornOps : ¬ Contiguous (runSets (fun _ => true) {} tornOps).sdata := by
  intro h
  have hs := h.grouped _ _ _ (List.Sublist.refl _) rfl
  exact absurd hs (by decide)

theorem unstructured_empty : ({} : LogMessage).Unstructured := ⟨rfl, fun _ _ => rfl⟩

theorem sdata_contiguous_iff_torn : ¬ AllKeep (fun _ => true) {} tornOps := by
  intro hk
  have hf : (tornOps.map fun op => op.key.name).toFinset.card < 255 :=
    (toFinset_card_le _).trans_lt (by decide)
  have hi := sdata_contiguous_iff (fun _ => true) unstructured_empty tornOps hf 0
  exact not_contiguous_tornOps (hi.mpr ⟨hk, fun hn => absurd rfl hn⟩).1

/-- `[ab y="2"][a z="3"][ab x="1"]` -/
theorem sdata_torn : ¬ Contiguous (runSets (fun _ => true) {} tornOps).sdata ∧
    (runSets (fun _ => true) {} tornOps).formatSdata [] =
      sdText [([0x61, 0x62], [([0x79], [0x32])]), ([0x61], [([0x7a], [0x33])]),
        ([0x61, 0x62], [([0x78], [0x31])])] :=
  ⟨not_contiguous_tornOps, by decide +kernel⟩

end SyslogNg.SyslogFormat
