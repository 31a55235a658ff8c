import SyslogNg.SyslogFormat.SdataBlocks

/-!
# The SDATA array

`log_msg_update_sdata_slow` puts a new value with an SDATA name into the array, before the last
entry that it takes for one of the same element. Whether two entries belong to the same element is
decided by the text of the names, so that entries of other elements are taken for it, too.
-/
namespace SyslogNg.SyslogFormat

open List

/-! ### Insertion -/

/-- The text of a name in the registry -/
def ValueName.text : ValueName → Bytes
  | host => [0x48, 0x4f, 0x53, 0x54]
  | message => [0x4d, 0x45, 0x53, 0x53, 0x41, 0x47, 0x45]
  | program => [0x50, 0x52, 0x4f, 0x47, 0x52, 0x41, 0x4d]
  | pid => [0x50, 0x49, 0x44]
  | msgid => [0x4d, 0x53, 0x47, 0x49, 0x44]
  | legacyMsghdr => [0x4c, 0x45, 0x47, 0x41, 0x43, 0x59, 0x5f, 0x4d, 0x53, 0x47, 0x48, 0x44, 0x52]
  | named name => name

/-- The first `prefix_and_block_len` bytes of a name: what stands before its last dot -/
def blockText (name : Bytes) : Bytes := ((name.reverse.dropWhile (· != 0x2e)).drop 1).reverse

def sameBlock (name entry : Bytes) : Bool :=
  decide ((blockText name).length < entry.length) && (blockText name).isPrefixOf entry

/-- The loop of `log_msg_update_sdata_slow`, from the entry before `i` down -/
def blockIndex (sdata : List ValueName) (name : Bytes) : ℕ → Option ℕ
  | 0 => none
  | i + 1 =>
    if sameBlock name ((sdata.map ValueName.text).getD i []) then some i
    else blockIndex sdata name i

def updateSdataSlow (initialParse : Bool) (sdata : List ValueName) (name : ValueName) :
    List ValueName :=
  if sdata.length = 255 then sdata
  else
    match if initialParse then none else blockIndex sdata name.text sdata.length with
    | some i => sdata.take i ++ name :: sdata.drop i
    | none => sdata ++ [name]

/-- `log_msg_set_value`. `fits` says whether the value could be stored, in the end, in the
payload. -/
def LogMessage.store (initialParse : Bool) (m : LogMessage) (name : ValueName) (value : Bytes)
    (fits : Bool) : LogMessage :=
  { m with
    values := if fits then Function.update m.values name (some value) else m.values
    sdata :=
      if (m.values name).isNone && name.isSdata then updateSdataSlow initialParse m.sdata name
      else m.sdata
    legacyMsghdr := m.legacyMsghdr && name != .program && name != .pid }

/-- Where a name is inserted: before the last entry that passes the test, or at the end if there is
none. -/
structure InsertsBetween (name : Bytes) (before after : List ValueName) : Prop where
  last : ∀ entry ∈ after.tail, sameBlock name entry.text = false
  found : ∀ entry, after.head? = some entry → sameBlock name entry.text = true
  missing : after = [] → ∀ entry ∈ before, sameBlock name entry.text = false

theorem blockIndex_cases (sdata : List ValueName) (name : Bytes) {n : ℕ} (hn : n ≤ sdata.length) :
    (blockIndex sdata name n = none ∧ ∀ entry ∈ sdata.take n, sameBlock name entry.text = false) ∨
    ∃ i, ∃ hi : i < sdata.length, blockIndex sdata name n = some i ∧ i < n ∧
      sameBlock name sdata[i].text = true ∧
      ∀ entry ∈ (sdata.take n).drop (i + 1), sameBlock name entry.text = false := by
  induction n with
  | zero => exact .inl ⟨rfl, by simp⟩
  | succ n ih =>
    have hg : (sdata.map ValueName.text).getD n [] = sdata[n].text := by
      simp [List.getElem?_eq_getElem hn]
    have ht := take_succ_eq_append_getElem hn
    rw [blockIndex, hg, ht]
    cases hs : sameBlock name sdata[n].text with
    | true =>
      refine .inr ⟨n, hn, if_pos rfl, Nat.lt_succ_self n, hs, ?_⟩
      intro entry he
      rw [drop_eq_nil_of_le (by simp)] at he
      cases he
    | false =>
      rcases ih (by omega) with ⟨hin, ha⟩ | ⟨i, hi, hin, hlt, hf, ha⟩
      · refine .inl ⟨hin, fun entry he => ?_⟩
        rcases mem_append.mp he with he | he
        · exact ha entry he
        · rw [mem_singleton.mp he, hs]
      · refine .inr ⟨i, hi, hin, by omega, hf, fun entry he => ?_⟩
        rw [drop_append_of_le_length (by simp; omega)] at he
        rcases mem_append.mp he with he | he
        · exact ha entry he
        · rw [mem_singleton.mp he, hs]

/-- What `log_msg_update_sdata_slow` does after the initial parse, if there is room -/
theorem updateSdataSlow_spec {sdata : List ValueName} (hr : sdata.length ≠ 255)
    (name : ValueName) : ∃ before after, sdata = before ++ after ∧
      InsertsBetween name.text before after ∧
      updateSdataSlow false sdata name = before ++ name :: after := by
  rw [updateSdataSlow, if_neg hr, if_neg Bool.false_ne_true]
  rcases blockIndex_cases sdata name.text le_rfl with ⟨hin, ha⟩ | ⟨i, hi, hin, -, hf, ha⟩
  · rw [take_length] at ha
    refine ⟨sdata, [], (append_nil sdata).symm, ⟨by simp, by simp, fun _ => ha⟩, ?_⟩
    rw [hin]
  · rw [take_length] at ha
    have hd := drop_eq_getElem_cons hi
    refine ⟨sdata.take i, sdata.drop i, (take_append_drop i sdata).symm, ⟨?_, ?_, ?_⟩, ?_⟩
    · rw [hd]
      exact ha
    · intro entry he
      rw [hd, List.head?_cons, Option.some.injEq] at he
      rw [← he, hf]
    · intro hn
      rw [hd] at hn
      cases hn
    · rw [hin]

/-- No place behind an insertion point is one, too. -/
theorem InsertsBetween.eq_nil {name : Bytes} {before between after : List ValueName}
    (h : InsertsBetween name before (between ++ after))
    (h' : InsertsBetween name (before ++ between) after) : between = [] := by
  cases between with
  | nil => rfl
  | cons first between =>
    have hf := h.found first rfl
    cases after with
    | nil =>
      rw [h'.missing rfl first (by simp)] at hf
      cases hf
    | cons entry after =>
      have he := h'.found entry rfl
      rw [h.last entry (by simp)] at he
      cases he

theorem InsertsBetween.unique {name : Bytes} {before after before' after' : List ValueName}
    (h : InsertsBetween name before after) (h' : InsertsBetween name before' after')
    (heq : before ++ after = before' ++ after') : before = before' ∧ after = after' := by
  rcases append_eq_append_iff.mp heq with ⟨between, rfl, rfl⟩ | ⟨between, rfl, rfl⟩
  · rw [h.eq_nil h']
    simp
  · rw [h'.eq_nil h]
    simp

end SyslogNg.SyslogFormat
