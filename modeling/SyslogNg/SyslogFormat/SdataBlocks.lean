import SyslogNg.Foundations.Grouped
import SyslogNg.SyslogFormat.SdataText

/-!
# The elements that are written for the structured data of a message

`log_msg_append_format_sdata` goes through the SDATA array and opens an element whenever the id
changes. The elements that it opens, with the parameters that it writes in each, are collected here
as data; the text that it writes is the text of these elements.
-/
namespace SyslogNg.SyslogFormat

open List SdataFormat

/-- A value of the SDATA array: the name without the SDATA prefix, and the value -/
abbrev SdEntry := Bytes × Bytes

def sdId (name : Bytes) : Bytes := (splitSdName name).1

def metaId : Bytes := [0x6d, 0x65, 0x74, 0x61]

def sequenceIdName : Bytes := [0x73, 0x65, 0x71, 0x75, 0x65, 0x6e, 0x63, 0x65, 0x49, 0x64]

def inMeta (entry : SdEntry) : Bool := metaPrefix.isPrefixOf entry.1

def LogMessage.sdEntries (m : LogMessage) : List SdEntry :=
  m.sdata.map fun name => (name.sdName, m.getValue name)

def LogMessage.storesSeqNum (m : LogMessage) : Bool :=
  (m.getValue sequenceId).takeWhile (· != 0) != []

def ownParam (entry : SdEntry) : List (Bytes × Bytes) :=
  let param := (splitSdName entry.1).2
  if param = [] then [] else [(param, entry.2)]

/-- The parameters that are added to the element `cur`, and the elements that are opened then. The
digits of the sequence number are empty if there is none to be written. -/
def blocksFrom : Bytes → Option Bytes → List SdEntry → List (Bytes × Bytes) × List RawElement
  | seqNum, _, [] => ([], if seqNum = [] then [] else [(metaId, [(sequenceIdName, seqNum)])])
  | seqNum, cur, entry :: rest =>
    let here := if inMeta entry then seqNum else []
    let params := (if here = [] then [] else [(sequenceIdName, here)]) ++ ownParam entry
    let more := blocksFrom (if inMeta entry then [] else seqNum) (some (sdId entry.1)) rest
    if cur = some (sdId entry.1) then (params ++ more.1, more.2)
    else ([], (sdId entry.1, params ++ more.1) :: more.2)

/-- The elements that `log_msg_append_format_sdata` writes -/
def LogMessage.sdBlocks (m : LogMessage) (seqNum : Bytes) : List RawElement :=
  (blocksFrom (if m.storesSeqNum then [] else seqNum) none m.sdEntries).2

def escapedParam (param : Bytes × Bytes) : Bytes × Bytes := (sdataKeyEscaped param.1, param.2)

def escapedElement (element : RawElement) : RawElement :=
  (sdataKeyEscaped element.1, element.2.map escapedParam)

/-- `%d` of a `guint32` that is not 0 -/
def sequenceText (n : UInt32) : Bytes :=
  if n = 0 then []
  else if n.toNat < 2 ^ 31 then decimalText n.toNat
  else 0x2d :: decimalText (2 ^ 32 - n.toNat)

/-! ### The text -/

theorem sdataEscaped_eq_self {text : Bytes} (h : ∀ b ∈ text, ¬ (b = 0x22 ∨ b = 0x5c ∨ b = 0x5d)) :
    sdataEscaped text = text := by
  induction text with
  | nil => rfl
  | cons b text ih =>
    rw [forall_mem_cons] at h
    have hr := ih h.2
    rw [sdataEscaped] at hr
    rw [sdataEscaped, flatMap_cons, if_neg h.1, hr]
    rfl

theorem sdataEscaped_decimal (n : ℕ) : sdataEscaped (decimalText n) = decimalText n := by
  apply sdataEscaped_eq_self
  intro b hb hs
  have hd := isDigit_of_mem_decimalText hb
  rcases hs with rfl | rfl | rfl <;> exact absurd hd (by decide)

theorem sdataEscaped_sequenceText (n : UInt32) :
    sdataEscaped (sequenceText n) = sequenceText n := by
  rw [sequenceText]
  split_ifs
  · rfl
  · exact sdataEscaped_decimal _
  · have hc : sdataEscaped (0x2d :: decimalText (2 ^ 32 - n.toNat)) =
        0x2d :: sdataEscaped (decimalText (2 ^ 32 - n.toNat)) := rfl
    rw [hc, sdataEscaped_decimal]

theorem sequenceText_eq_nil_iff {n : UInt32} : sequenceText n = [] ↔ n = 0 := by
  rw [sequenceText]
  split_ifs with hz hl
  · simp [hz]
  · simp [hz, decimalText_ne_nil]
  · simp [hz]

/-- What is left to write once the loop has ended -/
def SdataFormat.finish (f : SdataFormat) (seqNum : Bytes) : Bytes :=
  f.result ++ (if f.curElem.isSome then [0x5d] else []) ++
    if !f.hasSeqNum && seqNum != [] then
      0x5b :: (metaPrefix.take 4 ++ 0x20 :: (sequenceIdParam seqNum ++ [0x5d]))
    else []

theorem sdataKeyEscaped_metaId : sdataKeyEscaped metaId = metaId := by decide

theorem sdataKeyEscaped_sequenceIdName : sdataKeyEscaped sequenceIdName = sequenceIdName :=
  by decide

variable {seqNum : Bytes}

/-- The sequence number is written like any other parameter. -/
theorem sequenceIdParam_eq (h : sdataEscaped seqNum = seqNum) :
    0x20 :: sequenceIdParam seqNum = sdParamText (escapedParam (sequenceIdName, seqNum)) := by
  rw [escapedParam, sdataKeyEscaped_sequenceIdName, sdParamText, h]
  simp [sequenceIdParam, sequenceIdName]

def entryParams (seqNum : Bytes) (entry : SdEntry) : List (Bytes × Bytes) :=
  (if inMeta entry && seqNum != [] then [(sequenceIdName, seqNum)] else []) ++ ownParam entry

theorem blocksFrom_cons (seqNum : Bytes) (cur : Option Bytes) (entry : SdEntry)
    (rest : List SdEntry) :
    blocksFrom seqNum cur (entry :: rest) =
      let more := blocksFrom (if inMeta entry then [] else seqNum) (some (sdId entry.1)) rest
      if cur = some (sdId entry.1) then (entryParams seqNum entry ++ more.1, more.2)
      else ([], (sdId entry.1, entryParams seqNum entry ++ more.1) :: more.2) := by
  rw [blocksFrom, entryParams]
  cases inMeta entry <;> by_cases hs : seqNum = [] <;> simp

theorem append_eq (hsq : sdataEscaped seqNum = seqNum) (f : SdataFormat) (entry : SdEntry) :
    f.append seqNum entry.1 entry.2 =
      { result := f.result ++
          (if f.curElem = some (sdId entry.1) then []
            else (if f.curElem.isSome then [0x5d] else []) ++
            0x5b :: sdataKeyEscaped (sdId entry.1)) ++
          ((entryParams (if f.hasSeqNum then [] else seqNum) entry).map escapedParam).flatMap
            sdParamText
        curElem := some (sdId entry.1)
        hasSeqNum := f.hasSeqNum || (seqNum != [] && inMeta entry) } := by
  have how : ((ownParam entry).map escapedParam).flatMap sdParamText =
      if (splitSdName entry.1).2 = [] then []
      else 0x20 :: (sdataKeyEscaped (splitSdName entry.1).2 ++
        0x3d :: 0x22 :: (sdataEscaped entry.2 ++ [0x22])) := by
    rw [ownParam]
    split_ifs with hp
    · rfl
    · simp [escapedParam, sdParamText]
  have hn : ((entryParams (if f.hasSeqNum then [] else seqNum) entry).map
      escapedParam).flatMap sdParamText =
      (if !f.hasSeqNum && seqNum != [] && inMeta entry then 0x20 :: sequenceIdParam seqNum
        else []) ++
        ((ownParam entry).map escapedParam).flatMap sdParamText := by
    rw [entryParams, map_append, sequenceIdParam_eq hsq]
    cases f.hasSeqNum <;> cases inMeta entry <;> by_cases he : seqNum = [] <;> simp [he]
  have hh : (f.hasSeqNum || (!f.hasSeqNum && seqNum != [] && inMeta entry)) =
      (f.hasSeqNum || (seqNum != [] && inMeta entry)) := by
    cases f.hasSeqNum <;> rfl
  rw [hn, how, ← hh]
  by_cases hc : f.curElem = some (sdId entry.1)
  · have hs : f.curElem = some (splitSdName entry.1).1 := hc
    rw [if_pos hc, append]
    simp only [if_pos hs, append_assoc]
    rfl
  · have ho : f.curElem ≠ some (splitSdName entry.1).1 := hc
    rw [if_neg hc, append]
    simp only [if_neg ho, append_assoc]
    rfl

theorem finish_foldl (hs : sdataEscaped seqNum = seqNum) (entries : List SdEntry)
    (f : SdataFormat) :
    (entries.foldl (fun f entry => f.append seqNum entry.1 entry.2) f).finish seqNum =
      f.result ++
        (((blocksFrom (if f.hasSeqNum then [] else seqNum) f.curElem entries).1.map
          escapedParam).flatMap sdParamText ++
        ((if f.curElem.isSome then [0x5d] else []) ++
        sdText ((blocksFrom (if f.hasSeqNum then [] else seqNum) f.curElem entries).2.map
          escapedElement))) := by
  induction entries generalizing f with
  | nil =>
    have hl : sdText [escapedElement (metaId, [(sequenceIdName, seqNum)])] =
        0x5b :: (metaPrefix.take 4 ++ 0x20 :: (sequenceIdParam seqNum ++ [0x5d])) := by
      have hp := sequenceIdParam_eq hs
      simp only [sdText, escapedElement, sdElementText, flatMap_cons,
        flatMap_nil, map_cons, map_nil, append_nil, ← hp]
      rfl
    rw [foldl_nil, finish, blocksFrom]
    cases f.hasSeqNum <;> by_cases he : seqNum = [] <;> simp [he, sdText]
    simpa [sdText] using hl.symm
  | cons entry rest ih =>
    have hn : (if f.hasSeqNum || (seqNum != [] && inMeta entry) then [] else seqNum) =
        if inMeta entry then [] else if f.hasSeqNum then [] else seqNum := by
      cases f.hasSeqNum <;> cases inMeta entry <;> by_cases he : seqNum = [] <;> simp
    rw [foldl_cons, ih, append_eq hs]
    rw [hn, blocksFrom_cons]
    generalize (if f.hasSeqNum then [] else seqNum) = left
    by_cases hc : f.curElem = some (sdId entry.1)
    · rw [hc]
      simp
    · rw [if_neg hc, if_neg hc]
      simp [sdText, escapedElement, sdElementText]

theorem blocksFrom_none (seqNum : Bytes) (entries : List SdEntry) :
    (blocksFrom seqNum none entries).1 = [] := by
  cases entries with
  | nil => rfl
  | cons entry rest => rw [blocksFrom_cons, if_neg (by simp)]

theorem formatSdata_eq (m : LogMessage) (hs : sdataEscaped seqNum = seqNum) :
    m.formatSdata seqNum = sdText ((m.sdBlocks seqNum).map escapedElement) := by
  have hf := finish_foldl hs m.sdEntries { hasSeqNum := m.storesSeqNum }
  rw [LogMessage.sdEntries, foldl_map] at hf
  have hfr : m.formatSdata seqNum = finish (m.sdata.foldl
      (fun f name => f.append seqNum name.sdName (m.getValue name))
      { hasSeqNum := m.storesSeqNum }) seqNum := rfl
  rw [hfr, hf, blocksFrom_none]
  rfl

/-! ### The elements -/

/-- The ids and the names of all parameters in elements -/
def written (elements : List RawElement) : List (Bytes × Bytes) :=
  elements.flatMap fun element => element.2.map fun param => (element.1, param.1)

theorem entryParams_nil (entry : SdEntry) : entryParams [] entry = ownParam entry := by
  rw [entryParams, bne_self_eq_false, Bool.and_false, if_neg Bool.false_ne_true, nil_append]

theorem entryParams_inMeta (hs : seqNum ≠ []) {entry : SdEntry} (hm : inMeta entry = true) :
    entryParams seqNum entry = (sequenceIdName, seqNum) :: ownParam entry := by
  simp [entryParams, hm, hs]

theorem entryParams_not_inMeta (seqNum : Bytes) {entry : SdEntry} (hm : inMeta entry = false) :
    entryParams seqNum entry = ownParam entry := by
  simp [entryParams, hm]

theorem ids_blocksFrom_nil (cur : Option Bytes) (entries : List SdEntry) :
    (blocksFrom [] cur entries).2.map Prod.fst =
      openings (fun entry : SdEntry => sdId entry.1) cur entries := by
  induction entries generalizing cur with
  | nil => rfl
  | cons entry rest ih =>
    rw [blocksFrom_cons, ite_self, openings]
    split_ifs with hc
    · rw [ih, hc]
    · rw [map_cons, ih]

/-- The parameters that are written are those of the entries, in their order. -/
theorem written_blocksFrom_nil (cur : Option Bytes) (entries : List SdEntry) :
    ((blocksFrom [] cur entries).1.map fun param => (cur.getD [], param.1)) ++
        written (blocksFrom [] cur entries).2 =
      entries.flatMap fun entry => (ownParam entry).map fun param => (sdId entry.1, param.1) := by
  induction entries generalizing cur with
  | nil => rfl
  | cons entry rest ih =>
    have hr := ih (some (sdId entry.1))
    rw [blocksFrom_cons, ite_self, entryParams_nil, flatMap_cons, ← hr]
    split_ifs with hc
    · rw [hc, Option.getD_some, map_append, append_assoc]
    · rw [map_nil, written, flatMap_cons, map_append,
        append_assoc]
      rfl

/-- A parameter more in one of the elements -/
def InsertedIn (id : Bytes) (param : Bytes × Bytes) (elements elements' : List RawElement) : Prop :=
  ∃ pre post before after, elements = pre ++ (id, before ++ after) :: post ∧
    elements' = pre ++ (id, before ++ param :: after) :: post

/-- The number goes to the element of the first entry in `meta.`, which is the one that is open or
one that is opened later. -/
theorem blocksFrom_inMeta (hsq : seqNum ≠ []) (cur : Option Bytes)
    {entries : List SdEntry} {first : SdEntry} (hf : entries.find? inMeta = some first) :
    (cur = some (sdId first.1) ∧ (∃ before after,
        (blocksFrom [] cur entries).1 = before ++ after ∧
        (blocksFrom seqNum cur entries).1 = before ++ (sequenceIdName, seqNum) :: after) ∧
      (blocksFrom seqNum cur entries).2 = (blocksFrom [] cur entries).2) ∨
    ((blocksFrom seqNum cur entries).1 = (blocksFrom [] cur entries).1 ∧
      InsertedIn (sdId first.1) (sequenceIdName, seqNum) (blocksFrom [] cur entries).2
        (blocksFrom seqNum cur entries).2) := by
  induction entries generalizing cur with
  | nil => simp at hf
  | cons entry rest ih =>
    rw [blocksFrom_cons, blocksFrom_cons, ite_self, entryParams_nil]
    cases hm : inMeta entry with
    | true =>
      rw [List.find?_cons_of_pos hm, Option.some.injEq] at hf
      subst hf
      rw [entryParams_inMeta hsq hm]
      by_cases hc : cur = some (sdId entry.1)
      · rw [if_pos hc, if_pos hc]
        exact .inl ⟨hc, ⟨[], _, rfl, rfl⟩, rfl⟩
      · rw [if_neg hc, if_neg hc]
        exact .inr ⟨rfl, [], _, [], _, rfl, rfl⟩
    | false =>
      rw [List.find?_cons_of_neg (by simp [hm])] at hf
      rw [entryParams_not_inMeta seqNum hm, if_neg Bool.false_ne_true]
      dsimp only
      rcases ih (some (sdId entry.1)) hf with
        ⟨ho, ⟨before, after, hn, hs⟩, hl⟩ |
        ⟨ho, pre, post, before, after, hn, hs⟩
      · rw [hl, hn, hs]
        split_ifs with hc
        · exact .inl ⟨hc.trans ho, ⟨ownParam entry ++ before, after, by simp, by simp⟩, rfl⟩
        · refine .inr ⟨rfl, [], (blocksFrom [] (some (sdId entry.1)) rest).2,
            ownParam entry ++ before, after, ?_, ?_⟩
          · rw [← Option.some.inj ho, append_assoc]
            rfl
          · rw [← Option.some.inj ho, append_assoc]
            rfl
      · rw [ho, hn, hs]
        split_ifs with hc
        · exact .inr ⟨rfl, pre, post, before, after, rfl, rfl⟩
        · exact .inr ⟨rfl, _ :: pre, post, before, after, rfl, rfl⟩

/-- Without an entry in `meta.` there is an element more at the end. -/
theorem blocksFrom_not_inMeta (hs : seqNum ≠ []) (cur : Option Bytes)
    {entries : List SdEntry} (hn : entries.find? inMeta = none) :
    blocksFrom seqNum cur entries = ((blocksFrom [] cur entries).1,
      (blocksFrom [] cur entries).2 ++ [(metaId, [(sequenceIdName, seqNum)])]) := by
  induction entries generalizing cur with
  | nil => simp [blocksFrom, hs]
  | cons entry rest ih =>
    have hm : inMeta entry = false := by
      simpa using List.find?_eq_none.mp hn entry mem_cons_self
    rw [List.find?_cons_of_neg (by simp [hm])] at hn
    rw [blocksFrom_cons, blocksFrom_cons, entryParams_nil,
      entryParams_not_inMeta seqNum hm, hm, if_neg Bool.false_ne_true, ih _ hn]
    split_ifs <;> rfl

theorem InsertedIn.ids {id : Bytes} {param : Bytes × Bytes} {elements elements' : List RawElement}
    (h : InsertedIn id param elements elements') :
    elements'.map Prod.fst = elements.map Prod.fst := by
  obtain ⟨pre, post, before, after, rfl, rfl⟩ := h
  simp

theorem InsertedIn.written {id : Bytes} {param : Bytes × Bytes}
    {elements elements' : List RawElement}
    (h : InsertedIn id param elements elements') :
    (written elements').Perm ((id, param.1) :: written elements) := by
  obtain ⟨pre, post, before, after, rfl, rfl⟩ := h
  simp only [SyslogFormat.written, flatMap_append, flatMap_cons, map_append,
    append_assoc]
  rw [← append_assoc, ← append_assoc (List.flatMap _ pre)]
  exact perm_middle

end SyslogNg.SyslogFormat
