import SyslogNg.SyslogFormat.SdataContiguity

/-!
# Sequence numbers in structured data

`log_msg_append_format_sdata` adds `sequenceId` to the element `meta` if the message has none: in
the loop at the first name that begins with `meta.`, and in an element of its own if there is no
such name. What it writes is read back by the grammar of structured data.
-/
namespace SyslogNg.SyslogFormat

open List Option LogMessage

/-! ### Reading structured data -/

def readQuoted : Bytes → Option (Bytes × Bytes)
  | [] => none
  | 0x5c :: [] => none
  | 0x5c :: b :: rest => (readQuoted rest).map fun read => (b :: read.1, read.2)
  | b :: rest =>
    if b = 0x22 then some ([], rest) else (readQuoted rest).map fun read => (b :: read.1, read.2)

def readAssigned : Bytes → Option (Bytes × Bytes)
  | 0x3d :: 0x22 :: rest => readQuoted rest
  | _ => none

def readParams : ℕ → Bytes → Option (List (Bytes × Bytes) × Bytes)
  | fuel + 1, 0x20 :: rest => do
    let value ← readAssigned (rest.dropWhile (· != 0x3d))
    let others ← readParams fuel value.2
    return ((rest.takeWhile (· != 0x3d), value.1) :: others.1, others.2)
  | _, 0x5d :: rest => some ([], rest)
  | _, _ => none

def endsId (b : UInt8) : Bool := b == 0x20 || b == 0x5d

def readElements : ℕ → Bytes → Option (List RawElement)
  | _, [] => some []
  | fuel + 1, 0x5b :: rest => do
    let params ← readParams fuel (rest.dropWhile (!endsId ·))
    let others ← readElements fuel params.2
    return (rest.takeWhile (!endsId ·), params.1) :: others
  | _, _ => none

def readSdata (text : Bytes) : Option (List RawElement) := readElements text.length text

/-- Elements whose names can be written -/
def IsText (elements : List RawElement) : Prop :=
  ∀ element ∈ elements, IsSdNameText element.1 ∧ ∀ param ∈ element.2, IsSdNameText param.1

theorem readQuoted_escaped (value rest : Bytes) :
    readQuoted (sdataEscaped value ++ 0x22 :: rest) = some (value, rest) := by
  induction value with
  | nil => rfl
  | cons b value ih =>
    have hc : sdataEscaped (b :: value) =
        (if b = 0x22 ∨ b = 0x5c ∨ b = 0x5d then [0x5c, b] else [b]) ++ sdataEscaped value := rfl
    rw [hc]
    split_ifs with hs
    · rw [append_assoc, cons_append, cons_append, nil_append, readQuoted, ih]
      rfl
    · simp only [not_or] at hs
      rw [append_assoc, singleton_append, readQuoted, if_neg hs.1, ih]
      · rfl
      · exact fun hb _ => hs.2.1 hb
      · exact fun _ _ hb _ => hs.2.1 hb

theorem span_append {p : UInt8 → Bool} {text rest : Bytes} {b : UInt8} (h : ∀ c ∈ text, p c = true)
    (hb : p b = false) :
    (text ++ b :: rest).takeWhile p = text ∧ (text ++ b :: rest).dropWhile p = b :: rest := by
  rw [takeWhile_append_of_pos h, dropWhile_append_of_pos h,
    takeWhile_cons_of_neg (by simp [hb]), dropWhile_cons_of_neg (by simp [hb])]
  simp

theorem IsSdNameText.not_mem {name : Bytes} (h : IsSdNameText name) :
    (∀ b ∈ name, (b != 0x3d) = true) ∧ ∀ b ∈ name, (!endsId b) = true := by
  constructor
  · intro b hb
    have hby := (h b hb).1
    simp only [isSdNameByte, Bool.and_eq_true] at hby
    exact hby.1.1.1.2
  · intro b hb
    have hby := (h b hb).1
    simp only [isSdNameByte, Bool.and_eq_true, bne_iff_ne] at hby
    simp [endsId, hby.1.1.2, hby.1.2]

theorem readParams_text {params : List (Bytes × Bytes)} (h : ∀ param ∈ params, IsSdNameText param.1)
    {fuel : ℕ} (hf : params.length ≤ fuel) (rest : Bytes) :
    readParams fuel (params.flatMap sdParamText ++ 0x5d :: rest) = some (params, rest) := by
  induction params generalizing fuel with
  | nil => cases fuel <;> rfl
  | cons param params ih =>
    obtain ⟨fuel, rfl⟩ : ∃ n, fuel = n + 1 := ⟨fuel - 1, by simp at hf; omega⟩
    rw [forall_mem_cons] at h
    have hs (more : Bytes) : (param.1 ++ 0x3d :: more).takeWhile (· != 0x3d) = param.1 ∧
        (param.1 ++ 0x3d :: more).dropWhile (· != 0x3d) = 0x3d :: more :=
      span_append h.1.not_mem.1 (by decide)
    have ht : (param :: params).flatMap sdParamText ++ 0x5d :: rest =
        0x20 :: (param.1 ++ 0x3d :: 0x22 :: (sdataEscaped param.2 ++
          0x22 :: (params.flatMap sdParamText ++ 0x5d :: rest))) := by
      simp [sdParamText]
    rw [ht, readParams, (hs _).1, (hs _).2, readAssigned, readQuoted_escaped]
    simp only [bind_eq_bind, bind_some, ih h.2 (by simpa using hf)]
    rfl

theorem exists_endsId (params : List (Bytes × Bytes)) (rest : Bytes) :
    ∃ b more, params.flatMap sdParamText ++ 0x5d :: rest = b :: more ∧ endsId b = true := by
  cases params with
  | nil => exact ⟨0x5d, rest, rfl, rfl⟩
  | cons param params => exact ⟨0x20, _, rfl, rfl⟩

variable {elements : List RawElement}

theorem readElements_text (h : IsText elements) {fuel : ℕ} (hf : (sdText elements).length ≤ fuel) :
    readElements fuel (sdText elements) = some elements := by
  induction elements generalizing fuel with
  | nil => cases fuel <;> rfl
  | cons element elements ih =>
    have ht : sdText (element :: elements) = 0x5b :: (element.1 ++
        (element.2.flatMap sdParamText ++ 0x5d :: sdText elements)) := by
      simp [sdText, sdElementText]
    have hl := length_le_paramsText element.2
    rw [ht] at hf ⊢
    simp only [length_cons, length_append] at hf
    obtain ⟨fuel, rfl⟩ : ∃ n, fuel = n + 1 := ⟨fuel - 1, by omega⟩
    obtain ⟨hid, hp⟩ := h element mem_cons_self
    obtain ⟨b, more, hm, hb⟩ := exists_endsId element.2 (sdText elements)
    obtain ⟨htk, hd⟩ : (element.1 ++ b :: more).takeWhile (!endsId ·) = element.1 ∧
        (element.1 ++ b :: more).dropWhile (!endsId ·) = b :: more :=
      span_append hid.not_mem.2 (by simp [hb])
    rw [hm, readElements, htk, hd, ← hm, readParams_text hp (by omega)]
    simp only [bind_eq_bind, bind_some]
    rw [ih (fun element' hmm => h element' (mem_cons_of_mem _ hmm)) (by omega)]
    rfl

theorem readSdata_sdText (h : IsText elements) :
    readSdata (sdText elements) = some elements := readElements_text h le_rfl

/-! ### Escaped names -/

theorem isSdNameText_sdataKeyEscaped (key : Bytes) : IsSdNameText (sdataKeyEscaped key) := by
  have hd : ∀ n < 16, isSdNameByte (hexDigit n) = true ∧ hexDigit n ≠ 0x5b := by decide
  intro b hb
  obtain ⟨c, -, hb⟩ := mem_flatMap.mp hb
  split_ifs at hb with hc
  · rw [Bool.and_eq_true, bne_iff_ne] at hc
    rw [mem_singleton.mp hb]
    exact hc
  · have hlt := c.toNat_lt
    simp only [mem_cons, not_mem_nil, or_false] at hb
    rcases hb with rfl | rfl | rfl
    · decide
    · exact hd _ (by omega)
    · exact hd _ (Nat.mod_lt _ (by decide))

/-- Only escaped names have a percent sign. -/
theorem sdataKeyEscaped_of_not_mem {key : Bytes} (h : 0x25 ∉ sdataKeyEscaped key) :
    sdataKeyEscaped key = key := by
  induction key with
  | nil => rfl
  | cons b key ih =>
    rw [sdataKeyEscaped, flatMap_cons] at h ⊢
    rw [mem_append, not_or] at h
    have hr := ih h.2
    rw [sdataKeyEscaped] at hr
    split_ifs at h ⊢ with hb
    · rw [hr]
      rfl
    · exact absurd mem_cons_self h.1

theorem sdataKeyEscaped_eq_iff {key text : Bytes} (ht : sdataKeyEscaped text = text)
    (hp : 0x25 ∉ text) : sdataKeyEscaped key = text ↔ key = text := by
  constructor
  · intro heq
    rw [← heq] at hp
    rw [← sdataKeyEscaped_of_not_mem hp, heq]
  · rintro rfl
    exact ht

theorem escaped_eq_metaId {key : Bytes} : sdataKeyEscaped key = metaId ↔ key = metaId :=
  sdataKeyEscaped_eq_iff sdataKeyEscaped_metaId (by decide)

theorem escaped_eq_sequenceIdName {key : Bytes} :
    sdataKeyEscaped key = sequenceIdName ↔ key = sequenceIdName :=
  sdataKeyEscaped_eq_iff sdataKeyEscaped_sequenceIdName (by decide)

theorem isText_escaped (elements : List RawElement) : IsText (elements.map escapedElement) := by
  intro element he
  obtain ⟨raw, -, rfl⟩ := List.mem_map.mp he
  refine ⟨isSdNameText_sdataKeyEscaped _, fun param hp => ?_⟩
  obtain ⟨rawParam, -, rfl⟩ := List.mem_map.mp hp
  exact isSdNameText_sdataKeyEscaped _

/-- What is read from the text that is written -/
theorem readSdata_formatSdata (m : LogMessage) {seqNum : Bytes}
    (hs : sdataEscaped seqNum = seqNum) :
    readSdata (m.formatSdata seqNum) = some ((m.sdBlocks seqNum).map escapedElement) := by
  rw [formatSdata_eq m hs, readSdata_sdText (isText_escaped _)]

/-! ### The number -/

/-- The parameters that are called `sequenceId`, with the ids of their elements and their values -/
def sequenceIds (elements : List RawElement) : List (Bytes × Bytes) :=
  elements.flatMap fun element =>
    (element.2.filter (·.1 = sequenceIdName)).map fun param => (element.1, param.2)

/-- Elements with the number, against the elements without it -/
structure Numbered (n : UInt32) (elements elements' : List RawElement) : Prop where
  /-- There is one `meta`. -/
  single : (elements'.map Prod.fst).count metaId = 1
  /-- The number is in it and there is no other `sequenceId`. -/
  number : sequenceIds elements' = [(metaId, decimalText n.toNat)]
  /-- All else is as without the number. -/
  same : InsertedIn metaId (sequenceIdName, decimalText n.toNat) elements elements' ∨
    (metaId ∉ elements.map Prod.fst ∧
      elements' = elements ++ [(metaId, [(sequenceIdName, decimalText n.toNat)])])

/-- The first name that begins with `meta.` -/
def LogMessage.firstInMeta (m : LogMessage) : Option ValueName :=
  m.sdata.find? fun name => metaPrefix.isPrefixOf name.sdName

/-- The number is positive as a `gint`, no name has the parameter `sequenceId`, and the first name
that begins with `meta.` is a parameter of `meta`; if there is none, there is no `meta`. -/
structure LogMessage.TakesNumber (m : LogMessage) (n : UInt32) : Prop where
  small : n.toNat < 2 ^ 31
  unused : ∀ name ∈ m.sdata, (splitSdName name.sdName).2 ≠ sequenceIdName
  first : ∀ name, m.firstInMeta = some name → name.sdId = metaId
  absent : m.firstInMeta = none → ∀ name ∈ m.sdata, name.sdId ≠ metaId

theorem sequenceText_eq_decimal_iff {n : UInt32} (hn : n ≠ 0) :
    sequenceText n = decimalText n.toNat ↔ n.toNat < 2 ^ 31 := by
  rw [sequenceText, if_neg hn]
  split_ifs with hl
  · exact ⟨fun _ => hl, fun _ => rfl⟩
  · refine ⟨fun heq => ?_, fun h => absurd h hl⟩
    have hm : (0x2d : UInt8) ∈ decimalText n.toNat := by
      rw [← heq]
      exact mem_cons_self
    exact absurd (isDigit_of_mem_decimalText hm) (by decide)

theorem InsertedIn.escaped {id : Bytes} {param : Bytes × Bytes}
    {elements elements' : List RawElement}
    (h : InsertedIn id param elements elements') :
    InsertedIn (sdataKeyEscaped id) (escapedParam param) (elements.map escapedElement)
      (elements'.map escapedElement) := by
  obtain ⟨pre, post, before, after, rfl, rfl⟩ := h
  refine ⟨pre.map escapedElement, post.map escapedElement, before.map escapedParam,
    after.map escapedParam, ?_, ?_⟩
  · simp [escapedElement]
  · simp [escapedElement]

theorem InsertedIn.sequenceIds {id value : Bytes} {elements elements' : List RawElement}
    (h : InsertedIn id (sequenceIdName, value) elements elements') :
    (sequenceIds elements').Perm ((id, value) :: sequenceIds elements) := by
  obtain ⟨pre, post, before, after, rfl, rfl⟩ := h
  simp only [SyslogFormat.sequenceIds, flatMap_append, flatMap_cons, filter_append,
    map_append, append_assoc]
  rw [← append_assoc, ← append_assoc (List.flatMap _ pre)]
  exact perm_middle

theorem escapedParam_sequenceId (value : Bytes) :
    escapedParam (sequenceIdName, value) = (sequenceIdName, value) := by
  rw [escapedParam, sdataKeyEscaped_sequenceIdName]

theorem sequenceIds_append_meta (elements : List RawElement) (value : Bytes) :
    sequenceIds (elements ++ [(metaId, [(sequenceIdName, value)])]) =
      sequenceIds elements ++ [(metaId, value)] := by
  simp [sequenceIds]

theorem sequenceIds_eq_nil_iff (elements : List RawElement) :
    sequenceIds elements = [] ↔ ∀ parts ∈ written elements, parts.2 ≠ sequenceIdName := by
  rw [sequenceIds, flatMap_eq_nil_iff]
  constructor
  · intro h parts hp
    obtain ⟨element, he, hp⟩ := mem_flatMap.mp hp
    obtain ⟨param, hpr, rfl⟩ := List.mem_map.mp hp
    have hn := filter_eq_nil_iff.mp (map_eq_nil_iff.mp (h element he)) param hpr
    simpa using hn
  · intro h element he
    refine map_eq_nil_iff.mpr (filter_eq_nil_iff.mpr fun param hpr => ?_)
    have hn := h (element.1, param.1)
      (mem_flatMap.mpr ⟨element, he, List.mem_map.mpr ⟨param, hpr, rfl⟩⟩)
    simpa using hn

theorem written_escaped (elements : List RawElement) : written (elements.map escapedElement) =
    (written elements).map fun parts => (sdataKeyEscaped parts.1, sdataKeyEscaped parts.2) := by
  rw [written, flatMap_map, written, map_flatMap]
  refine congrArg (fun f => elements.flatMap f) (funext fun element => ?_)
  simp [escapedElement, escapedParam]

theorem count_metaId_escaped (elements : List RawElement) :
    ((elements.map escapedElement).map Prod.fst).count metaId =
      (elements.map Prod.fst).count metaId := by
  induction elements with
  | nil => rfl
  | cons element elements ih =>
    rw [map_cons, map_cons, map_cons, count_cons, count_cons, ih]
    have hs : sdataKeyEscaped element.1 == metaId ↔ element.1 == metaId := by
      rw [beq_iff_eq, beq_iff_eq]
      exact escaped_eq_metaId
    exact congrArg _ (if_congr hs rfl rfl)

section Elements

variable {m : LogMessage}

/-- The elements without the number, as they are read -/
def LogMessage.plainElements (m : LogMessage) : List RawElement :=
  (m.sdBlocks []).map escapedElement

theorem sequenceIds_plainElements (m : LogMessage) : sequenceIds m.plainElements = [] ↔
    ∀ name ∈ m.sdata, (splitSdName name.sdName).2 ≠ sequenceIdName := by
  rw [sequenceIds_eq_nil_iff, plainElements, written_escaped, written_sdBlocks_nil]
  constructor
  · intro h name hn heq
    refine h _ (List.mem_map.mpr ⟨splitSdName name.sdName, mem_filter.mpr ⟨?_, ?_⟩, rfl⟩)
      (escaped_eq_sequenceIdName.mpr heq)
    · exact List.mem_map.mpr ⟨name, hn, rfl⟩
    · rw [heq]
      decide
  · intro h parts hp heq
    obtain ⟨raw, hr, rfl⟩ := List.mem_map.mp hp
    obtain ⟨name, hn, rfl⟩ := List.mem_map.mp (mem_filter.mp hr).1
    exact h name hn (escaped_eq_sequenceIdName.mp heq)

/-- `meta` is one element or none. -/
theorem count_metaId_plainElements (h : Grouped ValueName.sdId m.sdata) :
    (m.plainElements.map Prod.fst).count metaId =
      if ∃ name ∈ m.sdata, name.sdId = metaId then 1 else 0 := by
  obtain ⟨hn, hmm⟩ := h.openings
  rw [plainElements, count_metaId_escaped, ids_sdBlocks_nil]
  split_ifs with hm
  · refine count_eq_one_of_mem hn ((hmm _).mpr ?_)
    exact List.mem_map.mpr hm
  · exact count_eq_zero_of_not_mem fun hin => hm (List.mem_map.mp ((hmm _).mp hin))

variable {n : UInt32}

/-- A name in `meta.` takes the number into its element. -/
theorem numbered_iff_of_inserted (h : Grouped ValueName.sdId m.sdata) (hn : n ≠ 0)
    {first : ValueName} (hf : first ∈ m.sdata)
    (hi : InsertedIn (sdataKeyEscaped first.sdId) (sequenceIdName, sequenceText n)
      m.plainElements elements) : Numbered n m.plainElements elements ↔ n.toNat < 2 ^ 31 ∧
      (∀ name ∈ m.sdata, (splitSdName name.sdName).2 ≠ sequenceIdName) ∧ first.sdId = metaId := by
  have hp := hi.sequenceIds
  rw [← sequenceText_eq_decimal_iff hn, ← sequenceIds_plainElements]
  constructor
  · intro hnm
    rw [hnm.number] at hp
    obtain ⟨heq, hnl⟩ := cons_eq_cons.mp (perm_singleton.mp hp.symm)
    obtain ⟨hid, hv⟩ := Prod.mk.inj heq
    exact ⟨hv, hnl, escaped_eq_metaId.mp hid⟩
  · rintro ⟨hv, hnl, hid⟩
    rw [hid, hv] at hi
    rw [hid, hv, hnl] at hp
    refine ⟨?_, perm_singleton.mp hp, .inl hi⟩
    rw [hi.ids, count_metaId_plainElements h, if_pos ⟨first, hf, hid⟩]

/-- Without such a name the number is in an element of its own. -/
theorem numbered_iff_of_appended (h : Grouped ValueName.sdId m.sdata) (hn : n ≠ 0) :
    Numbered n m.plainElements (m.plainElements ++ [(metaId, [(sequenceIdName, sequenceText n)])]) ↔
      n.toNat < 2 ^ 31 ∧ (∀ name ∈ m.sdata, (splitSdName name.sdName).2 ≠ sequenceIdName) ∧
        ∀ name ∈ m.sdata, name.sdId ≠ metaId := by
  have hc : ((m.plainElements ++ [(metaId, [(sequenceIdName, sequenceText n)])]).map
      Prod.fst).count metaId = (m.plainElements.map Prod.fst).count metaId + 1 := by
    rw [map_append, count_append]
    rfl
  rw [← sequenceText_eq_decimal_iff hn, ← sequenceIds_plainElements]
  constructor
  · intro hnm
    have hnu := hnm.number
    have hs := hnm.single
    rw [sequenceIds_append_meta, ← nil_append [(metaId, decimalText n.toNat)]] at hnu
    obtain ⟨hnl, hv⟩ := append_inj' hnu rfl
    rw [hc, count_metaId_plainElements h] at hs
    refine ⟨(Prod.mk.inj (cons_eq_cons.mp hv).1).2, hnl, fun name hna hid => ?_⟩
    rw [if_pos ⟨name, hna, hid⟩] at hs
    cases hs
  · rintro ⟨hv, hnl, ha⟩
    have hz : (m.plainElements.map Prod.fst).count metaId = 0 := by
      rw [count_metaId_plainElements h, if_neg]
      rintro ⟨name, hna, hid⟩
      exact ha name hna hid
    rw [hv]
    rw [hv, hz] at hc
    refine ⟨hc, ?_, .inr ⟨count_eq_zero.mp hz, rfl⟩⟩
    rw [sequenceIds_append_meta, hnl, nil_append]

end Elements

theorem find_inMeta_sdEntries (m : LogMessage) : m.sdEntries.find? inMeta =
    m.firstInMeta.map fun name => (name.sdName, m.getValue name) := by
  rw [sdEntries, List.find?_map]
  rfl

/-- For every message whose elements are contiguous and that stores no sequence number, and every
number other than 0: the text with the number has one element `meta` and one `sequenceId` in all, in
this element and with the number as its value, and is otherwise the same as without, exactly if the
number and the names of the message meet the condition. -/
theorem sequenceId_added_iff {m : LogMessage} (h : Grouped ValueName.sdId m.sdata)
    (hempty : m.getValue sequenceId = []) {n : UInt32} (hn : n ≠ 0) :
    (∃ elements elements', readSdata (m.formatSdata []) = some elements ∧
        readSdata (m.formatSdata (sequenceText n)) = some elements' ∧
        Numbered n elements elements') ↔ m.TakesNumber n := by
  have hsq : sequenceText n ≠ [] := mt sequenceText_eq_nil_iff.mp hn
  have hb (seqNum : Bytes) : m.sdBlocks seqNum = (blocksFrom seqNum none m.sdEntries).2 := by
    have hst : m.storesSeqNum = false := by rw [storesSeqNum, hempty]; rfl
    rw [sdBlocks, hst, if_neg Bool.false_ne_true]
  have hr : (∃ elements elements', readSdata (m.formatSdata []) = some elements ∧
      readSdata (m.formatSdata (sequenceText n)) = some elements' ∧ Numbered n elements elements') ↔
      Numbered n m.plainElements ((m.sdBlocks (sequenceText n)).map escapedElement) := by
    rw [readSdata_formatSdata m rfl, readSdata_formatSdata m (sdataEscaped_sequenceText n)]
    constructor
    · rintro ⟨elements, elements', hp, hw, hnm⟩
      cases hp
      cases hw
      exact hnm
    · exact fun hnm => ⟨_, _, rfl, rfl, hnm⟩
  have hfn := find_inMeta_sdEntries m
  rw [hr]
  cases hf : m.firstInMeta with
  | some first =>
    rw [hf] at hfn
    have hi : InsertedIn (sdataKeyEscaped first.sdId) (sequenceIdName, sequenceText n)
        m.plainElements ((m.sdBlocks (sequenceText n)).map escapedElement) := by
      rcases blocksFrom_inMeta hsq none hfn with ⟨hc, -⟩ | ⟨-, hi⟩
      · cases hc
      · rw [← hb, ← hb] at hi
        exact hi.escaped
    rw [numbered_iff_of_inserted h hn (List.mem_of_find?_eq_some hf) hi]
    constructor
    · rintro ⟨hs, hu, hid⟩
      refine ⟨hs, hu, fun name hna => ?_, fun hnn => ?_⟩
      · rw [hf, Option.some.injEq] at hna
        rw [← hna, hid]
      · rw [hf] at hnn
        cases hnn
    · intro ht
      exact ⟨ht.small, ht.unused, ht.first first hf⟩
  | none =>
    rw [hf] at hfn
    have ha : (m.sdBlocks (sequenceText n)).map escapedElement =
        m.plainElements ++ [(metaId, [(sequenceIdName, sequenceText n)])] := by
      rw [hb, blocksFrom_not_inMeta hsq none hfn, map_append, plainElements,
        hb, map_singleton, escapedElement, sdataKeyEscaped_metaId, map_singleton,
        escapedParam_sequenceId]
    rw [ha, numbered_iff_of_appended h hn]
    constructor
    · rintro ⟨hs, hu, hab⟩
      refine ⟨hs, hu, fun name hna => ?_, fun _ => hab⟩
      rw [hf] at hna
      cases hna
    · intro ht
      exact ⟨ht.small, ht.unused, ht.absent hf⟩

/-- A message with one name behind the SDATA prefix, with an empty value -/
def oneName (tail : Bytes) : LogMessage where
  values := Function.update (fun _ => none) (.named (sdPrefix ++ tail)) (some [])
  sdata := [.named (sdPrefix ++ tail)]

theorem grouped_singleton (name : ValueName) : Grouped ValueName.sdId [name] := by
  intro a b c hs
  have hl := hs.length_le
  simp at hl

/-- `.SDATA.meta.x` and the number 7 -/
theorem sequenceId_added_seven :
    ∃ elements elements',
      readSdata ((oneName [0x6d, 0x65, 0x74, 0x61, 0x2e, 0x78]).formatSdata []) =
        some elements ∧
      readSdata ((oneName [0x6d, 0x65, 0x74, 0x61, 0x2e, 0x78]).formatSdata (sequenceText 7)) =
        some elements' ∧ Numbered 7 elements elements' := by
  refine (sequenceId_added_iff (grouped_singleton _) (by decide +kernel) (by decide)).mpr ?_
  refine ⟨by decide, ?_, ?_, ?_⟩
  · intro name hn
    rw [mem_singleton.mp hn]
    decide +kernel
  · intro name hn
    have hin := List.mem_of_find?_eq_some hn
    rw [mem_singleton.mp hin]
    decide +kernel
  · intro hnn
    exact absurd hnn (by decide +kernel)

/-- An element `meta` without parameters: `[meta][meta sequenceId="7"]` -/
theorem sequenceId_second_meta :
    Grouped ValueName.sdId (oneName metaId).sdata ∧ (oneName metaId).getValue sequenceId = [] ∧
    ¬ ∃ elements elements', readSdata ((oneName metaId).formatSdata []) = some elements ∧
      readSdata ((oneName metaId).formatSdata (sequenceText 7)) = some elements' ∧
      Numbered 7 elements elements' := by
  refine ⟨grouped_singleton _, by decide +kernel, ?_⟩
  rintro ⟨elements, elements', -, hr, hn⟩
  have ht : readSdata ((oneName metaId).formatSdata (sequenceText 7)) =
      some [(metaId, []), (metaId, [(sequenceIdName, [0x37])])] := by decide +kernel
  rw [ht, Option.some.injEq] at hr
  have hs := hn.single
  rw [← hr] at hs
  exact absurd hs (by decide)

end SyslogNg.SyslogFormat
