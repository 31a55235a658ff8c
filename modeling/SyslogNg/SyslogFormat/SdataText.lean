import SyslogNg.SyslogFormat.StructuredData

/-!
# The text of structured data

What RFC 5424 writes for elements, and what the parser stores when it reads such a text.
-/
namespace SyslogNg.SyslogFormat

open List Option Parse Cursor

/-! ### Texts of elements -/

/-- An id with its parameters and their values. -/
abbrev RawElement := Bytes × List (Bytes × Bytes)

/-- `SP PARAM-NAME "=" %d34 PARAM-VALUE %d34` -/
def sdParamText (param : Bytes × Bytes) : Bytes :=
  0x20 :: (param.1 ++ 0x3d :: 0x22 :: (sdataEscaped param.2 ++ [0x22]))

/-- `"[" SD-ID *(SP SD-PARAM) "]"` -/
def sdElementText (element : RawElement) : Bytes :=
  0x5b :: (element.1 ++ (element.2.flatMap sdParamText ++ [0x5d]))

/-- `1*SD-ELEMENT` -/
def sdText (elements : List RawElement) : Bytes := elements.flatMap sdElementText

def IsSdNameText (name : Bytes) : Prop := ∀ b ∈ name, isSdNameByte b = true ∧ b ≠ 0x5b

/-- Printable US-ASCII except `=`, `[`, `]` and `"`. -/
def isSdPrintable (b : UInt8) : Bool :=
  0x21 ≤ b && b ≤ 0x7e && b != 0x3d && b != 0x5b && b != 0x5d && b != 0x22

/-- `SD-NAME`: 1 to 32 printable characters. -/
structure SdName where
  bytes : Bytes
  length_pos : 1 ≤ bytes.length
  length_le : bytes.length ≤ 32
  printable : bytes.all isSdPrintable = true

theorem SdName.mem_printable (name : SdName) {b : UInt8} (hb : b ∈ name.bytes) :
    0x21 ≤ b ∧ b ≤ 0x7e ∧ b ≠ 0x3d ∧ b ≠ 0x5b ∧ b ≠ 0x5d ∧ b ≠ 0x22 := by
  have hp := List.all_eq_true.mp name.printable b hb
  simp only [isSdPrintable, Bool.and_eq_true, decide_eq_true_eq, bne_iff_ne] at hp
  obtain ⟨⟨⟨⟨⟨hl, hh⟩, heq⟩, ho⟩, hc⟩, hq⟩ := hp
  exact ⟨hl, hh, heq, ho, hc, hq⟩

theorem SdName.isText (name : SdName) : IsSdNameText name.bytes := by
  intro b hb
  obtain ⟨hl, hh, heq, ho, hc, hq⟩ := name.mem_printable hb
  have ha : b < 0x80 := UInt8.lt_of_le_of_lt hh (by decide)
  have hbl : b ≠ 0x20 := by
    rintro rfl
    exact absurd hl (by decide)
  refine ⟨?_, ho⟩
  simp [isSdNameByte, ha, heq, hbl, hc, hq]

theorem SdName.ne_zero (name : SdName) : ∀ b ∈ name.bytes, b ≠ 0 := by
  rintro b hb rfl
  exact absurd (name.mem_printable hb).1 (by decide)

structure SdElement where
  id : SdName
  params : List (SdName × Bytes)
  distinct : (params.map fun param => param.1.bytes).Nodup

def SdElement.raw (element : SdElement) : RawElement :=
  (element.id.bytes, element.params.map fun param => (param.1.bytes, param.2))

structure SdElements where
  elements : List SdElement
  distinct : (elements.map fun element => element.id.bytes).Nodup

/-! ### Parsing the text -/

variable {left : ℤ}

theorem sdName_eq {name : Bytes} (hn : ∀ b ∈ name, isSdNameByte b = true) {stop : UInt8 → Bool}
    (hs : ∀ b ∈ name, stop b = false) {z : UInt8} (hz : stop z = true) (more : Bytes) {place : ℕ}
    (hp : name.length ≤ place) (hl : name.length < left) :
    sdName stop place (name ++ z :: more) left =
      some (true, name, ⟨z :: more, left - name.length⟩) := by
  induction name generalizing place left with
  | nil => simp [sdName, hz]
  | cons b name ih =>
    rw [length_cons] at hl hp
    have hb := hn b mem_cons_self
    have hnt := hs b mem_cons_self
    rw [cons_append, sdName, if_neg (by simp [hnt]; omega), if_neg (by simp [hb]; omega),
      ih (fun b hb => hn b (mem_cons_of_mem _ hb))
        (fun b hb => hs b (mem_cons_of_mem _ hb)) (by omega) (by omega)]
    rw [sub_sub, add_comm (1 : ℤ)]
    rfl

/-- A byte that is stored as it is, with or without a backslash before it. -/
theorem sdValue_cons {b : UInt8} {quote : Bool}
    (hb : quote = decide (b = 0x22 ∨ b = 0x5c ∨ b = 0x5d))
    (rest : Bytes) {place : ℕ} (hp : 1 ≤ place) (hl : left ≠ 0) :
    sdValue place quote (b :: rest) left =
      (sdValue (place - 1) false rest (left - 1)).map fun r => (r.1, b :: r.2.1, r.2.2) := by
  obtain ⟨place, rfl⟩ : ∃ n, place = n + 1 := ⟨place - 1, by omega⟩
  by_cases hs : b = 0x22 ∨ b = 0x5c ∨ b = 0x5d
  · have hq : quote = true := hb.trans (decide_eq_true hs)
    subst hq
    have hst : sdStored (place + 1) true b = [b] := by
      rcases hs with rfl | rfl | rfl <;> simp [sdStored]
    rw [sdValue, if_neg (by simp [hl]), if_neg (by simp), if_neg (by simp), hst]
    rfl
  · have hq : quote = false := hb.trans (decide_eq_false hs)
    subst hq
    simp only [not_or] at hs
    have hst : sdStored (place + 1) false b = [b] := by simp [sdStored]
    rw [sdValue, if_neg (by simp [hl, hs.1]), if_neg (by simp [hs.2.1]),
      if_neg (by simp [hs.2.2]), hst]
    rfl

theorem sdValue_eq {value : Bytes} (more : Bytes) {place : ℕ} (hp : value.length ≤ place)
    (hl : (sdataEscaped value).length < left) :
    sdValue place false (sdataEscaped value ++ 0x22 :: more) left =
      some (true, value, ⟨0x22 :: more, left - (sdataEscaped value).length⟩) := by
  induction value generalizing place left with
  | nil => simp [sdValue, sdataEscaped]
  | cons b value ih =>
    rw [length_cons] at hp
    have hc : sdataEscaped (b :: value) =
        (if b = 0x22 ∨ b = 0x5c ∨ b = 0x5d then [0x5c, b] else [b]) ++ sdataEscaped value := rfl
    rw [hc] at hl ⊢
    by_cases hs : b = 0x22 ∨ b = 0x5c ∨ b = 0x5d
    · rw [if_pos hs, length_append] at hl
      rw [if_pos hs, length_append]
      have hln : [0x5c, b].length = 2 := rfl
      push_cast at hl ⊢
      have he : sdValue place false ([0x5c, b] ++ sdataEscaped value ++ 0x22 :: more) left =
          sdValue place true (b :: (sdataEscaped value ++ 0x22 :: more)) (left - 1) := by
        change sdValue place false (0x5c :: b :: (sdataEscaped value ++ 0x22 :: more)) left = _
        rw [sdValue, if_neg (by simp; omega), if_pos (by simp)]
      rw [he, sdValue_cons (decide_eq_true hs).symm _ (by omega) (by omega),
        ih (by omega) (by omega), ← sub_sub, sub_sub left]
      rfl
    · rw [if_neg hs, length_append] at hl
      rw [if_neg hs, length_append]
      have hln : [b].length = 1 := rfl
      rw [hln] at hl ⊢
      push_cast at hl ⊢
      rw [append_assoc, singleton_append,
        sdValue_cons (decide_eq_false hs).symm _ (by omega) (by omega),
        ih (by omega) (by omega), map_some, ← sub_sub]

/-! ### What is stored -/

section Storing

variable (host : Host)

def LogMessage.setParams (id : Bytes) (m : LogMessage) (params : List (Bytes × Bytes)) :
    LogMessage :=
  params.foldl
    (fun m param => m.setValue (.named (sdValueName host (id ++ 0x2e :: param.1))) param.2) m

/-- An element without parameters is stored as an empty value. -/
def LogMessage.setElement (m : LogMessage) (element : RawElement) : LogMessage :=
  if element.2 = [] then m.setValue (.named (sdValueName host element.1)) []
  else m.setParams host element.1 element.2

end Storing

structure ParamFits (opts : ParseOptions) (param : Bytes × Bytes) : Prop where
  name : IsSdNameText param.1
  length_pos : 1 ≤ param.1.length
  length_le : param.1.length ≤ 32
  value : param.2.length ≤ opts.sdataParamValueMax

structure ElementFits (opts : ParseOptions) (element : RawElement) : Prop where
  name : IsSdNameText element.1
  length_pos : 1 ≤ element.1.length
  length_le : element.1.length ≤ 32
  params : ∀ param ∈ element.2, ParamFits opts param

section Parsing

variable {host : Host} {opts : ParseOptions}

theorem parseSdValue_eq {value : Bytes} (hv : value.length ≤ opts.sdataParamValueMax)
    (more : Bytes) (hl : (sdataEscaped value).length + 2 ≤ left) (s : Parse) :
    (s.moveTo ⟨0x22 :: (sdataEscaped value ++ 0x22 :: more), left⟩).parseSdValue opts =
      some (some value, s.moveTo ⟨more, left - ((sdataEscaped value).length + 2)⟩) := by
  unfold parseSdValue moveTo
  rw [isAt_cons (by omega)]
  simp only [bind_eq_bind, step_cons]
  rw [sdValue_eq more hv (by omega)]
  simp only [bind_some, Bool.not_true, Bool.false_eq_true, if_false]
  rw [isAt_cons (by omega)]
  simp only [beq_self_eq_true, bind_some, if_true, step_cons]
  congr 4
  omega

theorem parseSdParam_eq (id : Bytes) {name value : Bytes} (hn : IsSdNameText name)
    (hln : 1 ≤ name.length ∧ name.length ≤ 32) (hv : value.length ≤ opts.sdataParamValueMax)
    (more : Bytes) (hlf : (sdParamText (name, value)).length ≤ left) (s : Parse) :
    (s.moveTo ⟨sdParamText (name, value) ++ more, left⟩).parseSdParam host opts id =
      some (true, (s.moveTo ⟨more, left - (sdParamText (name, value)).length⟩).setValue
        (.named (sdValueName host (id ++ 0x2e :: name))) value) := by
  obtain ⟨b, name', hb⟩ : ∃ b name', name = b :: name' :=
    exists_cons_of_length_pos (show 0 < name.length by omega)
  have ht : sdParamText (name, value) ++ more =
      0x20 :: (name ++ 0x3d :: 0x22 :: (sdataEscaped value ++ 0x22 :: more)) := by
    simp [sdParamText]
  have hf : ∀ rest left, (⟨name ++ rest, left⟩ : Cursor).byte 0 = some b := by
    intro rest left
    rw [hb]
    rfl
  have hl : ((sdParamText (name, value)).length : ℤ) =
      name.length + (sdataEscaped value).length + 4 := by
    unfold sdParamText
    simp only [length_cons, length_append, length_nil]
    push_cast
    ring
  have hs : ∀ x ∈ name, (x == 0x3d) = false := by
    intro x hx
    have hby := (hn x hx).1
    simp only [isSdNameByte, Bool.and_eq_true, bne_iff_ne] at hby
    exact beq_eq_false_iff_ne.mpr hby.1.1.1.2
  rw [hl] at hlf ⊢
  have hsc : sdName (· == 0x3d) 32 (name ++ 0x3d :: 0x22 :: (sdataEscaped value ++ 0x22 :: more))
      (left - 1) = _ :=
    sdName_eq (fun b hb => (hn b hb).1) hs (beq_self_eq_true _) _ hln.2 (by omega)
  have hq : (s.moveTo ⟨_, left - 1 - name.length - 1⟩).parseSdValue opts = _ :=
    parseSdValue_eq hv more (by omega) s
  have he : left - 1 - name.length - 1 - ((sdataEscaped value).length + 2) =
      left - (name.length + (sdataEscaped value).length + 4) := by
    ring
  rw [he] at hq
  rw [ht]
  unfold parseSdParam moveTo
  unfold moveTo at hq
  rw [isAt_cons (by omega)]
  simp only [bind_eq_bind, bind_some, step_cons, hf, (hn b (hb ▸ mem_cons_self)).1]
  rw [hsc]
  simp only [bind_some]
  rw [isAt_cons (by omega)]
  simp only [step_cons]
  rw [hq]
  rfl

theorem parseSdParams_eq (id : Bytes) {params : List (Bytes × Bytes)}
    (hpr : ∀ param ∈ params, ParamFits opts param) (more : Bytes)
    (hl : (params.flatMap sdParamText).length < left) {fuel : ℕ} (hf : params.length < fuel)
    (s : Parse) :
    Parse.parseSdParams host opts id fuel
        (s.moveTo ⟨params.flatMap sdParamText ++ 0x5d :: more, left⟩) =
      some (true, { cursor := ⟨0x5d :: more, left - (params.flatMap sdParamText).length⟩
                    msg := s.msg.setParams host id params
                    time := s.time }) := by
  induction params generalizing left fuel s with
  | nil =>
    obtain ⟨fuel, rfl⟩ : ∃ n, fuel = n + 1 := ⟨fuel - 1, by omega⟩
    have hne : left ≠ 0 := by
      omega
    have hc : (⟨[].flatMap sdParamText ++ 0x5d :: more, left⟩ : Cursor).isAt 0x5d = some true :=
      isAt_cons hne _
    unfold parseSdParams moveTo
    rw [hc]
    simp [LogMessage.setParams]
  | cons param params ih =>
    obtain ⟨fuel, rfl⟩ : ∃ n, fuel = n + 1 := ⟨fuel - 1, by omega⟩
    obtain ⟨name, value⟩ := param
    have hp := hpr (name, value) mem_cons_self
    rw [flatMap_cons, length_append] at hl
    rw [length_cons] at hf
    have hne : left ≠ 0 := by omega
    have ho : (⟨((name, value) :: params).flatMap sdParamText ++ 0x5d :: more, left⟩ : Cursor
        ).isAt 0x5d = some false := isAt_cons hne _
    have hft : (sdParamText (name, value)).length ≤ left := by omega
    have hon : (s.moveTo ⟨sdParamText (name, value) ++ (params.flatMap sdParamText ++ 0x5d :: more),
        left⟩).parseSdParam host opts id = _ :=
      parseSdParam_eq id hp.name ⟨hp.length_pos, hp.length_le⟩ hp.value _ hft s
    have hm : parseSdParams host opts id fuel
        ((s.setValue (.named (sdValueName host (id ++ 0x2e :: name))) value).moveTo
          ⟨_, left - (sdParamText (name, value)).length⟩) = _ :=
      ih (fun param hmm => hpr param (mem_cons_of_mem _ hmm)) (by omega) (by omega) _
    unfold parseSdParams
    unfold moveTo at hon hm ⊢
    rw [if_neg hne, ho]
    rw [flatMap_cons, append_assoc, hon]
    refine hm.trans ?_
    rw [length_append, sub_sub]
    rfl

theorem length_le_paramsText (params : List (Bytes × Bytes)) :
    params.length ≤ (params.flatMap sdParamText).length := by
  induction params with
  | nil => exact Nat.le_refl 0
  | cons param params ih =>
    have hp : 1 ≤ (sdParamText param).length := Nat.succ_pos _
    rw [flatMap_cons, length_append, length_cons]
    omega

/-- What follows an id: a blank or a closing bracket. -/
theorem paramsText_cons (params : List (Bytes × Bytes)) (more : Bytes) :
    ∃ z rest, params.flatMap sdParamText ++ 0x5d :: more = z :: rest ∧
      ((z == 0x20 || z == 0x5d) = true) ∧ (z = 0x5d ↔ params = []) := by
  cases params with
  | nil => exact ⟨_, _, rfl, rfl, by simp⟩
  | cons param params => exact ⟨_, _, rfl, rfl, by simp⟩

theorem parseSdElement_eq {element : RawElement} (he : ElementFits opts element) (more : Bytes)
    (hlf : (sdElementText element).length ≤ left) (s : Parse) :
    (s.moveTo ⟨element.1 ++ (element.2.flatMap sdParamText ++ 0x5d :: more), left - 1⟩
        ).parseSdElement host opts =
      some (true, { cursor := ⟨more, left - (sdElementText element).length⟩
                    msg := s.msg.setElement host element
                    time := s.time }) := by
  obtain ⟨id, params⟩ := element
  have hn : IsSdNameText id := he.name
  have hps : 1 ≤ id.length := he.length_pos
  have hl : ((sdElementText (id, params)).length : ℤ) =
      id.length + (params.flatMap sdParamText).length + 2 := by
    unfold sdElementText
    simp only [length_cons, length_append, length_nil]
    push_cast
    ring
  rw [hl] at hlf ⊢
  obtain ⟨b, id', hb⟩ : ∃ b id', id = b :: id' := exists_cons_of_length_pos hps
  have hf : ∀ rest left, (⟨id ++ rest, left⟩ : Cursor).byte 0 = some b := by
    intro rest left
    rw [hb]
    rfl
  have hst : ∀ x ∈ id, (x == 0x20 || x == 0x5d) = false := by
    intro x hx
    have hby := (hn x hx).1
    simp only [isSdNameByte, Bool.and_eq_true, bne_iff_ne] at hby
    simp [hby.1.1.2, hby.1.2]
  obtain ⟨z, rest, hz, hzs, hzc⟩ := paramsText_cons params more
  have hsc : sdName (fun b => b == 0x20 || b == 0x5d) 32 (id ++ z :: rest) (left - 1) = _ :=
    sdName_eq (fun b hb => (hn b hb).1) hst hzs _ he.length_le (by omega)
  rw [← hz] at hsc
  have hft : ∀ param ∈ params, ParamFits opts param := he.params
  have hfl : params.length < (params.flatMap sdParamText ++ 0x5d :: more).length + 1 := by
    have hle := length_le_paramsText params
    rw [length_append]
    omega
  have hp : ∀ s : Parse, parseSdParams host opts id
      ((params.flatMap sdParamText ++ 0x5d :: more).length + 1)
      (s.moveTo ⟨_, left - 1 - id.length⟩) = _ := fun s =>
    parseSdParams_eq id hft more (by omega) hfl s
  have hen : left - 1 - id.length - (params.flatMap sdParamText).length - 1 =
      left - (id.length + (params.flatMap sdParamText).length + 2) := by
    ring
  have hby : (⟨params.flatMap sdParamText ++ 0x5d :: more, left - 1 - id.length⟩ : Cursor).byte 0 =
      some z := by
    rw [hz]
    rfl
  have hid : id ≠ [] := by
    rw [hb]
    exact cons_ne_nil _ _
  unfold parseSdElement
  unfold moveTo at hp ⊢
  rw [hf]
  simp only [bind_eq_bind, bind_some, (hn b (hb ▸ mem_cons_self)).1]
  rw [hsc]
  simp only [bind_some, Bool.not_true, Bool.false_or, decide_eq_true_eq, hid, hby,
    hzc]
  -- The empty value of an element without parameters is set before the loop over them.
  have hs : ∀ c : Cursor, (if params = [] then
        (⟨c, s.msg, s.time⟩ : Parse).setValue (.named (sdValueName host id)) []
      else ⟨c, s.msg, s.time⟩) =
      ⟨c, if params = [] then s.msg.setValue (.named (sdValueName host id)) []
        else s.msg, s.time⟩ := by
    intro c
    split <;> rfl
  have hm : (if params = [] then s.msg.setValue (.named (sdValueName host id)) []
      else s.msg).setParams host id params = s.msg.setElement host (id, params) := by
    unfold LogMessage.setElement
    split
    case isTrue hnl => rw [hnl]; rfl
    case isFalse hne => rfl
  rw [hs, hp ⟨s.cursor, _, s.time⟩]
  simp only [bind_some, Bool.not_true, Bool.false_eq_true, if_false]
  rw [isAt_cons (by omega), hm]
  simp only [beq_self_eq_true, bind_some, if_true, step_cons, hen]

theorem sdText_drop (element : RawElement) (elements : List RawElement) (more : Bytes) :
    (sdText (element :: elements)).drop 1 ++ more =
      element.1 ++ (element.2.flatMap sdParamText ++ 0x5d :: (sdText elements ++ more)) := by
  simp [sdText, sdElementText]

theorem length_sdText_cons (element : RawElement) (elements : List RawElement) :
    (sdText (element :: elements)).length =
      (sdElementText element).length + (sdText elements).length := by
  unfold sdText
  rw [flatMap_cons, length_append]

theorem parseSdElements_eq {element : RawElement} {elements : List RawElement}
    (hf : ∀ e ∈ element :: elements, ElementFits opts e) (more : Bytes) {fuel : ℕ}
    (hfl : elements.length < fuel) (s : Parse) :
    Parse.parseSdElements host opts fuel
        (s.moveTo ⟨(sdText (element :: elements)).drop 1 ++ more,
          (sdText (element :: elements)).length - 1⟩) =
      some (true, { cursor := ⟨more, 0⟩
                    msg := (element :: elements).foldl (LogMessage.setElement host) s.msg
                    time := s.time }) := by
  induction elements generalizing element fuel s with
  | nil =>
    obtain ⟨fuel, rfl⟩ : ∃ n, fuel = n + 1 := ⟨fuel - 1, by omega⟩
    have hon : (s.moveTo ⟨_, (sdText [element]).length - 1⟩).parseSdElement host opts = _ :=
      parseSdElement_eq (hf element mem_cons_self) (sdText [] ++ more)
        (by rw [length_sdText_cons]; omega) s
    unfold parseSdElements
    rw [sdText_drop, hon]
    have hz : ((sdText [element]).length : ℤ) - (sdElementText element).length = 0 := by
      rw [length_sdText_cons]
      exact sub_self _
    rw [hz]
    rfl
  | cons next elements ih =>
    obtain ⟨fuel, rfl⟩ : ∃ n, fuel = n + 1 := ⟨fuel - 1, by omega⟩
    rw [length_cons] at hfl
    have hon : (s.moveTo ⟨_, (sdText (element :: next :: elements)).length - 1⟩).parseSdElement
        host opts = _ :=
      parseSdElement_eq (hf element mem_cons_self) (sdText (next :: elements) ++ more)
        (by rw [length_sdText_cons]; omega) s
    have hl : ((sdText (element :: next :: elements)).length : ℤ) - (sdElementText element).length =
        (sdText (next :: elements)).length := by
      rw [length_sdText_cons]
      push_cast
      ring
    have hln : 2 ≤ (sdText (next :: elements)).length := by
      rw [length_sdText_cons]
      unfold sdElementText
      simp only [length_cons, length_append]
      omega
    have hm := ih (fun e he => hf e (mem_cons_of_mem _ he)) (show elements.length < fuel by omega)
      { s with msg := s.msg.setElement host element }
    unfold parseSdElements
    rw [sdText_drop, hon, hl]
    simp only [bind_eq_bind, bind_some]
    rw [if_neg (by change ((sdText (next :: elements)).length : ℤ) - 1 ≠ 0; omega)]
    exact hm

theorem length_le_sdText (elements : List RawElement) :
    elements.length ≤ (sdText elements).length := by
  induction elements with
  | nil => exact Nat.le_refl 0
  | cons element elements ih =>
    have hp : 1 ≤ (sdElementText element).length := Nat.succ_pos _
    rw [length_sdText_cons, length_cons]
    omega

/-- The text of elements is read to its end, and everything in it is stored in its order. -/
theorem parseSd_eq {elements : List RawElement} (hf : ∀ e ∈ elements, ElementFits opts e)
    (tail : Bytes) (s : Parse) :
    (s.moveTo ⟨sdText elements ++ tail, (sdText elements).length⟩).parseSd host opts =
      some (true, { cursor := ⟨tail, 0⟩
                    msg := elements.foldl (LogMessage.setElement host) s.msg
                    time := s.time }) := by
  cases elements with
  | nil => rfl
  | cons element elements =>
    have hl := length_le_sdText (element :: elements)
    rw [length_cons] at hl
    have hne : ((sdText (element :: elements)).length : ℤ) ≠ 0 := by omega
    have hn : (⟨sdText (element :: elements) ++ tail,
        (sdText (element :: elements)).length⟩ : Cursor).isAt 0x2d = some false :=
      isAt_cons hne _
    have hfl : elements.length < ((sdText (element :: elements)).drop 1 ++ tail).length + 1 := by
      rw [length_append, length_drop]
      omega
    change ((⟨sdText (element :: elements) ++ tail,
      (sdText (element :: elements)).length⟩ : Cursor).isAt 0x2d >>= _) = _
    rw [hn]
    simp only [bind_eq_bind, bind_some, Bool.false_eq_true, if_false]
    exact parseSdElements_eq hf tail hfl s

end Parsing

end SyslogNg.SyslogFormat
