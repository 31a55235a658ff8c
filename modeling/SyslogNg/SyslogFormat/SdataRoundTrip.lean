import SyslogNg.SyslogFormat.SdataText

/-!
# Structured data that is formatted and parsed again

The elements of a message are written as RFC 5424 has them and read back if each of their values can
be split at its last dot, and if the names are short enough for the array in which the parser joins
them. The same names are lost otherwise.
-/
namespace SyslogNg.SyslogFormat

open List Function LogMessage SdElements Prod

/-! ### Splitting names -/

section Splitting

theorem splitSdName_dot (id : Bytes) {param : Bytes} (hp : 0x2e ∉ param) :
    splitSdName (id ++ 0x2e :: param) = (id, param) := by
  have hbc : ∀ b ∈ param.reverse, (b != 0x2e) = true := by
    intro b hb
    refine bne_iff_ne.mpr ?_
    rintro rfl
    exact hp (mem_reverse.mp hb)
  have hr : (id ++ 0x2e :: param).reverse.takeWhile (· != 0x2e) = param.reverse := by
    rw [reverse_append, reverse_cons, append_assoc, takeWhile_append_of_pos hbc]
    simp
  have hl : (id ++ 0x2e :: param).length - param.length - 1 = id.length := by
    rw [length_append, length_cons]
    omega
  unfold splitSdName
  rw [if_pos (by simp), hr, reverse_reverse]
  dsimp only
  rw [hl, take_left]

theorem splitSdName_of_notMem {name : Bytes} (hd : 0x2e ∉ name) (hne : name ≠ []) :
    splitSdName name = (name, []) := by
  unfold splitSdName
  rw [if_neg hd, if_neg hne]

/-- A name with a dot is split at the last one. -/
theorem splitSdName_of_mem {name : Bytes} (hd : 0x2e ∈ name) :
    name = (splitSdName name).1 ++ 0x2e :: (splitSdName name).2 ∧ 0x2e ∉ (splitSdName name).2 := by
  obtain ⟨back, front, hn, hb⟩ := eq_append_cons_of_mem (mem_reverse.mpr hd)
  have ha : name = front.reverse ++ 0x2e :: back.reverse := by
    rw [← reverse_reverse name, hn]
    simp
  have hnt : 0x2e ∉ back.reverse := fun hm => hb (mem_reverse.mp hm)
  rw [ha, splitSdName_dot _ hnt]
  exact ⟨rfl, hnt⟩

theorem dot_notMem_splitSdName (name : Bytes) : 0x2e ∉ (splitSdName name).2 := by
  by_cases hd : 0x2e ∈ name
  · exact (splitSdName_of_mem hd).2
  · unfold splitSdName
    rw [if_neg hd]
    exact not_mem_nil

theorem isSdNameText_splitSdName {name : Bytes} (hn : IsSdNameText name) (hne : name ≠ []) :
    IsSdNameText (splitSdName name).1 ∧ IsSdNameText (splitSdName name).2 := by
  by_cases hd : 0x2e ∈ name
  · obtain ⟨ha, -⟩ := splitSdName_of_mem hd
    generalize splitSdName name = parts at ha ⊢
    subst ha
    exact ⟨fun b hb => hn b (mem_append_left _ hb),
      fun b hb => hn b (mem_append_right _ (mem_cons_of_mem _ hb))⟩
  · rw [splitSdName_of_notMem hd hne]
    exact ⟨hn, fun b hb => absurd hb not_mem_nil⟩

end Splitting

/-! ### Formatting -/

theorem sdataKeyEscaped_eq {key : Bytes} (hk : IsSdNameText key) : sdataKeyEscaped key = key := by
  induction key with
  | nil => rfl
  | cons b key ih =>
    obtain ⟨hby, ho⟩ := hk b mem_cons_self
    unfold sdataKeyEscaped at ih ⊢
    rw [flatMap_cons, if_pos (by simp [hby, ho]),
      ih fun b hb => hk b (mem_cons_of_mem _ hb), singleton_append]

/-- A value with the id and the parameter under which it is written. -/
abbrev SplitValue := (Bytes × Bytes) × Bytes

/-- Parameters come first in the first element, if this is the one they belong to. -/
def sdAttach (id : Bytes) (own : List (Bytes × Bytes)) : List RawElement → List RawElement
  | [] => [(id, own)]
  | (next, params) :: others =>
    if next = id then (id, own ++ params) :: others else (id, own) :: (next, params) :: others

/-- Values with the same id behind each other are one element. -/
def sdGroup : List SplitValue → List RawElement
  | [] => []
  | ((id, param), value) :: more =>
    sdAttach id (if param = [] then [] else [(param, value)]) (sdGroup more)

/-- The closing bracket of an open element. -/
def sdClose (cur : Option Bytes) : Bytes := if cur.isSome then [0x5d] else []

/-- The text of elements of which the first may be open already. -/
def sdTextFrom (cur : Option Bytes) : List RawElement → Bytes
  | [] => sdClose cur
  | (id, params) :: others =>
    if cur = some id then params.flatMap sdParamText ++ 0x5d :: sdText others
    else sdClose cur ++ sdText ((id, params) :: others)

/-- What a message without a sequence number to add gets for a value. -/
theorem SdataFormat.append_eq (f : SdataFormat) {id param : Bytes} {name : Bytes} (value : Bytes)
    (hs : splitSdName name = (id, param)) (hid : IsSdNameText id) (hp : IsSdNameText param) :
    f.append [] name value =
      { result := f.result ++
          (if f.curElem = some id then [] else sdClose f.curElem ++ 0x5b :: id) ++
          if param = [] then [] else sdParamText (param, value)
        curElem := some id
        hasSeqNum := f.hasSeqNum } := by
  unfold SdataFormat.append sdClose sdParamText
  simp only [hs, sdataKeyEscaped_eq hid, sdataKeyEscaped_eq hp, bne_self_eq_false,
    Bool.and_false, Bool.false_and, Bool.false_eq_true, if_false, append_nil, Bool.or_false]

/-- The element of a value comes before those of the following values. -/
theorem sdTextFrom_attach (cur : Option Bytes) (id : Bytes) (own : List (Bytes × Bytes))
    (elements : List RawElement) : sdTextFrom cur (sdAttach id own elements) =
      (if cur = some id then [] else sdClose cur ++ 0x5b :: id) ++
        (own.flatMap sdParamText ++ sdTextFrom (some id) elements) := by
  cases elements with
  | nil =>
    dsimp only [sdAttach, sdTextFrom]
    split
    · rfl
    · simp [sdText, sdElementText, sdClose]
  | cons next others =>
    obtain ⟨next, params⟩ := next
    dsimp only [sdAttach]
    by_cases hn : next = id
    · subst hn
      rw [if_pos rfl]
      dsimp only [sdTextFrom]
      split
      · simp
      · simp [sdText, sdElementText]
    · have hne : ¬(some id = some next) := fun h => hn (Option.some.inj h).symm
      rw [if_neg hn]
      dsimp only [sdTextFrom]
      split
      · simp [sdClose]
      · simp [sdText, sdElementText, sdClose]

theorem sdTextFrom_group (cur : Option Bytes) (id param value : Bytes) (more : List SplitValue) :
    sdTextFrom cur (sdGroup (((id, param), value) :: more)) =
      (if cur = some id then [] else sdClose cur ++ 0x5b :: id) ++
        ((if param = [] then [] else sdParamText (param, value)) ++
          sdTextFrom (some id) (sdGroup more)) := by
  refine (sdTextFrom_attach cur id _ _).trans ?_
  by_cases hp : param = []
  · rw [if_pos hp, if_pos hp]
    rfl
  · rw [if_neg hp, if_neg hp, flatMap_cons, flatMap_nil, append_nil]

/-- Under what the values are written. -/
def sdSplits (values : List (Bytes × Bytes)) : List SplitValue :=
  values.map fun v => (splitSdName v.1, v.2)

/-- The loop over the values writes their elements, but for the last bracket. -/
theorem foldl_append_eq {values : List (Bytes × Bytes)}
    (hvl : ∀ v ∈ values, IsSdNameText v.1 ∧ v.1 ≠ []) (f : SdataFormat) :
    let f' := values.foldl (fun f v => f.append [] v.1 v.2) f
    f'.result ++ sdClose f'.curElem =
      f.result ++ sdTextFrom f.curElem (sdGroup (sdSplits values)) := by
  induction values generalizing f with
  | nil => rfl
  | cons v values ih =>
    obtain ⟨hn, hne⟩ := hvl v mem_cons_self
    obtain ⟨hid, hp⟩ := isSdNameText_splitSdName hn hne
    have hm := ih (fun v hv => hvl v (mem_cons_of_mem _ hv)) (f.append [] v.1 v.2)
    dsimp only at hm ⊢
    rw [foldl_cons, hm, f.append_eq v.2 mk.eta.symm hid hp]
    have hs : sdSplits (v :: values) =
        (((splitSdName v.1).1, (splitSdName v.1).2), v.2) :: sdSplits values := rfl
    rw [hs, sdTextFrom_group]
    simp only [append_assoc]

/-! ### Texts determine their elements -/

/-- A text up to the first stop is determined by what it is followed by. -/
theorem append_cons_inj {p : UInt8 → Bool} {a b : Bytes} {x y : UInt8} {r t : Bytes}
    (ha : ∀ c ∈ a, p c = true) (hb : ∀ c ∈ b, p c = true) (hx : p x = false) (hy : p y = false)
    (heq : a ++ x :: r = b ++ y :: t) : a = b ∧ x :: r = y :: t := by
  have ht := congrArg (List.takeWhile p) heq
  rw [takeWhile_append_of_pos ha, takeWhile_append_of_pos hb,
    takeWhile_cons_of_neg (by simp [hx]), takeWhile_cons_of_neg (by simp [hy]),
    append_nil, append_nil] at ht
  subst ht
  exact ⟨rfl, append_cancel_left heq⟩

theorem sdataEscaped_inj {v w r t : Bytes}
    (heq : sdataEscaped v ++ 0x22 :: r = sdataEscaped w ++ 0x22 :: t) : v = w ∧ r = t := by
  -- The parser reads both values from the same text.
  have hv : sdValue (v.length + w.length) false _
      ((sdataEscaped v).length + (sdataEscaped w).length + 1) = _ :=
    sdValue_eq r (Nat.le_add_right v.length w.length) (by omega)
  have hw : sdValue (v.length + w.length) false _
      ((sdataEscaped v).length + (sdataEscaped w).length + 1) = _ :=
    sdValue_eq t (Nat.le_add_left w.length v.length) (by omega)
  rw [heq, hw] at hv
  have hs := congrArg snd (Option.some.inj hv)
  have hr : 0x22 :: t = 0x22 :: r := congrArg (fun p : Bytes × Cursor => p.2.rest) hs
  exact ⟨(congrArg fst hs).symm, (List.cons.inj hr).2.symm⟩

theorem sdParams_inj {params params' : List (Bytes × Bytes)} {r t : Bytes}
    (hpr : ∀ p ∈ params, IsSdNameText p.1) (hpr' : ∀ p ∈ params', IsSdNameText p.1)
    (heq : params.flatMap sdParamText ++ 0x5d :: r = params'.flatMap sdParamText ++ 0x5d :: t) :
    params = params' ∧ r = t := by
  have hc : ∀ (p : Bytes × Bytes) (more : Bytes), 0x5d :: r ≠ sdParamText p ++ more ∧
      0x5d :: t ≠ sdParamText p ++ more := by
    intro p more
    exact ⟨fun h => absurd (List.cons.inj h).1 (by decide),
      fun h => absurd (List.cons.inj h).1 (by decide)⟩
  induction params generalizing params' with
  | nil =>
    cases params' with
    | nil => exact ⟨rfl, (List.cons.inj heq).2⟩
    | cons param' params' =>
      rw [flatMap_cons, append_assoc] at heq
      exact absurd heq (hc _ _).1
  | cons param params ih =>
    cases params' with
    | nil =>
      rw [flatMap_cons, append_assoc] at heq
      exact absurd heq.symm (hc _ _).2
    | cons param' params' =>
      have ht : ∀ (p : Bytes × Bytes) (more : Bytes), sdParamText p ++ more =
          0x20 :: (p.1 ++ 0x3d :: 0x22 :: (sdataEscaped p.2 ++ 0x22 :: more)) := by
        intro p more
        simp [sdParamText]
      have hn : ∀ {name : Bytes}, IsSdNameText name → ∀ b ∈ name, (b != 0x3d) = true := by
        intro name hn b hb
        have hby := (hn b hb).1
        simp only [isSdNameByte, Bool.and_eq_true] at hby
        exact hby.1.1.1.2
      rw [flatMap_cons, flatMap_cons, append_assoc, append_assoc, ht, ht] at heq
      obtain ⟨hs, hrs⟩ := append_cons_inj (hn (hpr param mem_cons_self))
        (hn (hpr' param' mem_cons_self)) rfl rfl (List.cons.inj heq).2
      obtain ⟨hv, hm⟩ := sdataEscaped_inj (List.cons.inj (List.cons.inj hrs).2).2
      obtain ⟨rfl, hr⟩ := ih (fun p hp => hpr p (mem_cons_of_mem _ hp))
        (fun p hp => hpr' p (mem_cons_of_mem _ hp)) hm
      exact ⟨by rw [Prod.ext hs hv], hr⟩

/-- The names of elements and parameters are made of the bytes of names. -/
def NamesText (elements : List RawElement) : Prop :=
  ∀ e ∈ elements, IsSdNameText e.1 ∧ ∀ p ∈ e.2, IsSdNameText p.1

theorem sdText_inj {elements elements' : List RawElement} (hn : NamesText elements)
    (hn' : NamesText elements') (heq : sdText elements = sdText elements') :
    elements = elements' := by
  induction elements generalizing elements' with
  | nil =>
    cases elements' with
    | nil => rfl
    | cons element' elements' => cases heq
  | cons element elements ih =>
    cases elements' with
    | nil => cases heq
    | cons element' elements' =>
      obtain ⟨hid, hp⟩ := hn element mem_cons_self
      obtain ⟨hid', hp'⟩ := hn' element' mem_cons_self
      have hs : ∀ {name : Bytes}, IsSdNameText name → ∀ b ∈ name,
          (!(b == 0x20 || b == 0x5d)) = true := by
        intro name hnm b hb
        have hby := (hnm b hb).1
        simp only [isSdNameByte, Bool.and_eq_true, bne_iff_ne] at hby
        simp [hby.1.1.2, hby.1.2]
      have hd := congrArg (List.drop 1) heq
      have hbh := sdText_drop element elements []
      have hbh' := sdText_drop element' elements' []
      rw [append_nil, append_nil] at hbh hbh'
      rw [hbh, hbh'] at hd
      obtain ⟨z, rest, hz, hzs, -⟩ := paramsText_cons element.2 (sdText elements)
      obtain ⟨z', rest', hz', hzs', -⟩ := paramsText_cons element'.2 (sdText elements')
      rw [hz, hz'] at hd
      obtain ⟨hsm, hr⟩ := append_cons_inj (hs hid) (hs hid') (by simp [hzs])
        (by simp [hzs']) hd
      rw [← hz, ← hz'] at hr
      obtain ⟨hsp, hm⟩ := sdParams_inj hp hp' hr
      rw [Prod.ext hsm hsp, ih (fun e he => hn e (mem_cons_of_mem _ he))
        (fun e he => hn' e (mem_cons_of_mem _ he)) hm]

/-! ### Elements of values -/

/-- The names without their SDATA prefix and the values under which an element is stored. -/
def rawValues (element : RawElement) : List (Bytes × Bytes) :=
  if element.2 = [] then [(element.1, [])]
  else element.2.map fun param => (element.1 ++ 0x2e :: param.1, param.2)

/-- The values of an element with their id and parameter. -/
def rawSplits (element : RawElement) : List SplitValue :=
  if element.2 = [] then [((element.1, []), [])]
  else element.2.map fun param => ((element.1, param.1), param.2)

theorem mem_sdAttach {id : Bytes} {own : List (Bytes × Bytes)} {elements : List RawElement}
    {e : RawElement} (he : e ∈ sdAttach id own elements) :
    e ∈ elements ∨ e = (id, own) ∨ ∃ params, (id, params) ∈ elements ∧ e = (id, own ++ params) := by
  cases elements with
  | nil => exact .inr (.inl (mem_singleton.mp he))
  | cons next others =>
    obtain ⟨next, params⟩ := next
    dsimp only [sdAttach] at he
    by_cases hn : next = id
    · subst hn
      rw [if_pos rfl] at he
      rcases mem_cons.mp he with rfl | he
      · exact .inr (.inr ⟨params, mem_cons_self, rfl⟩)
      · exact .inl (mem_cons_of_mem _ he)
    · rw [if_neg hn] at he
      rcases mem_cons.mp he with rfl | he
      · exact .inr (.inl rfl)
      · exact .inl he

/-- The parameters of a group are those of its values; a group without any comes from values without
a parameter. -/
theorem mem_sdGroup {values : List SplitValue} {e : RawElement} (he : e ∈ sdGroup values) :
    (∀ p ∈ e.2, ((e.1, p.1), p.2) ∈ values ∧ p.1 ≠ []) ∧
      (e.2 = [] → ∃ v, ((e.1, []), v) ∈ values) := by
  induction values generalizing e with
  | nil => cases he
  | cons v values ih =>
    obtain ⟨⟨id, param⟩, value⟩ := v
    have ho : ∀ p ∈ (if param = [] then [] else [(param, value)]), p = (param, value) ∧
      param ≠ [] := by
      intro p hp
      split at hp
      · cases hp
      case isFalse hne => exact ⟨mem_singleton.mp hp, hne⟩
    rcases mem_sdAttach he with hm | rfl | ⟨params, hm, rfl⟩
    · obtain ⟨hpr, hem⟩ := ih hm
      exact ⟨fun p hp => ⟨mem_cons_of_mem _ (hpr p hp).1, (hpr p hp).2⟩,
        fun h => (hem h).imp fun v hv => mem_cons_of_mem _ hv⟩
    · refine ⟨fun p hp => ?_, fun hn => ?_⟩
      · obtain ⟨rfl, hne⟩ := ho p hp
        exact ⟨mem_cons_self, hne⟩
      · split at hn
        case isTrue hpa => exact ⟨value, by rw [hpa]; exact mem_cons_self⟩
        case isFalse hpa => cases hn
    · obtain ⟨hpr, hem⟩ := ih hm
      refine ⟨fun p hp => ?_, fun hn => ?_⟩
      · rcases mem_append.mp hp with hp | hp
        · obtain ⟨rfl, hne⟩ := ho p hp
          exact ⟨mem_cons_self, hne⟩
        · exact ⟨mem_cons_of_mem _ (hpr p hp).1, (hpr p hp).2⟩
      · obtain ⟨-, hpr⟩ := append_eq_nil_iff.mp hn
        obtain ⟨v, hv⟩ := hem hpr
        exact ⟨v, mem_cons_of_mem _ hv⟩

/-- The values of an element are grouped to it, if the next element has another id. -/
theorem sdGroup_rawSplits {element : RawElement} (hpr : ∀ p ∈ element.2, p.1 ≠ [])
    {values : List SplitValue} (hn : ∀ e ∈ (sdGroup values).head?, e.1 ≠ element.1) :
    sdGroup (rawSplits element ++ values) = element :: sdGroup values := by
  obtain ⟨id, params⟩ := element
  have ha : ∀ own, sdAttach id own (sdGroup values) = (id, own) :: sdGroup values := by
    intro own
    cases hv : sdGroup values with
    | nil => rfl
    | cons next others =>
      rw [hv] at hn
      exact if_neg (hn next rfl)
  unfold rawSplits
  split
  case isTrue hnl =>
    subst hnl
    exact ha []
  case isFalse hne =>
    induction params with
    | nil => exact absurd rfl hne
    | cons param params ih =>
      have hpa : param.1 ≠ [] := hpr param mem_cons_self
      have hg : sdGroup ((param :: params).map (fun p => ((id, p.1), p.2)) ++ values) =
          sdAttach id [param] (sdGroup (params.map (fun p => ((id, p.1), p.2)) ++ values)) := by
        rw [map_cons, cons_append, sdGroup, if_neg hpa]
      rw [hg]
      by_cases hpr' : params = []
      · subst hpr'
        exact ha [param]
      · rw [ih (fun p hp => hpr p (mem_cons_of_mem _ hp)) hn hpr']
        exact if_pos rfl

/-- A dot is nowhere but in the ids of elements with parameters. -/
def RawSplittable (element : RawElement) : Prop :=
  (∀ p ∈ element.2, 0x2e ∉ p.1) ∧ (element.2 = [] → 0x2e ∉ element.1)

theorem sdSplits_rawValues {element : RawElement} (hs : RawSplittable element)
    (hne : element.1 ≠ []) : sdSplits (rawValues element) = rawSplits element := by
  unfold sdSplits rawValues rawSplits
  split
  case isTrue hn => rw [map_singleton, splitSdName_of_notMem (hs.2 hn) hne]
  case isFalse =>
    rw [List.map_map]
    refine map_congr_left fun p hp => ?_
    exact congrArg (fun parts => (parts, p.2)) (splitSdName_dot element.1 (hs.1 p hp))

/-! ### Storing values -/

namespace LogMessage

def setValues (m : LogMessage) (values : List (ValueName × Bytes)) : LogMessage :=
  values.foldl (fun m v => m.setValue v.1 v.2) m

variable {values : List (ValueName × Bytes)}

theorem mem_sdata_setValues {m : LogMessage} {name : ValueName}
    (hn : name ∈ (m.setValues values).sdata) : name ∈ m.sdata ∨ name ∈ values.map Prod.fst := by
  induction values generalizing m with
  | nil => exact .inl hn
  | cons v values ih =>
    rcases ih hn with hm | hm
    · unfold setValue at hm
      dsimp only at hm
      split at hm
      · rcases mem_append.mp hm with hm | hm
        · exact .inl hm
        · exact .inr (mem_cons.mpr (.inl (mem_singleton.mp hm)))
      · exact .inl hm
    · exact .inr (mem_cons_of_mem _ hm)

theorem setValues_of_notMem {m : LogMessage} {name : ValueName}
    (hn : name ∉ values.map Prod.fst) : (m.setValues values).values name = m.values name := by
  induction values generalizing m with
  | nil => rfl
  | cons v values ih =>
    rw [map_cons, mem_cons, not_or] at hn
    exact (ih hn.2).trans (update_of_ne hn.1 _ _)

/-- New SDATA values are appended in their order. -/
theorem setValues_new {m : LogMessage}
    (hn : (values.map Prod.fst).Nodup) (hs : ∀ v ∈ values, v.1.isSdata = true)
    (hnw : ∀ v ∈ values, m.values v.1 = none) (hl : m.sdata.length + values.length ≤ 255) :
    (m.setValues values).sdata = m.sdata ++ values.map Prod.fst ∧
      ∀ v ∈ values, (m.setValues values).values v.1 = some v.2 := by
  induction values generalizing m with
  | nil => exact ⟨(append_nil _).symm, nofun⟩
  | cons v values ih =>
    rw [map_cons, nodup_cons] at hn
    rw [length_cons] at hl
    have hv := hnw v mem_cons_self
    have ha : (m.setValue v.1 v.2).sdata = m.sdata ++ [v.1] :=
      if_pos ⟨by rw [hv]; rfl, hs v mem_cons_self, by omega⟩
    have ho : ∀ w ∈ values, (m.setValue v.1 v.2).values w.1 = none := by
      intro w hw
      have hne : w.1 ≠ v.1 := fun h => hn.1 (h ▸ List.mem_map_of_mem hw)
      exact (update_of_ne hne _ _).trans (hnw w (mem_cons_of_mem _ hw))
    obtain ⟨hal, hvl⟩ := ih hn.2 (fun w hw => hs w (mem_cons_of_mem _ hw)) ho
      (by rw [ha, length_append, length_singleton]; omega)
    refine ⟨?_, fun w hw => ?_⟩
    · change ((m.setValue v.1 v.2).setValues values).sdata = _
      rw [hal, ha, append_assoc, map_cons, singleton_append]
    · rcases mem_cons.mp hw with rfl | hw
      · exact (setValues_of_notMem hn.1).trans (update_self _ _ _)
      · exact hvl w hw

end LogMessage

theorem setElement_eq (host : Host) (m : LogMessage) (element : RawElement) :
    m.setElement host element =
      m.setValues ((rawValues element).map fun v => (.named (sdValueName host v.1), v.2)) := by
  unfold setElement setValues rawValues
  split
  · rfl
  · rw [List.map_map, foldl_map]
    rfl

theorem foldl_setElement_eq (host : Host) (m : LogMessage) (elements : List RawElement) :
    elements.foldl (LogMessage.setElement host) m =
      m.setValues
      ((elements.flatMap rawValues).map fun v => (.named (sdValueName host v.1), v.2)) := by
  induction elements generalizing m with
  | nil => rfl
  | cons element elements ih =>
    rw [foldl_cons, ih, setElement_eq, flatMap_cons, map_append]
    exact foldl_append.symm

/-! ### Round trips -/

def sdataName (name : Bytes) : ValueName := .named (sdPrefix ++ name)

theorem isSdata_sdataName (name : Bytes) : (sdataName name).isSdata = true :=
  isPrefixOf_iff_prefix.mpr (prefix_append _ _)

theorem sdataName_inj {a b : Bytes} (h : sdataName a = sdataName b) : a = b :=
  append_cancel_left (ValueName.named.inj h)

namespace SdElements

variable (es : SdElements)

def raw : List RawElement := es.elements.map SdElement.raw

def values : List (Bytes × Bytes) := es.raw.flatMap rawValues

/-- The values fit into the array of the parser. -/
def Fits (opts : ParseOptions) : Prop :=
  ∀ e ∈ es.elements, ∀ p ∈ e.params, p.2.length ≤ opts.sdataParamValueMax

/-- No parameter has a dot in its name, nor has an element without parameters; and there is place
for every id with one of its parameters. -/
structure Recoverable : Prop where
  params : ∀ e ∈ es.elements, ∀ p ∈ e.params, 0x2e ∉ p.1.bytes
  alone : ∀ e ∈ es.elements, e.params = [] → 0x2e ∉ e.id.bytes
  length : ∀ e ∈ es.elements, ∀ p ∈ e.params, e.id.bytes.length + p.1.bytes.length ≤ 57

end SdElements

/-- The SDATA of a message are the elements. -/
structure LogMessage.Holds (m : LogMessage) (es : SdElements) : Prop where
  sdata : m.sdata = es.values.map fun v => sdataName v.1
  values : ∀ v ∈ es.values, m.values (sdataName v.1) = some v.2
  limit : m.sdata.length ≤ 255

/-- The SDATA of a message are written as the elements, and a message that gets them from this text
holds them again, whatever follows the text and the array of the parser in memory. -/
def SdElements.RoundTrips (es : SdElements) (m : LogMessage) (host : Host) (opts : ParseOptions) :
    Prop :=
  m.formatSdata [] = sdText es.raw ∧
    ∀ (overrun : Bytes → Bytes) (tail : Bytes) (s : Parse),
      s.msg.sdata = [] → (∀ name : ValueName, name.isSdata → s.msg.values name = none) →
      ∃ s', (s.moveTo ⟨m.formatSdata [] ++ tail, (m.formatSdata []).length⟩).parseSd
          { host with overrun } opts = some (true, s') ∧
        s'.cursor = ⟨tail, 0⟩ ∧ s'.msg.Holds es

namespace SdElements

variable {es : SdElements}

theorem mem_values {v : Bytes × Bytes} :
    v ∈ es.values ↔ ∃ e ∈ es.elements, (e.params = [] ∧ v = (e.id.bytes, [])) ∨
      ∃ p ∈ e.params, v = (e.id.bytes ++ 0x2e :: p.1.bytes, p.2) := by
  have he : ∀ e : SdElement, v ∈ rawValues e.raw ↔ (e.params = [] ∧ v = (e.id.bytes, [])) ∨
      ∃ p ∈ e.params, v = (e.id.bytes ++ 0x2e :: p.1.bytes, p.2) := by
    intro e
    unfold rawValues SdElement.raw
    by_cases hn : e.params = []
    · simp [hn]
    · rw [if_neg (by simpa using hn)]
      simp only [List.map_map, List.mem_map, hn, false_and, false_or]
      exact exists_congr fun p => and_congr_right fun _ => eq_comm
  unfold values raw
  simp only [mem_flatMap, List.mem_map, exists_exists_and_eq_and, he]

theorem isSdNameText_values {v : Bytes × Bytes} (hv : v ∈ es.values) :
    IsSdNameText v.1 ∧ v.1 ≠ [] ∧ ∀ b ∈ v.1, b ≠ 0 := by
  obtain ⟨e, -, ⟨-, rfl⟩ | ⟨p, -, rfl⟩⟩ := mem_values.mp hv
  · refine ⟨e.id.isText, fun h => ?_, e.id.ne_zero⟩
    have hp := e.id.length_pos
    dsimp only at h
    rw [h] at hp
    cases hp
  · refine ⟨fun b hb => ?_, by simp, fun b hb => ?_⟩
    · rcases mem_append.mp hb with hb | hb
      · exact e.id.isText b hb
      · rcases mem_cons.mp hb with rfl | hb
        · exact ⟨rfl, by decide⟩
        · exact p.1.isText b hb
    · rcases mem_append.mp hb with hb | hb
      · exact e.id.ne_zero b hb
      · rcases mem_cons.mp hb with rfl | hb
        · decide
        · exact p.1.ne_zero b hb

theorem namesText_raw : NamesText es.raw := by
  intro e he
  obtain ⟨e, -, rfl⟩ := List.mem_map.mp he
  refine ⟨e.id.isText, fun p hp => ?_⟩
  obtain ⟨p, -, rfl⟩ := List.mem_map.mp hp
  exact p.1.isText

theorem namesText_group : NamesText (sdGroup (sdSplits es.values)) := by
  have hs : ∀ v ∈ sdSplits es.values, IsSdNameText v.1.1 ∧ IsSdNameText v.1.2 := by
    intro v hv
    obtain ⟨w, hw, rfl⟩ := List.mem_map.mp hv
    obtain ⟨ht, hne, -⟩ := isSdNameText_values hw
    exact isSdNameText_splitSdName ht hne
  intro e he
  obtain ⟨hpr, hem⟩ := mem_sdGroup he
  refine ⟨?_, fun p hp => (hs _ (hpr p hp).1).2⟩
  cases hn : e.2 with
  | nil =>
    obtain ⟨v, hv⟩ := hem hn
    exact (hs _ hv).1
  | cons p params => exact (hs _ (hpr p (hn ▸ mem_cons_self)).1).1

end SdElements

/-- The values are written in groups of the same id. -/
theorem LogMessage.Holds.formatSdata_eq {m : LogMessage} {es : SdElements} (hm : m.Holds es) :
    m.formatSdata [] = sdText (sdGroup (sdSplits es.values)) := by
  have hf : ∀ f : SdataFormat,
      m.sdata.foldl (fun f name => f.append [] name.sdName (m.getValue name)) f =
        es.values.foldl (fun f v => f.append [] v.1 v.2) f := by
    intro f
    rw [hm.sdata, foldl_map]
    refine foldl_ext _ _ f fun f v hv => ?_
    have hn : (sdataName v.1).sdName = v.1 := drop_left
    have hvl : m.getValue (sdataName v.1) = v.2 := by
      unfold getValue
      rw [hm.values v hv]
      rfl
    rw [hn, hvl]
  have hnn : ∀ elements, sdTextFrom none elements = sdText elements := by
    intro elements
    cases elements with
    | nil => rfl
    | cons e elements => rfl
  unfold formatSdata
  dsimp only
  rw [hf]
  simp only [bne_self_eq_false, Bool.and_false, Bool.false_eq_true, if_false, append_nil]
  refine (foldl_append_eq (fun v hv => ?_) _).trans (hnn _)
  obtain ⟨ht, hne, -⟩ := isSdNameText_values hv
  exact ⟨ht, hne⟩

namespace SdElements

variable {es : SdElements}

theorem splittable_iff : (∀ e ∈ es.raw, RawSplittable e) ↔
    (∀ e ∈ es.elements, ∀ p ∈ e.params, 0x2e ∉ p.1.bytes) ∧
      ∀ e ∈ es.elements, e.params = [] → 0x2e ∉ e.id.bytes := by
  unfold raw RawSplittable SdElement.raw
  simp only [List.forall_mem_map, map_eq_nil_iff]
  exact ⟨fun h => ⟨fun e he => (h e he).1, fun e he => (h e he).2⟩,
    fun h e he => ⟨h.1 e he, h.2 e he⟩⟩

theorem raw_id_ne {e : RawElement} (he : e ∈ es.raw) : e.1 ≠ [] ∧ ∀ p ∈ e.2, p.1 ≠ [] := by
  have hne : ∀ name : SdName, name.bytes ≠ [] := by
    intro name h
    have hps := name.length_pos
    rw [h] at hps
    cases hps
  obtain ⟨e, -, rfl⟩ := List.mem_map.mp he
  refine ⟨hne e.id, fun p hp => ?_⟩
  obtain ⟨p, -, rfl⟩ := List.mem_map.mp hp
  exact hne p.1

theorem sdSplits_values (h : ∀ e ∈ es.raw, RawSplittable e) :
    sdSplits es.values = es.raw.flatMap rawSplits := by
  unfold values sdSplits
  rw [map_flatMap]
  exact flatMap_congr fun e he => sdSplits_rawValues (h e he) (raw_id_ne he).1

theorem group_eq (h : ∀ e ∈ es.raw, RawSplittable e) : sdGroup (sdSplits es.values) = es.raw := by
  have hg : ∀ elements : List RawElement, (elements.map fst).Nodup →
      (∀ e ∈ elements, ∀ p ∈ e.2, p.1 ≠ []) → sdGroup (elements.flatMap rawSplits) = elements := by
    intro elements hn hp
    induction elements with
    | nil => rfl
    | cons e elements ih =>
      rw [map_cons, nodup_cons] at hn
      have hm := ih hn.2 fun e he => hp e (mem_cons_of_mem _ he)
      rw [flatMap_cons, sdGroup_rawSplits (hp e mem_cons_self), hm]
      rw [hm]
      rintro next hnx heq
      refine hn.1 (heq ▸ List.mem_map_of_mem ?_)
      exact List.mem_of_mem_head? hnx
  rw [sdSplits_values h]
  refine hg es.raw ?_ fun e he => (raw_id_ne he).2
  have hi : es.raw.map fst = es.elements.map fun e => e.id.bytes := by
    unfold raw
    rw [List.map_map]
    rfl
  rw [hi]
  exact es.distinct

section

variable (h : sdGroup (sdSplits es.values) = es.raw)
include h

/-- If the groups are the elements, then no parameter has a dot. -/
theorem params_of_group_eq {e : SdElement}
    (he : e ∈ es.elements) {p : SdName × Bytes} (hp : p ∈ e.params) : 0x2e ∉ p.1.bytes := by
  have hr : e.raw ∈ sdGroup (sdSplits es.values) := h ▸ List.mem_map_of_mem he
  obtain ⟨v, -, hv⟩ := List.mem_map.mp
    ((mem_sdGroup hr).1 (p.1.bytes, p.2) (List.mem_map_of_mem hp)).1
  have hs : (splitSdName v.1).2 = p.1.bytes := congrArg (fun v : SplitValue => v.1.2) hv
  rw [← hs]
  exact dot_notMem_splitSdName v.1

/-- If the groups are the elements and one without parameters has a dot, then it comes from another
one whose last character is a dot. -/
theorem alone_of_group_eq {e : SdElement}
    (he : e ∈ es.elements) (hn : e.params = []) (hd : 0x2e ∈ e.id.bytes) :
    ∃ e' ∈ es.elements, e'.params = [] ∧ 0x2e ∈ e'.id.bytes ∧
      e'.id.bytes.length = e.id.bytes.length + 1 := by
  have hr : e.raw ∈ sdGroup (sdSplits es.values) := h ▸ List.mem_map_of_mem he
  obtain ⟨value, hvl⟩ := (mem_sdGroup hr).2 (by simp [SdElement.raw, hn])
  obtain ⟨v, hv, hs⟩ := List.mem_map.mp hvl
  have hpr : splitSdName v.1 = (e.id.bytes, []) := congrArg fst hs
  obtain ⟨e', he', ⟨hn', rfl⟩ | ⟨p, hp, rfl⟩⟩ := mem_values.mp hv
  · by_cases hd' : 0x2e ∈ e'.id.bytes
    · refine ⟨e', he', hn', hd', ?_⟩
      obtain ⟨ha, -⟩ := splitSdName_of_mem hd'
      rw [hpr] at ha
      rw [ha, length_append]
      rfl
    · have hid := isSdNameText_values hv
      rw [splitSdName_of_notMem hd' hid.2.1] at hpr
      have hsm : e'.id.bytes = e.id.bytes := congrArg fst hpr
      exact absurd (hsm ▸ hd) hd'
  · have hps := p.1.length_pos
    rw [splitSdName_dot _ (params_of_group_eq h he' hp)] at hpr
    have hem : p.1.bytes = [] := congrArg snd hpr
    rw [hem] at hps
    cases hps

/-- A dot in an element without parameters would be in longer and longer ones. -/
theorem splittable_of_group_eq : ∀ e ∈ es.raw, RawSplittable e := by
  refine splittable_iff.mpr ⟨fun e he p hp => params_of_group_eq h he hp, fun e he hn hd => ?_⟩
  have hl : ∀ n : ℕ, ∃ e ∈ es.elements, e.params = [] ∧ 0x2e ∈ e.id.bytes ∧
      n ≤ e.id.bytes.length := by
    intro n
    induction n with
    | zero => exact ⟨e, he, hn, hd, Nat.zero_le _⟩
    | succ n ih =>
      obtain ⟨e, he, hn, hd, hln⟩ := ih
      obtain ⟨e', he', hn', hd', hln'⟩ := alone_of_group_eq h he hn hd
      exact ⟨e', he', hn', hd', by omega⟩
  obtain ⟨e, -, -, -, hln⟩ := hl 33
  have hle := e.id.length_le
  omega

end

theorem formatSdata_eq_iff {m : LogMessage} (hm : m.Holds es) :
    m.formatSdata [] = sdText es.raw ↔ ∀ e ∈ es.raw, RawSplittable e := by
  rw [hm.formatSdata_eq]
  exact ⟨fun ht => splittable_of_group_eq (sdText_inj namesText_group namesText_raw ht),
    fun h => congrArg sdText (group_eq h)⟩

theorem elementFits {opts : ParseOptions} (hf : es.Fits opts) :
    ∀ e ∈ es.raw, ElementFits opts e := by
  intro e he
  obtain ⟨e, hm, rfl⟩ := List.mem_map.mp he
  refine ⟨e.id.isText, e.id.length_pos, e.id.length_le, fun p hp => ?_⟩
  obtain ⟨p, hpm, rfl⟩ := List.mem_map.mp hp
  exact ⟨p.1.isText, p.1.length_pos, p.1.length_le, hf e hm p hpm⟩

/-- The array of the parser has place for the name. -/
theorem sdValueName_eq (host : Host) {v : Bytes × Bytes} (hv : v ∈ es.values)
    (hl : v.1.length ≤ 58) : sdValueName host v.1 = sdPrefix ++ v.1 := by
  have hn : (sdPrefix ++ v.1).takeWhile (· != 0) = sdPrefix ++ v.1 := by
    have hp : ∀ b ∈ sdPrefix, (b != 0) = true := List.all_eq_true.mp rfl
    have ha : ∀ b ∈ sdPrefix ++ v.1, (b != 0) = true := by
      intro b hb
      rcases mem_append.mp hb with hb | hb
      · exact hp b hb
      · exact bne_iff_ne.mpr ((isSdNameText_values hv).2.2 b hb)
    have ht : (sdPrefix ++ v.1 ++ []).takeWhile (· != 0) = _ :=
      takeWhile_append_of_pos ha
    rwa [append_nil, takeWhile_nil, append_nil] at ht
  unfold sdValueName
  rw [hn]
  refine if_pos ?_
  rw [length_append]
  change 7 + v.1.length < 66
  omega

/-- Different parameters are stored under different names. -/
theorem nodup_values (h : ∀ e ∈ es.raw, RawSplittable e) : (es.values.map Prod.fst).Nodup := by
  have hk : ((es.raw.flatMap rawSplits).map fst).Nodup := by
    have hf : ∀ e : RawElement, ∀ key ∈ (rawSplits e).map fst, key.1 = e.1 := by
      intro e key hky
      obtain ⟨v, hv, rfl⟩ := List.mem_map.mp hky
      unfold rawSplits at hv
      split at hv
      · rw [mem_singleton.mp hv]
      · obtain ⟨p, -, rfl⟩ := List.mem_map.mp hv
        rfl
    rw [map_flatMap, nodup_flatMap]
    refine ⟨fun e he => ?_, ?_⟩
    · obtain ⟨e, -, rfl⟩ := List.mem_map.mp he
      unfold rawSplits SdElement.raw
      split
      · exact nodup_singleton _
      · refine List.Nodup.of_map snd ?_
        rw [List.map_map, List.map_map, List.map_map]
        exact e.distinct
    · have hi : es.raw.Pairwise fun e e' => e.1 ≠ e'.1 := by
        unfold raw
        rw [pairwise_map]
        exact pairwise_map.mp es.distinct
      refine hi.imp fun {e e'} hne key hky hky' => hne ?_
      rw [← hf e key hky, ← hf e' key hky']
  rw [← sdSplits_values h] at hk
  unfold sdSplits at hk
  rw [List.map_map] at hk
  refine List.Nodup.of_map splitSdName ?_
  rw [List.map_map]
  exact hk

/-- The elements are parsed from their text, and all their values are stored. -/
theorem Recoverable.holds {es : SdElements} (h : es.Recoverable) {m : LogMessage} (hm : m.Holds es)
    (host : Host) {start : LogMessage} (hs : start.sdata = [])
    (hnw : ∀ name : ValueName, name.isSdata → start.values name = none) :
    (es.raw.foldl (LogMessage.setElement host) start).Holds es := by
  have hsp := splittable_iff.mpr ⟨h.params, h.alone⟩
  have hst : es.values.map (fun v => (ValueName.named (sdValueName host v.1), v.2)) =
      es.values.map fun v => (sdataName v.1, v.2) := by
    refine map_congr_left fun v hv => ?_
    rw [sdValueName_eq host hv, sdataName]
    obtain ⟨e, he, ⟨-, rfl⟩ | ⟨p, hp, rfl⟩⟩ := mem_values.mp hv
    · have hle := e.id.length_le
      dsimp only
      omega
    · have hle := h.length e he p hp
      rw [length_append, length_cons]
      omega
  have hl := hm.limit
  rw [hm.sdata, length_map] at hl
  have hn : (es.values.map fun v => (sdataName v.1, v.2)).map fst =
      es.values.map fun v => sdataName v.1 := by
    rw [List.map_map]
    rfl
  have hnd : ((es.values.map fun v => (sdataName v.1, v.2)).map fst).Nodup := by
    have hmp : (es.values.map fun v => sdataName v.1) = (es.values.map fst).map sdataName := by
      rw [List.map_map]
      rfl
    rw [hn, hmp]
    exact (nodup_values hsp).map fun a b => sdataName_inj
  obtain ⟨ha, hvl⟩ := setValues_new hnd
    (List.forall_mem_map.mpr fun v _ => isSdata_sdataName v.1)
    (List.forall_mem_map.mpr fun v _ => hnw _ (isSdata_sdataName v.1))
    (by rw [hs]; simpa using hl)
  rw [hs, nil_append, hn] at ha
  rw [foldl_setElement_eq]
  change (start.setValues (es.values.map _)).Holds es
  rw [hst]
  refine ⟨ha, List.forall_mem_map.mp hvl, ?_⟩
  rw [ha, length_map]
  exact hl

/-- What follows the array is part of a name for which there is no place. -/
theorem length_of_holds {es : SdElements} {host : Host}
    (hhs : ∀ name, 100 ≤ (host.overrun name).length)
    {start : LogMessage} (hs : start.sdata = [])
    (hh : (es.raw.foldl (LogMessage.setElement host) start).Holds es) :
    ∀ e ∈ es.elements, ∀ p ∈ e.params, e.id.bytes.length + p.1.bytes.length ≤ 57 := by
  intro e he p hp
  by_contra hlong
  have hv := mem_values.mpr ⟨e, he, .inr ⟨p, hp, rfl⟩⟩
  have hm : sdataName (e.id.bytes ++ 0x2e :: p.1.bytes) ∈
      (es.raw.foldl (setElement host) start).sdata := by
    rw [hh.sdata]
    exact List.mem_map_of_mem hv
  rw [foldl_setElement_eq] at hm
  have hst := (mem_sdata_setValues hm).resolve_left (hs ▸ not_mem_nil)
  rw [List.map_map] at hst
  obtain ⟨w, -, hw⟩ := List.mem_map.mp hst
  have hn := ValueName.named.inj hw
  have hl := congrArg List.length hn
  have hid := e.id.length_le
  have hpr := p.1.length_le
  rw [length_append, length_append, length_cons] at hl
  change _ = 7 + _ at hl
  unfold sdValueName at hl
  dsimp only at hl
  split at hl
  · omega
  · have ho := hhs (((sdPrefix ++ w.1).takeWhile (· != 0)).take 66)
    rw [length_append] at hl
    omega

end SdElements

/-- The elements of a message survive being formatted and parsed if and only if no parameter and no
element without parameters has a dot in its name, and no id and parameter together have more than 57
characters. -/
theorem sdata_roundTrip {es : SdElements} {m : LogMessage} (hm : m.Holds es) {opts : ParseOptions}
    (hfits : es.Fits opts) (host : Host) : es.RoundTrips m host opts ↔ es.Recoverable := by
  constructor
  · rintro ⟨ht, hpr⟩
    obtain ⟨hp, ha⟩ :=
      splittable_iff.mp ((formatSdata_eq_iff hm).mp ht)
    refine ⟨hp, ha, ?_⟩
    have hl : ∀ name : Bytes, 100 ≤ (List.replicate 100 (0x78 : UInt8)).length :=
      fun _ => Nat.le_refl 100
    obtain ⟨s', hs', -, hh⟩ := hpr (fun _ => List.replicate 100 0x78) []
      ⟨⟨[], 0⟩, {}, {}⟩ rfl fun _ _ => rfl
    rw [ht, parseSd_eq (elementFits hfits)] at hs'
    obtain rfl := congrArg snd (Option.some.inj hs')
    exact length_of_holds hl rfl hh
  · intro h
    have ht := (formatSdata_eq_iff hm).mpr
      (splittable_iff.mpr ⟨h.params, h.alone⟩)
    refine ⟨ht, fun overrun tail s hs hn => ?_⟩
    rw [ht]
    exact ⟨_, parseSd_eq (elementFits hfits) tail s, rfl, h.holds hm _ hs hn⟩

/-- `[a.b c="]"]` -/
def quotedElements : SdElements where
  elements := [
    { id := ⟨[0x61, 0x2e, 0x62], by decide, by decide, rfl⟩
      params := [(⟨[0x63], by decide, by decide, rfl⟩, [0x5d])]
      distinct := nodup_singleton _ }]
  distinct := nodup_singleton _

def messageOf (es : SdElements) : LogMessage :=
  (({} : LogMessage)).setValues (es.values.map fun v => (sdataName v.1, v.2))

/-- The zone of the host does not matter for structured data. -/
def utcHost : Host := { zone := .utc, now := 0 }

theorem sdata_roundTrip_quotedElements :
    quotedElements.RoundTrips (messageOf quotedElements) utcHost {} := by
  have hm : (messageOf quotedElements).Holds quotedElements :=
    ⟨by decide +kernel, by decide +kernel, by decide +kernel⟩
  have hf : quotedElements.Fits {} := by
    unfold SdElements.Fits
    decide +kernel
  exact (sdata_roundTrip hm hf utcHost).mpr ⟨by decide, by decide, by decide⟩

/-- An element with an id of 20 characters and a parameter of 17 of which the last but one is a
dot. -/
def dottedElements : SdElements where
  elements := [
    { id := ⟨List.replicate 20 0x61, by decide, by decide, rfl⟩
      params := [(⟨List.replicate 15 0x62 ++ [0x2e, 0x63], by decide, by decide, rfl⟩, [0x76])]
      distinct := nodup_singleton _ }]
  distinct := nodup_singleton _

/-- The dot makes the id longer than 32 characters, and the parser does not accept it. -/
theorem dottedElements_rejected :
    (messageOf dottedElements).Holds dottedElements ∧ dottedElements.Fits {} ∧
      ¬dottedElements.RoundTrips (messageOf dottedElements) utcHost {} ∧
      ((⟨⟨(messageOf dottedElements).formatSdata [],
        ((messageOf dottedElements).formatSdata []).length⟩,
        {}, {}⟩ : Parse).parseSd utcHost {}).map Prod.fst = some false := by
  have hm : (messageOf dottedElements).Holds dottedElements :=
    ⟨by decide +kernel, by decide +kernel, by decide +kernel⟩
  have hf : dottedElements.Fits {} := by
    unfold SdElements.Fits
    decide +kernel
  refine ⟨hm, hf, fun h => ?_, by decide +kernel⟩
  have hd := (splittable_iff.mp ((formatSdata_eq_iff hm).mp h.1)).1
  exact absurd hd (by decide)

end SyslogNg.SyslogFormat
