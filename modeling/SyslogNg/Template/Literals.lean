import SyslogNg.Template.MsgRef

/-!
# Literal text in templates

A text between references to values is written with its dollar signs doubled, and with an `@` that
it begins with doubled behind a reference, where it would be read as a reference to another message.
-/
namespace SyslogNg.Template

open List Compiler

/-- A literal as it is written in a template -/
def quoteLiteral (literal : Bytes) : Bytes :=
  literal.flatMap fun b => if b = 0x24 then [0x24, 0x24] else [b]

/-- References, each with the literal behind it -/
def refsText (refs : List (RefName × Bytes)) : Bytes :=
  refs.flatMap fun (name, literal) => 0x24 :: 0x7b :: (name.text ++ 0x7d ::
    ((if literal.head? = some 0x40 then [0x40] else []) ++ quoteLiteral literal))

variable {Fn Msg : Type*} (env : Env Fn Msg)

def refValue (msg : Msg) (name : RefName) : Bytes :=
  let id := env.macroHash (name.text.take 255)
  if id = 0 then env.getValue msg name.text else env.macroExpand id false msg

def refText (msg : Msg) (name : RefName) : Bytes :=
  if env.macroHash (name.text.take 255) = 0 ∧ (env.getValue msg name.text).head? = some 0 then []
  else refValue env msg name

/-- The element of a reference, with the text in front of it -/
def refElem (text : Bytes) (name : RefName) : Elem Fn :=
  let id := env.macroHash (name.text.take 255)
  ⟨text, if id = 0 then .value name.text else .macroRef id, none, 0⟩

theorem appendElem_ref {messages : List Msg} {msg : Msg} (hlast : messages.getLast? = some msg)
    (out : Expansion Fn Msg) (text : Bytes) (name : RefName) :
    appendElem env false messages out (refElem env text name) =
      some { out with text := out.text ++ text ++ refText env msg name } := by
  have hr : referred messages 0 = some msg := by
    rw [referred_eq (Nat.zero_le _), ← hlast, getLast?_eq_head?_reverse, head?_eq_getElem?]
  rw [appendElem, refElem, refText, refValue]
  by_cases hid : env.macroHash (name.text.take 255) = 0
  · cases hv : env.getValue msg name.text with
    | nil => simp [hid, hr, hv, valueText]
    | cons b rest => by_cases hb : b = 0 <;> simp [hid, hr, hv, valueText, resultAppend]
  · cases he : env.macroExpand (env.macroHash (name.text.take 255)) false msg <;>
      simp [hid, hr, he]

variable {env} {self : Compiler Fn}

theorem tokens_quoteLiteral (hnew : env.oldEscaping = false) (literal : Bytes) (fuel : ℕ)
    (template more text : Bytes) (compiled : List (Elem Fn)) :
    tokens env (literal.length + fuel) ⟨template, quoteLiteral literal ++ more, text, 0, compiled⟩ =
      tokens env fuel ⟨template, more, text ++ literal, 0, compiled⟩ := by
  induction literal generalizing text with
  | nil => simp [quoteLiteral]
  | cons b literal ih =>
    rw [quoteLiteral] at ih
    rw [length_cons, Nat.add_right_comm, quoteLiteral]
    by_cases hb : b = 0x24
    · simp [tokens, processToken, processValue, hb, isMacroName, ih]
    · simp [tokens, processToken, hb, hnew, ih]

theorem parseMsgRef_literal (literal : Bytes) {more : Bytes} (hm : more.head? ≠ some 0x40)
    (h : self.cursor = (if literal.head? = some 0x40 then [0x40] else []) ++
      (quoteLiteral literal ++ more)) :
    self.parseMsgRef = { self with cursor := quoteLiteral literal ++ more, msgRef := 0 } := by
  have hp : ∀ {cursor : Bytes}, self.cursor = cursor → cursor.head? ≠ some 0x40 →
      self.parseMsgRef = { self with cursor, msgRef := 0 } := by
    rintro _ rfl hh
    unfold parseMsgRef
    split
    · next hc => exact absurd (by rw [hc]; rfl) hh
    · rfl
  cases literal with
  | nil => exact hp h hm
  | cons b literal =>
    by_cases hb : b = 0x40
    · subst hb
      simp [parseMsgRef, h, quoteLiteral, isDigit]
    · have hh : (quoteLiteral (b :: literal) ++ more).head? ≠ some 0x40 := by
        rw [quoteLiteral, flatMap_cons]
        split_ifs <;> simp [hb]
      exact hp (by simpa [hb] using h) hh

theorem tokens_ref (name : RefName) (literal : Bytes) (fuel : ℕ) (template text : Bytes)
    {more : Bytes}
    (hm : more.head? ≠ some 0x40) (compiled : List (Elem Fn)) :
    tokens env (fuel + 1) ⟨template, refsText [(name, literal)] ++ more, text, 0, compiled⟩ =
      tokens env fuel ⟨template, quoteLiteral literal ++ more, [], 0,
        refElem env text name :: compiled⟩ := by
  have hc : (refsText [(name, literal)] ++ more).tail = 0x7b :: (name.text ++ 0x7d ::
      ((if literal.head? = some 0x40 then [0x40] else []) ++ (quoteLiteral literal ++ more))) := by
    simp [refsText]
  have hb := processBracedTemplate_refName env ⟨template, _, text, 0, compiled⟩ name hc
  rw [parseMsgRef_literal literal hm rfl] at hb
  have ht : processToken env ⟨template, refsText [(name, literal)] ++ more, text, 0, compiled⟩ =
      some (truncateText _) := congrArg (fun outcome => some (truncateText outcome)) hb
  rw [tokens, ht]
  rfl

theorem length_le_quoteLiteral (literal : Bytes) :
    literal.length ≤ (quoteLiteral literal).length := by
  induction literal with
  | nil => exact le_rfl
  | cons b literal ih =>
    rw [quoteLiteral] at ih ⊢
    rw [flatMap_cons, length_append]
    split_ifs <;> simp only [length_cons] <;> omega

theorem format_cons (messages : List Msg) (e : Elem Fn) (compiled : List (Elem Fn)) :
    formatWithContext env false messages (e :: compiled).reverse =
      (formatWithContext env false messages compiled.reverse).bind fun out =>
        appendElem env false messages out e := by
  simp [formatWithContext]

theorem format_compiledElems {messages : List Msg} {out : Expansion Fn Msg}
    (h : formatWithContext env false messages self.compiled.reverse = some out) :
    ∃ elems out', compiledElems (.done self) = (elems, none) ∧
      formatWithContext env false messages elems = some out' ∧
      out'.text = out.text ++ self.text := by
  unfold compiledElems
  dsimp only
  split_ifs with hlast
  · obtain ⟨ht, -⟩ := Bool.and_eq_true_iff.mp hlast
    rw [isEmpty_iff.mp ht]
    exact ⟨_, out, rfl, h, (append_nil _).symm⟩
  · refine ⟨_, { out with text := out.text ++ self.text }, rfl, ?_, rfl⟩
    rw [addKind, format_cons, h]
    simp [appendElem]

theorem refText_eq_iff (msg : Msg) (name : RefName) : refText env msg name = refValue env msg name ↔
    (env.macroHash (name.text.take 255) = 0 → (env.getValue msg name.text).head? ≠ some 0) := by
  unfold refText
  split_ifs with hn
  · refine iff_of_false (fun he => ?_) fun h => h hn.1 hn.2
    rw [refValue, if_pos hn.1] at he
    simp [← he] at hn
  · exact iff_of_true rfl fun hid hh => hn ⟨hid, hh⟩

/-- A text that is left out makes the whole shorter. -/
theorem refText_of_flatMap {msg : Msg} {refs : List (RefName × Bytes)}
    (h : (refs.flatMap fun r => refText env msg r.1 ++ r.2) =
      refs.flatMap fun r => refValue env msg r.1 ++ r.2) :
    ∀ r ∈ refs, refText env msg r.1 = refValue env msg r.1 := by
  have hc : ∀ r : RefName × Bytes, refText env msg r.1 = refValue env msg r.1 ∨
      refText env msg r.1 = [] := fun r => (ite_eq_or_eq _ _ _).symm
  by_contra! hne
  obtain ⟨r, hr, hne⟩ := hne
  refine (sum_lt_sum _ _ (fun r _ => ?_) ⟨r, hr, ?_⟩).ne
    ((length_flatMap.symm.trans (congrArg length h)).trans length_flatMap)
  · rcases hc r with hs | he <;> simp [*]
  · have he := (hc r).resolve_left hne
    rw [he] at hne ⊢
    simpa using length_pos_of_ne_nil hne.symm

section

variable (hnew : env.oldEscaping = false) {messages : List Msg} {msg : Msg}
  (hlast : messages.getLast? = some msg)
include hnew hlast

/-- Every reference adds its text and the literal behind it to what the elements so far expand
to. -/
theorem tokens_refs {template text : Bytes} {fuel : ℕ} {refs : List (RefName × Bytes)}
    {compiled : List (Elem Fn)} {out : Expansion Fn Msg} (hfl : (refsText refs).length ≤ fuel)
    (ho : formatWithContext env false messages compiled.reverse = some out) :
    ∃ last out', tokens env fuel ⟨template, refsText refs, text, 0, compiled⟩ = some (.done last) ∧
      formatWithContext env false messages last.compiled.reverse = some out' ∧
      out'.text ++ last.text =
        out.text ++ text ++ refs.flatMap fun r => refText env msg r.1 ++ r.2 := by
  induction refs generalizing text fuel compiled out with
  | nil =>
    refine ⟨_, out, tokens_nil env fuel rfl, ho, ?_⟩
    simp
  | cons r refs ih =>
    obtain ⟨name, literal⟩ := r
    have hc : refsText ((name, literal) :: refs) = refsText [(name, literal)] ++ refsText refs := by
      simp [refsText]
    have hln := length_le_quoteLiteral literal
    have hl : literal.length + 1 + (refsText refs).length ≤ fuel := by
      refine le_trans ?_ hfl
      simp only [length_append, refsText, flatMap_cons, length_cons]
      omega
    obtain ⟨fuel, rfl⟩ : ∃ n, fuel = literal.length + n + 1 := ⟨fuel - literal.length - 1, by omega⟩
    have hm : (refsText refs).head? ≠ some 0x40 := by
      cases refs <;> simp [refsText]
    have he : formatWithContext env false messages (refElem env text name :: compiled).reverse =
        some { out with text := out.text ++ text ++ refText env msg name } := by
      rw [format_cons, ho]
      exact appendElem_ref env hlast out text name
    rw [hc, tokens_ref name literal _ template text hm, tokens_quoteLiteral hnew]
    obtain ⟨last, out', ht, hf, htx⟩ := ih (by omega : (refsText refs).length ≤ fuel) he
    refine ⟨last, out', ht, hf, ?_⟩
    rw [htx]
    simp

/-- The template compiles and expands to the literals and the values, exactly if no value begins
with a NUL, which is taken for an empty one. -/
theorem literals_exact_iff (literal : Bytes) (refs : List (RefName × Bytes)) :
    let template := quoteLiteral literal ++ refsText refs
    (∃ elems, compile env template = some (elems, none)) ∧
    ((expand env false messages template).map (·.text) =
        some (literal ++ refs.flatMap fun r => refValue env msg r.1 ++ r.2) ↔
      ∀ r ∈ refs, env.macroHash (r.1.text.take 255) = 0 →
        (env.getValue msg r.1.text).head? ≠ some 0) := by
  intro template
  have hl := length_le_quoteLiteral literal
  have hs : template.length = (quoteLiteral literal).length + (refsText refs).length :=
    length_append
  obtain ⟨fuel, hfl⟩ := Nat.exists_eq_add_of_le (by omega : literal.length ≤ template.length)
  have hrs : (refsText refs).length ≤ fuel := by omega
  obtain ⟨last, out, ht, hf, htx⟩ := tokens_refs hnew hlast hrs
    (rfl : formatWithContext env false messages [].reverse = some {})
  obtain ⟨elems, out', hcm, he, ho⟩ := format_compiledElems hf
  have hc : compile env template = some (elems, none) := by
    rw [compile, hfl, tokens_quoteLiteral hnew, ht, ← hcm]
    rfl
  refine ⟨⟨elems, hc⟩, ?_⟩
  rw [expand, hc, Option.bind_some, he, Option.map_some, Option.some_inj, ho, htx]
  change literal ++ _ = _ ↔ _
  rw [append_cancel_left_eq]
  refine ⟨fun h r hr => (refText_eq_iff msg r.1).mp (refText_of_flatMap h r hr), fun h => ?_⟩
  exact flatMap_congr fun r hr => by rw [(refText_eq_iff msg r.1).mpr (h r hr)]

end

/-- `$$${a}@@` -/
theorem literals_exact_at : (expand (numbered [0x62]) false [0]
      (quoteLiteral [0x24] ++ refsText [(⟨[0x61], by decide, by decide⟩, [0x40])])).map (·.text) =
    some [0x24, 0x62, 0x40] := by
  have he := literals_exact_iff (rfl : (numbered [0x62]).oldEscaping = false)
    (rfl : [0].getLast? = some 0) [0x24] [(⟨[0x61], by decide, by decide⟩, [0x40])]
  exact he.2.mpr (by decide)

/-- A value that begins with a NUL -/
theorem literals_lose_nul : (expand (numbered [0, 0x62]) false [0]
      (refsText [(⟨[0x61], by decide, by decide⟩, [])])).map (·.text) = some [] := by
  decide

end SyslogNg.Template
