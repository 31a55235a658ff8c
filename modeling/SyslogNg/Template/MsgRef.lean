import Mathlib.Data.List.TakeWhile
import SyslogNg.Template.Compiler

/-!
# References to the messages of a context

`${name}@N` and `$(f …)@N`. `parse_msg_ref` multiplies by eleven for every digit instead of ten and
the element keeps 16 bits of the result, so only references of one digit are what they say.
-/
namespace SyslogNg.Template

open List Option Compiler SyslogFormat

/-! ### The number of a reference -/

/-- The decimal digits of a number, read in base eleven -/
def elevens (n : ℕ) : ℕ := Nat.ofDigits 11 (Nat.digits 10 n)

theorem elevens_eq (n : ℕ) : elevens n = n % 10 + 11 * elevens (n / 10) := by
  rcases Nat.eq_zero_or_pos n with rfl | hn
  · rfl
  · rw [elevens, Nat.digits_def' (by decide) hn]
    rfl

theorem elevens_of_lt_ten {n : ℕ} (h : n < 10) : elevens n = n := by
  interval_cases n <;> rfl

theorem le_elevens (n : ℕ) : n ≤ elevens n := by
  induction n using Nat.strong_induction_on with
  | _ n ih =>
    rcases Nat.eq_zero_or_pos n with rfl | hn
    · exact Nat.zero_le _
    · have hl := ih (n / 10) (by omega)
      rw [elevens_eq]
      omega

/-- With two digits or more the number read is larger than the one written. -/
theorem lt_elevens {n : ℕ} (h : 10 ≤ n) : n < elevens n := by
  have hl := le_elevens (n / 10)
  rw [elevens_eq]
  omega

theorem elevens_lt {n : ℕ} (h : n < 2 ^ 16) : elevens n < n + 2 ^ 16 := by
  have hl : elevens (n / 10 / 10 / 10 / 10) = n / 10 / 10 / 10 / 10 :=
    elevens_of_lt_ten (by omega)
  rw [elevens_eq, elevens_eq (n / 10), elevens_eq (n / 10 / 10), elevens_eq (n / 10 / 10 / 10)]
  omega

/-- `msg_ref` of the element for a reference -/
def msgRefOf (n : ℕ) : ℕ := (elevens n + 1) % 2 ^ 16

theorem msgRefOf_of_lt_ten {n : ℕ} (h : n < 10) : msgRefOf n = n + 1 := by
  rw [msgRefOf, elevens_of_lt_ten h]
  omega

theorem msgRefOf_ne {n : ℕ} (h : 10 ≤ n) : msgRefOf n ≠ n + 1 := by
  intro heq
  have hlt : n < 2 ^ 16 := by
    unfold msgRefOf at heq
    omega
  have hm := lt_elevens h
  have hl := elevens_lt hlt
  unfold msgRefOf at heq
  omega

theorem foldl_msgRefDigit (n : ℕ) :
    (decimalText n).foldl Compiler.msgRefDigit 0 = elevens n % 2 ^ 32 := by
  induction n using Nat.strong_induction_on with
  | _ n ih =>
    have hl : digit (UInt8.ofNat (48 + n % 10)) = n % 10 :=
      (digit_ofNat (Nat.mod_lt _ (by omega))).2
    rw [decimalText_eq, foldl_append, foldl_cons, foldl_nil]
    split
    · next hn =>
      rw [elevens_of_lt_ten hn, foldl_nil, msgRefDigit]
      omega
    · rw [ih (n / 10) (by omega), msgRefDigit, elevens_eq n]
      omega

theorem takeWhile_decimal (n : ℕ) :
    (decimalText n).takeWhile isDigit = decimalText n :=
  takeWhile_eq_self_iff.mpr fun _ => isDigit_of_mem_decimalText

theorem dropWhile_decimal (n : ℕ) : (decimalText n).dropWhile isDigit = [] :=
  dropWhile_eq_nil_iff.mpr fun _ => isDigit_of_mem_decimalText

def msgRefText (n : ℕ) : Bytes := 0x40 :: decimalText n

variable {Fn Msg : Type*}

theorem parseMsgRef_msgRefText (self : Compiler Fn) {n : ℕ} (h : self.cursor = msgRefText n) :
    self.parseMsgRef =
      { self with cursor := [], msgRef := (elevens n % 2 ^ 32 + 1) % 2 ^ 32 } := by
  have hs : ((decimalText n).takeWhile isDigit).isEmpty = false := by
    rw [takeWhile_decimal, isEmpty_eq_false_iff]
    exact decimalText_ne_nil n
  simp only [parseMsgRef, h, msgRefText, hs, Bool.false_eq_true, if_false]
  rw [takeWhile_decimal, dropWhile_decimal, foldl_msgRefDigit]

theorem msgRef_stored (n : ℕ) : (elevens n % 2 ^ 32 + 1) % 2 ^ 32 % 2 ^ 16 = msgRefOf n := by
  unfold msgRefOf
  omega

/-! ### Names and calls -/

/-- A name that can stand between the braces of a reference -/
structure RefName where
  text : Bytes
  noBrace : 0x7d ∉ text
  noColon : 0x3a ∉ text

def RefName.template (name : RefName) (n : ℕ) : Bytes :=
  0x24 :: 0x7b :: (name.text ++ 0x7d :: msgRefText n)

/-- What stands between the parentheses of a call of a template function, with the arguments that it
is read as -/
structure FuncRef where
  body : Bytes
  argv : List Bytes
  reads : ∀ rest, Compiler.processArgList (0x28 :: (body ++ 0x29 :: rest)) =
    some (argv, 0x29 :: rest, true)

def FuncRef.template (f : FuncRef) (n : ℕ) : Bytes :=
  0x24 :: 0x28 :: (f.body ++ 0x29 :: msgRefText n)

/-- The function that a call refers to -/
def FuncRef.Prepared (f : FuncRef) (env : Env Fn Msg) (fn : Fn) : Prop :=
  ∃ name args, f.argv = name :: args ∧ ∃ prepare, env.plugin name = some prepare ∧
    prepare f.argv = .ok fn

def FuncRef.f : FuncRef where
  body := [0x66]
  argv := [[0x66]]
  reads := by
    intro rest
    simp [Compiler.processArgList, Compiler.ArgState.loop, Compiler.ArgState.finish]

theorem takeWhile_ne_append {b : UInt8} {text rest : Bytes} (h : b ∉ text) :
    (text ++ b :: rest).takeWhile (· ≠ b) = text := by
  have ha : ∀ c ∈ text, decide (c ≠ b) = true := by
    intro c hc
    simp only [decide_eq_true_eq]
    rintro rfl
    exact h hc
  rw [takeWhile_append_of_pos ha]
  simp

theorem tokens_nil (env : Env Fn Msg) (fuel : ℕ) {self : Compiler Fn} (h : self.cursor = []) :
    Compiler.tokens env fuel self = some (.done self) := by
  cases fuel with
  | zero => rfl
  | succ fuel => simp [tokens, h]

variable {env : Env Fn Msg}

/-- A template that is one reference -/
theorem compile_of_processToken {b : UInt8} {rest : Bytes} {self : Compiler Fn}
    (ht : Compiler.processToken env { template := b :: rest, cursor := b :: rest } =
      some (.done self))
    (he : self.cursor = []) :
    compile env (b :: rest) = some (compiledElems (.done self)) := by
  rw [compile, length_cons, tokens]
  simp only [ht]
  rw [tokens_nil env _ he]
  rfl

theorem processBracedTemplate_refName (env : Env Fn Msg) (self : Compiler Fn) (name : RefName)
    {rest : Bytes} (h : self.cursor = 0x7b :: (name.text ++ 0x7d :: rest)) :
    self.processBracedTemplate env =
      .done ({ self with cursor := rest }.parseMsgRef.addElem env name.text none) := by
  have hi : (name.text ++ 0x7d :: rest).takeWhile (· ≠ 0x7d) = name.text :=
    takeWhile_ne_append name.noBrace
  have hn : name.text.takeWhile (· ≠ 0x3a) = name.text := by
    apply takeWhile_eq_self_iff.mpr
    intro b hb
    simp only [decide_eq_true_eq]
    rintro rfl
    exact name.noColon hb
  have hr : (name.text ++ 0x7d :: rest).drop (name.text.length + 1) = rest := by simp
  have hc : name.text.length ≠ (name.text ++ 0x7d :: rest).length := by simp
  rw [processBracedTemplate]
  simp only [h, tail_cons, hi, hn, hr, drop_length, if_neg hc]

/-- The element of a reference, when it is all of the template -/
theorem compiledElems_addKind (template : Bytes) (kind : ElemKind Fn) (n : ℕ) :
    compiledElems (Compiler.truncateText (.done (Compiler.addKind
      { template, cursor := [], msgRef := (elevens n % 2 ^ 32 + 1) % 2 ^ 32 } kind none))) =
      ([⟨[], kind, none, msgRefOf n⟩], none) := by
  rw [← msgRef_stored]
  rfl

theorem compile_refName (env : Env Fn Msg) (name : RefName) (n : ℕ) :
    compile env (name.template n) = some
      ([⟨[], if env.macroHash (name.text.take 255) = 0 then .value name.text
          else .macroRef (env.macroHash (name.text.take 255)), none, msgRefOf n⟩], none) := by
  have ht : processToken env
      { template := name.template n, cursor := name.template n } =
      some (truncateText (.done (addElem env
        { template := name.template n, cursor := [],
          msgRef := (elevens n % 2 ^ 32 + 1) % 2 ^ 32 } name.text none))) := by
    have hb := processBracedTemplate_refName env
      { template := name.template n, cursor := (name.template n).tail } name rfl
    rw [parseMsgRef_msgRefText _ rfl] at hb
    exact congrArg (fun outcome => some (truncateText outcome)) hb
  rw [RefName.template] at ht ⊢
  rw [compile_of_processToken ht rfl]
  exact congrArg some (compiledElems_addKind _ _ n)

theorem compile_funcRef {f : FuncRef} {fn : Fn} (hf : f.Prepared env fn)
    (n : ℕ) : compile env (f.template n) = some ([⟨[], .func fn, none, msgRefOf n⟩], none) := by
  obtain ⟨name, args, ha, prepare, hpl, hp⟩ := hf
  have hfn : processTemplateFunction env
      { template := f.template n, cursor := (f.template n).tail } =
      some (.done (addKind
        { template := f.template n, cursor := [],
          msgRef := (elevens n % 2 ^ 32 + 1) % 2 ^ 32 } (.func fn) none)) := by
    have hr : processArgList (f.template n).tail =
        some (f.argv, 0x29 :: msgRefText n, true) := f.reads (msgRefText n)
    rw [processTemplateFunction, hr, map_some, if_pos rfl,
      parseMsgRef_msgRefText _ rfl]
    rw [ha] at hp ⊢
    simp only [addFuncElem, hpl, hp]
  have ht : processToken env
      { template := f.template n, cursor := f.template n } =
      some (truncateText (.done (addKind
        { template := f.template n, cursor := [],
          msgRef := (elevens n % 2 ^ 32 + 1) % 2 ^ 32 } (.func fn) none))) :=
    congrArg (Option.map truncateText) hfn
  rw [FuncRef.template] at ht ⊢
  rw [compile_of_processToken ht rfl]
  exact congrArg some (compiledElems_addKind _ _ n)

/-! ### Expansion -/

theorem referred_eq {messages : List Msg} {msgRef : ℕ} (h : msgRef ≤ messages.length) :
    referred messages msgRef = messages.reverse[msgRef - 1]? := by
  unfold referred
  rcases Nat.eq_zero_or_pos msgRef with rfl | hp
  · rcases Nat.eq_zero_or_pos messages.length with hn | hs
    · simp [eq_nil_of_length_eq_zero hn]
    · have hnd : ((messages.length : ℤ) - (0 : ℕ) - 1).toNat = messages.length - 1 := by omega
      rw [if_pos rfl, if_neg (by omega), hnd, List.getElem?_reverse hs, Nat.sub_zero]
  · have hnd : ((messages.length : ℤ) - msgRef - 0).toNat = messages.length - 1 - (msgRef - 1) := by
      omega
    rw [if_neg (by omega), if_neg (by omega), hnd, List.getElem?_reverse (by omega)]

theorem expand_of_compile {template : Bytes} {e : Elem Fn}
    {error : Option CompileError} (h : compile env template = some ([e], error)) (escape : Bool)
    (messages : List Msg) :
    expand env escape messages template = appendElem env escape messages {} e := by
  rw [expand, h, bind_some, formatWithContext, foldlM_cons]
  cases appendElem env escape messages {} e <;> rfl

section Expansion

variable (env : Env Fn Msg) (escape : Bool) (messages : List Msg)

theorem expand_value (name : RefName) (hv : env.macroHash (name.text.take 255) = 0) (n : ℕ) :
    (expand env escape messages (name.template n)).map (·.text) =
      if msgRefOf n > messages.length then some []
      else messages.reverse[msgRefOf n - 1]?.map fun msg =>
        valueText escape (env.getValue msg name.text) none := by
  rw [expand_of_compile (compile_refName env name n), if_pos hv, appendElem]
  split
  · rfl
  · next hle =>
    rw [referred_eq (by omega), Option.map_map]
    rfl

theorem expand_macroRef (name : RefName) (he : env.macroHash (name.text.take 255) ≠ 0)
    (n : ℕ) :
    (expand env escape messages (name.template n)).map (·.text) =
      if msgRefOf n > messages.length then some []
      else messages.reverse[msgRefOf n - 1]?.map fun msg =>
        env.macroExpand (env.macroHash (name.text.take 255)) escape msg := by
  rw [expand_of_compile (compile_refName env name n), if_neg he, appendElem]
  dsimp only
  split
  · rfl
  · next hle =>
    rw [referred_eq (by omega), Option.map_map]
    congr 1
    funext msg
    dsimp only [Function.comp_apply]
    generalize env.macroExpand (env.macroHash (name.text.take 255)) escape msg = expanded
    cases expanded <;> rfl

theorem expand_func {f : FuncRef} {fn : Fn} (hf : f.Prepared env fn) (n : ℕ) :
    (expand env escape messages (f.template n)).map (·.calls) =
      if msgRefOf n > messages.length then some []
      else if msgRefOf n = 0 then some [(fn, messages)]
      else messages.reverse[msgRefOf n - 1]?.map fun msg => [(fn, [msg])] := by
  rw [expand_of_compile (compile_funcRef hf n), appendElem]
  split
  · rfl
  · next hle =>
    rw [Option.map_map]
    split
    · rfl
    · rw [referred_eq (by omega), Option.map_map]
      rfl

end Expansion

/-- A value as escaping is meant to write it, control characters as three octal digits. -/
def escaped (value : Bytes) : Bytes :=
  value.flatMap fun b =>
    if b = 0x27 ∨ b = 0x22 ∨ b = 0x5c then [0x5c, b]
    else if b < 0x20 then [0x30, 0x30 + b / 8, 0x30 + b % 8]
    else [b]

/-- `${name}@n` and `$(f …)@n` mean the message that many places before the last one, for contexts
of `len` messages and a value `v` of the name in that message: its value, its macro, and a call
with this message only. Without such a message there is no text and no call. -/
def RefersBack (n len : ℕ) (escape : Bool) (v : Bytes) : Prop :=
  ∀ (Fn Msg : Type) (env : Env Fn Msg) (messages : List Msg), messages.length = len →
    (∀ name : RefName, env.macroHash (name.text.take 255) = 0 →
      (∀ msg, messages.reverse[n]? = some msg → env.getValue msg name.text = v) →
      (expand env escape messages (name.template n)).map (·.text) =
        some (messages.reverse[n]?.elim [] fun _ => if escape then escaped v else v)) ∧
    (∀ name : RefName, env.macroHash (name.text.take 255) ≠ 0 →
      (expand env escape messages (name.template n)).map (·.text) =
        some (messages.reverse[n]?.elim []
          (env.macroExpand (env.macroHash (name.text.take 255)) escape))) ∧
    ∀ (f : FuncRef) (fn : Fn), f.Prepared env fn →
      (expand env escape messages (f.template n)).map (·.calls) =
        some (messages.reverse[n]?.map fun msg => (fn, [msg])).toList

variable {escape : Bool} {v : Bytes}

theorem length_resultAppend_le (v : Bytes) : (resultAppend true v).length ≤ (escaped v).length := by
  simp only [resultAppend, escaped, if_true, List.length_flatMap]
  refine List.sum_le_sum fun b _ => ?_
  split_ifs <;> simp

theorem escaped_eq_nil (h : escaped v = []) : v = [] := by
  cases v with
  | nil => rfl
  | cons b rest =>
    simp only [escaped, List.flatMap_cons] at h
    split_ifs at h <;> simp at h

/-- Control characters are lost. -/
theorem resultAppend_eq_iff : resultAppend escape v = (if escape then escaped v else v) ↔
    (escape = true → ∀ b ∈ v, 0x20 ≤ b) := by
  cases escape with
  | false => simp [resultAppend]
  | true =>
    simp only [if_true, forall_const]
    induction v with
    | nil => simp [resultAppend, escaped]
    | cons b rest ih =>
      have hl := length_resultAppend_le rest
      rw [List.forall_mem_cons, ← ih]
      simp only [resultAppend, escaped, if_true, List.flatMap_cons] at hl ⊢
      by_cases hb : b < 0x20
      · have hq : ¬(b = 0x27 ∨ b = 0x22 ∨ b = 0x5c) := by
          rintro (rfl | rfl | rfl) <;> exact absurd hb (by decide)
        simp only [if_neg hq, if_pos hb, List.nil_append]
        refine iff_of_false (fun h => ?_) fun h => absurd hb (UInt8.not_lt.mpr h.1)
        rw [h] at hl
        simp only [List.length_append, List.length_cons, List.length_nil] at hl
        omega
      · simp only [if_neg hb, UInt8.not_lt.mp hb, true_and, List.append_cancel_left_eq]

theorem valueText_none (h : v.head? ≠ some 0) (escape : Bool) :
    valueText escape v none = resultAppend escape v := by
  unfold valueText
  split
  · next he =>
    cases v with
    | nil => cases escape <;> rfl
    | cons b rest =>
      have hb : b = 0 := by simpa using he
      rw [hb] at h
      exact absurd rfl h
  · rfl

variable {n len : ℕ}

theorem refersBack_of_lt (hl : n < len) (hn : n < 10) (hv : v.head? ≠ some 0)
    (hp : escape = true → ∀ b ∈ v, 0x20 ≤ b) : RefersBack n len escape v := by
  intro Fn Msg env messages hm
  have hle : ¬ msgRefOf n > messages.length := by
    rw [msgRefOf_of_lt_ten hn]
    omega
  have hs : msgRefOf n - 1 = n := by
    rw [msgRefOf_of_lt_ten hn]
    rfl
  obtain ⟨msg, hms⟩ : ∃ msg, messages.reverse[n]? = some msg :=
    ⟨_, List.getElem?_eq_getElem (by simpa [hm] using hl)⟩
  refine ⟨fun name hvl hv' => ?_, fun name he => ?_, fun f fn hf => ?_⟩
  · rw [expand_value env escape messages name hvl, if_neg hle, hs, hms, map_some,
      hv' msg hms, valueText_none hv, resultAppend_eq_iff.mpr hp]
    rfl
  · rw [expand_macroRef env escape messages name he, if_neg hle, hs, hms]
    rfl
  · rw [expand_func env escape messages hf, if_neg hle,
      if_neg (by rw [msgRefOf_of_lt_ten hn]; omega),
      hs, hms]
    rfl

theorem refersBack_of_le (escape : Bool) (v : Bytes) (hl : len ≤ n) (hr : len < msgRefOf n) :
    RefersBack n len escape v := by
  intro Fn Msg env messages hm
  have hgt : msgRefOf n > messages.length := by omega
  have hn : messages.reverse[n]? = none :=
    List.getElem?_eq_none (by simpa [hm] using hl)
  refine ⟨fun name hv _ => ?_, fun name he => ?_, fun f fn hf => ?_⟩
  · rw [expand_value env escape messages name hv, if_pos hgt, hn]
    rfl
  · rw [expand_macroRef env escape messages name he, if_pos hgt, hn]
    rfl
  · rw [expand_func env escape messages hf, if_pos hgt, hn]
    rfl

/-- Messages that are told apart by their place only, and one function -/
def numbered (v : Bytes) : Env Unit ℕ where
  macroHash _ := 0
  macroExpand _ _ _ := []
  getValue _ _ := v
  plugin _ := some fun _ => .ok ()
  call _ _ := []

theorem prepared_numbered (v : Bytes) : FuncRef.f.Prepared (numbered v) () :=
  ⟨_, _, rfl, _, rfl, rfl⟩

/-- The calls of a function tell which message the reference picks. -/
theorem RefersBack.calls (h : RefersBack n len escape v) : (if msgRefOf n > len then some []
      else if msgRefOf n = 0 then some [((), List.range len)]
      else (List.range len).reverse[msgRefOf n - 1]?.map fun msg => [((), [msg])]) =
      some ((List.range len).reverse[n]?.map fun msg => ((), [msg])).toList := by
  have hc := (h Unit ℕ (numbered v) (List.range len) length_range).2.2 FuncRef.f ()
    (prepared_numbered v)
  rwa [expand_func (numbered v) escape _ (prepared_numbered v), length_range] at hc

/-- The text of a value that is in the context. -/
theorem RefersBack.valueText_eq (h : RefersBack n len escape v) (hl : n < len) (hn : n < 10) :
    valueText escape v none = if escape then escaped v else v := by
  have hnm : RefName := ⟨[], by simp, by simp⟩
  have ht := (h Unit ℕ (numbered v) (List.range len) length_range).1 hnm rfl (fun _ _ => rfl)
  rw [expand_value (numbered v) escape _ hnm rfl, length_range, msgRefOf_of_lt_ten hn,
    if_neg (by omega)] at ht
  obtain ⟨msg, hm⟩ : ∃ msg, (List.range len).reverse[n]? = some msg :=
    ⟨_, List.getElem?_eq_getElem (by simpa using hl)⟩
  rw [Nat.add_sub_cancel, hm, map_some] at ht
  exact Option.some.inj ht

theorem RefersBack.value (h : RefersBack n len escape v) (hl : n < len) (hn : n < 10) :
    v.head? ≠ some 0 := by
  intro hv
  have he : valueText escape v none = [] := by simp [valueText, hv]
  have ht := h.valueText_eq hl hn
  rw [he] at ht
  have hnl : v = [] := by
    split at ht
    · exact escaped_eq_nil ht.symm
    · exact ht.symm
  rw [hnl] at hv
  cases hv

theorem reverse_range {k len : ℕ} (h : k < len) :
    (List.range len).reverse[k]? = some (len - 1 - k) := by
  rw [List.getElem?_reverse (by simpa using h), length_range,
    List.getElem?_range (by omega)]

theorem RefersBack.lt_ten (h : RefersBack n len escape v) (hln : n < len) : n < 10 := by
  by_contra hn
  have hc := h.calls
  rw [reverse_range hln] at hc
  split at hc
  · cases hc
  · split at hc
    · -- without a reference the function gets the whole context, which is more than a message
      have ha : List.range len = [len - 1 - n] := by simpa using hc
      have hl := congrArg List.length ha
      rw [length_range, length_singleton] at hl
      omega
    · rw [reverse_range (by omega)] at hc
      have hs : len - 1 - (msgRefOf n - 1) = len - 1 - n := by simpa using hc
      exact msgRefOf_ne (not_lt.mp hn) (by omega)

theorem RefersBack.lt_msgRefOf (h : RefersBack n len escape v) (hl : len ≤ n) :
    len < msgRefOf n := by
  by_contra hle
  have hc := h.calls
  have hn : (List.range len).reverse[n]? = none := List.getElem?_eq_none (by simpa using hl)
  rw [if_neg hle, hn] at hc
  split at hc
  · cases hc
  · rw [reverse_range (by omega)] at hc
    cases hc

/-- A reference means what it says exactly if it is to a message of the context, has one digit, and
the value does not begin with NUL and has no control characters if it is escaped; or if it is
outside the context and so is the number that its digits make in base eleven, as far as 16 bits
hold it. -/
theorem refersBack_iff (n len : ℕ) (escape : Bool) (v : Bytes) :
    RefersBack n len escape v ↔
      n < len ∧ n < 10 ∧ v.head? ≠ some 0 ∧ (escape = true → ∀ b ∈ v, 0x20 ≤ b) ∨
      len ≤ n ∧ len < (Nat.ofDigits 11 (Nat.digits 10 n) + 1) % 2 ^ 16 := by
  constructor
  · intro h
    rcases Nat.lt_or_ge n len with hl | hl
    · have hn := h.lt_ten hl
      have hv := h.value hl hn
      have ht := h.valueText_eq hl hn
      rw [valueText_none hv] at ht
      exact .inl ⟨hl, hn, hv, resultAppend_eq_iff.mp ht⟩
    · exact .inr ⟨hl, h.lt_msgRefOf hl⟩
  · rintro (⟨hl, hn, hv, hp⟩ | ⟨hl, hr⟩)
    · exact refersBack_of_lt hl hn hv hp
    · exact refersBack_of_le escape v hl hr

/-- `@10` in a context of eleven messages is the first of them, but the element has the reference
12, which is outside. -/
theorem refersBack_ten : ¬ RefersBack 10 11 false [0x61] := by
  intro h
  have hc := h.calls
  cases hc

end SyslogNg.Template
