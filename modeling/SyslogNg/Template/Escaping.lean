import Mathlib.Data.List.TakeWhile
import SyslogNg.Foundations.Separated
import SyslogNg.SyslogFormat.StructuredData

/-!
# Escaped text

`append_unsafe_utf8_as_escaped_binary` of `lib/utf8utils.c` and `tf_cef_append_escaped` of
`modules/cef/format-cef-extension.c` go through a text by characters. They write a backslash and a
letter for some of them, and digits for bytes that are not UTF-8 and for control characters.
-/
namespace SyslogNg.Template

open List

/-- `g_utf8_get_char_validated`: the length of the character that the text begins with, if it is
valid and complete -/
def charLength (s : Bytes) : Option ℕ :=
  if s.head?.any fun b => 0x01 ≤ b && b ≤ 0x7f then some 1
  else [2, 3, 4].find? fun n => n ≤ s.length && (s.take n).all (0x80 ≤ ·) && isUtf8 (s.take n)

def hexDigit (n : ℕ) : UInt8 := UInt8.ofNat (if n < 10 then 0x30 + n else 0x57 + n)

def hexText (b : UInt8) : Bytes := [hexDigit (b.toNat / 16), hexDigit (b.toNat % 16)]

/-- What is written for a character or an invalid byte, with the letters and the start of the code
of a control character -/
def word (letter : UInt8 → Option UInt8) (control : Bytes) : Bytes → Bytes
  | [b] =>
    match letter b with
    | some x => [0x5c, x]
    | none =>
      if 0x80 ≤ b then 0x5c :: 0x78 :: hexText b
      else if b < 0x20 then control ++ hexText b
      else [b]
  | c => c

/-- The loop, with a length that is given. Without a character the head is written as an invalid
byte. At the end there are the text behind the last character and the output, none if the fuel runs
out. -/
def escapeLoop (word : Bytes → Bytes) : ℕ → Bytes → ℤ → Bytes → Option (Bytes × Bytes)
  | 0, raw, rawLen, out => if rawLen = 0 then some (raw, out) else none
  | fuel + 1, raw, rawLen, out =>
    if rawLen = 0 then some (raw, out)
    else
      let n := (charLength (raw.take rawLen.toNat)).getD 1
      escapeLoop word fuel (raw.drop n) (rawLen - n) (out ++ word (raw.take n))

/-- The letters of `_append_escaped_utf8_character`. The unsafe characters are ASCII. -/
def binaryLetter (unsafeChars : Bytes) (b : UInt8) : Option UInt8 :=
  if b = 0x08 then some 0x62
  else if b = 0x0c then some 0x66
  else if b = 0x0a then some 0x6e
  else if b = 0x0d then some 0x72
  else if b = 0x09 then some 0x74
  else if b = 0x5c then some 0x5c
  else if 0x20 ≤ b && b < 0x80 && unsafeChars.contains b then some b
  else none

def appendUnsafeUtf8AsEscapedBinary (fuel : ℕ) (str : Bytes) (strLen : ℤ) (unsafeChars : Bytes)
    (escaped : Bytes) : Option (Bytes × Bytes) :=
  escapeLoop (word (binaryLetter unsafeChars) [0x5c, 0x78]) fuel str strLen escaped

/-! ### Reading -/

def hexValue (d : UInt8) : ℕ := if d < 0x3a then d.toNat - 0x30 else d.toNat - 0x57

def hexByte (h l : UInt8) : UInt8 := UInt8.ofNat (16 * hexValue h + hexValue l)

/-- The byte that a backslash and this letter stand for -/
def named (x : UInt8) : UInt8 :=
  if x = 0x62 then 0x08
  else if x = 0x66 then 0x0c
  else if x = 0x6e then 0x0a
  else if x = 0x72 then 0x0d
  else if x = 0x74 then 0x09
  else x

/-- The bytes of an escaped text; none for a mark that no backslash escapes -/
def unescape (mark : UInt8) : Bytes → List (Option UInt8)
  | [] => []
  | b :: rest =>
    if b ≠ 0x5c then (if b = mark then none else some b) :: unescape mark rest
    else match rest with
      | [] => []
      | x :: rest =>
        if x = 0x78 then match rest with
          | h :: l :: rest => some (hexByte h l) :: unescape mark rest
          | _ => []
        else if x = 0x75 then match rest with
          | _ :: _ :: h :: l :: rest => some (hexByte h l) :: unescape mark rest
          | _ => []
        else some (named x) :: unescape mark rest

theorem unescape_plain {mark b : UInt8} (h : b ≠ 0x5c) (rest : Bytes) :
    unescape mark (b :: rest) = (if b = mark then none else some b) :: unescape mark rest := by
  rw [unescape.eq_def]
  exact if_pos h

theorem unescape_letter {mark x : UInt8} (h : x ≠ 0x78 ∧ x ≠ 0x75) (rest : Bytes) :
    unescape mark (0x5c :: x :: rest) = some (named x) :: unescape mark rest := by
  rw [unescape.eq_def]
  exact (if_neg h.1).trans (if_neg h.2)

theorem unescape_hex {mark : UInt8} {start : Bytes}
    (hs : start = [0x5c, 0x78] ∨ start = [0x5c, 0x75, 0x30, 0x30]) (h l : UInt8) (rest : Bytes) :
    unescape mark (start ++ [h, l] ++ rest) = some (hexByte h l) :: unescape mark rest := by
  rcases hs with rfl | rfl <;> exact unescape.eq_def _ _

/-- A text that can be read as these symbols, also in front of another one -/
structure Reads (mark : UInt8) (symbols : List (Option UInt8)) (text : Bytes) : Prop where
  utf8 : isUtf8 text = true
  printable : ∀ b ∈ text, 0x20 ≤ b
  read : ∀ rest, unescape mark (text ++ rest) = symbols ++ unescape mark rest

structure Escapes (mark : UInt8) (bytes text : Bytes) : Prop extends
    Reads mark (bytes.map some) text where
  escaped : ∀ u w, text = u ++ mark :: w → u.getLast? = some 0x5c

theorem Reads.append {mark : UInt8} {a b : List (Option UInt8)} {s t : Bytes} (ha : Reads mark a s)
    (hb : Reads mark b t) : Reads mark (a ++ b) (s ++ t) where
  utf8 := (isUtf8From_append ha.utf8 t).trans hb.utf8
  printable := forall_mem_append.mpr ⟨ha.printable, hb.printable⟩
  read rest := by rw [append_assoc, ha.read, hb.read, append_assoc]

namespace Escapes

variable {mark : UInt8} {a b s t : Bytes}

theorem nil : Escapes mark [] [] := ⟨⟨rfl, by simp, fun _ => rfl⟩, by simp⟩

theorem append (ha : Escapes mark a s) (hb : Escapes mark b t) :
    Escapes mark (a ++ b) (s ++ t) where
  toReads := map_append ▸ ha.toReads.append hb.toReads
  escaped u w h := by
    rcases append_eq_append_iff.mp h with ⟨v, rfl, hv⟩ | ⟨v, hv, h⟩
    · rw [getLast?_append, hb.escaped v w hv]
      rfl
    · cases v with
      | nil =>
        have hl := hb.escaped [] w h.symm
        cases hl
      | cons c v =>
        rw [cons_append, cons.injEq] at h
        exact ha.escaped u v (h.1 ▸ hv)

theorem plain (hu : isUtf8 a = true) (h : ∀ b ∈ a, 0x20 ≤ b ∧ b ≠ 0x5c ∧ b ≠ mark) :
    Escapes mark a a where
  utf8 := hu
  printable b hb := (h b hb).1
  escaped u w ha := absurd rfl (h mark (by simp [ha])).2.2
  read rest := by
    clear hu
    induction a with
    | nil => rfl
    | cons b a ih =>
      obtain ⟨⟨-, hs, hm⟩, ha⟩ := forall_mem_cons.mp h
      rw [cons_append, unescape_plain hs, if_neg hm, ih ha, map_cons, cons_append]

theorem letter {x : UInt8} (hm : mark ≠ 0x5c) (hx : 0x20 ≤ x ∧ x ≤ 0x7f ∧ x ≠ 0x78 ∧ x ≠ 0x75) :
    Escapes mark [named x] [0x5c, x] where
  utf8 := isUtf8_ascii (by simp [hx])
  printable := by simp [hx.1]
  escaped u w h := by
    rcases u with _ | ⟨c, _ | ⟨d, u⟩⟩
    · exact absurd (by simpa using h : 0x5c = mark ∧ _).1.symm hm
    · simp at h
      simp [← h.1]
    · simp at h
  read := unescape_letter hx.2.2

theorem hexDigit_spec : ∀ n < 16, hexValue (hexDigit n) = n ∧ 0x20 ≤ hexDigit n ∧
    hexDigit n ≤ 0x7f ∧ hexDigit n ≠ 0x22 ∧ hexDigit n ≠ 0x3d := by
  decide

theorem hex {start : Bytes} (hs : start = [0x5c, 0x78] ∨ start = [0x5c, 0x75, 0x30, 0x30])
    (hm : mark = 0x22 ∨ mark = 0x3d) (b : UInt8) : Escapes mark [b] (start ++ hexText b) := by
  have hb := b.toNat_lt
  obtain ⟨hh, hh1, hh2, hh3⟩ := hexDigit_spec (b.toNat / 16) (by omega)
  obtain ⟨hl, hl1, hl2, hl3⟩ := hexDigit_spec (b.toNat % 16) (by omega)
  have hv : hexByte (hexDigit (b.toNat / 16)) (hexDigit (b.toNat % 16)) = b := by
    rw [hexByte, hh, hl, Nat.div_add_mod, UInt8.ofNat_toNat]
  have hp : ∀ c ∈ start ++ hexText b, 0x20 ≤ c ∧ c ≤ 0x7f ∧ c ≠ mark := by
    rcases hs with rfl | rfl <;> rcases hm with rfl | rfl <;> simp [hexText, *]
  exact ⟨⟨isUtf8_ascii fun c hc => ⟨(hp c hc).1, (hp c hc).2.1⟩, fun c hc => (hp c hc).1,
    fun rest => (unescape_hex hs _ _ rest).trans (by rw [hv]; rfl)⟩,
    fun u w h => absurd rfl (hp mark (by simp [h])).2.2⟩

end Escapes

/-! ### The loop -/

theorem charLength_cases (b : UInt8) (s : Bytes) :
    (charLength (b :: s)).getD 1 = 1 ∨ ∃ c rest, b :: s = c ++ rest ∧
      (charLength (b :: s)).getD 1 = c.length ∧ 2 ≤ c.length ∧ (∀ x ∈ c, 0x80 ≤ x) ∧
      isUtf8 c = true := by
  rw [charLength]
  split_ifs with h
  · exact .inl rfl
  · cases hf : [2, 3, 4].find? fun n => n ≤ (b :: s).length && ((b :: s).take n).all (0x80 ≤ ·) &&
        isUtf8 ((b :: s).take n) with
    | none => exact .inl rfl
    | some n =>
      have hn := find?_some hf
      have hm := mem_of_find?_eq_some hf
      simp only [Bool.and_eq_true, decide_eq_true_eq, all_eq_true] at hn
      refine .inr ⟨_, _, (take_append_drop n (b :: s)).symm, ?_⟩
      rw [length_take, min_eq_left hn.1.1]
      refine ⟨rfl, ?_, hn.1.2, hn.2⟩
      simp at hm
      omega

theorem escapeLoop_eq {mark : UInt8} {word : Bytes → Bytes} (ho : ∀ b, Escapes mark [b] (word [b]))
    (hm : ∀ c, 2 ≤ c.length → (∀ x ∈ c, 0x80 ≤ x) → isUtf8 c = true → Escapes mark c (word c))
    (fuel : ℕ) (str beyond out : Bytes) (hf : str.length ≤ fuel) :
    ∃ text, escapeLoop word fuel (str ++ beyond) str.length out = some (beyond, out ++ text) ∧
      Escapes mark str text := by
  induction fuel generalizing str out with
  | zero =>
    obtain rfl := length_eq_zero_iff.mp (Nat.le_zero.mp hf)
    exact ⟨[], by simp [escapeLoop], .nil⟩
  | succ fuel ih =>
    cases str with
    | nil => exact ⟨[], by simp [escapeLoop], .nil⟩
    | cons b s =>
      obtain ⟨c, rest, hc, hn, he⟩ : ∃ c rest, b :: s = c ++ rest ∧
          (charLength (b :: s)).getD 1 = c.length ∧ 0 < c.length ∧ Escapes mark c (word c) := by
        rcases charLength_cases b s with h | ⟨c, rest, hc, hn, h2, hx, hu⟩
        · exact ⟨[b], s, rfl, h, Nat.one_pos, ho b⟩
        · exact ⟨c, rest, hc, hn, by omega, hm c h2 hx hu⟩
      have hl := congrArg length hc
      rw [length_append] at hl
      obtain ⟨text, ht, hr⟩ := ih rest (out ++ word c) (by omega)
      refine ⟨word c ++ text, ?_, hc ▸ he.2.append hr⟩
      have hz : ((b :: s).length : ℤ) - c.length = rest.length := by omega
      rw [escapeLoop, if_neg (by omega), Int.toNat_natCast, take_left]
      simp only [hn, hz]
      rw [hc, append_assoc, drop_left, take_left, ht, append_assoc]

/-- A table of letters that can be read back -/
def Readable (mark : UInt8) (letter : UInt8 → Option UInt8) : Prop :=
  ∀ b, match letter b with
    | some x => named x = b ∧ 0x20 ≤ x ∧ x ≤ 0x7f ∧ x ≠ 0x78 ∧ x ≠ 0x75
    | none => b ≠ 0x5c ∧ b ≠ mark

theorem escapeLoop_word {mark : UInt8} {letter : UInt8 → Option UInt8} {control : Bytes}
    (hl : Readable mark letter) (hm : mark = 0x22 ∨ mark = 0x3d)
    (hc : control = [0x5c, 0x78] ∨ control = [0x5c, 0x75, 0x30, 0x30])
    (str beyond out : Bytes) :
    ∃ text, escapeLoop (word letter control) str.length (str ++ beyond) str.length out =
      some (beyond, out ++ text) ∧ Escapes mark str text := by
  have hne : mark < 0x80 ∧ mark ≠ 0x5c := by rcases hm with rfl | rfl <;> decide
  refine escapeLoop_eq (fun b => ?_) (fun c h2 hx hu => ?_) _ str beyond out le_rfl
  · have h := hl b
    rw [word]
    cases hb : letter b with
    | some x =>
      rw [hb] at h
      exact h.1 ▸ .letter hne.2 h.2
    | none =>
      rw [hb] at h
      split_ifs with h1 h2
      · exact .hex (.inl rfl) hm b
      · exact .hex hc hm b
      · rw [UInt8.not_le] at h1
        rw [UInt8.not_lt] at h2
        have h7 : b ≤ 0x7f := Nat.le_of_lt_succ h1
        exact .plain (isUtf8_ascii (by simp [h2, h7])) (by simp [h2, h])
  · have hw : word letter control c = c := by
      rcases c with _ | ⟨b, _ | ⟨d, c⟩⟩
      · rfl
      · simp at h2
      · rfl
    rw [hw]
    refine .plain hu fun b hb => ⟨UInt8.le_trans (by decide) (hx b hb), ?_, ?_⟩ <;> rintro rfl
    · exact absurd (hx _ hb) (by decide)
    · exact absurd (hx _ hb) (UInt8.not_le.mpr hne.1)

theorem readable_binaryLetter : Readable 0x22 (binaryLetter [0x22]) := by
  intro b
  rw [binaryLetter]
  split_ifs with h1 h2 h3 h4 h5 h6 h7 <;> try (subst b; decide)
  · simp only [Bool.and_eq_true, contains_eq_mem, mem_singleton, decide_eq_true_eq] at h7
    rw [h7.2]
    decide
  · refine ⟨h6, ?_⟩
    rintro rfl
    exact h7 rfl

/-- All bytes that are given are consumed; the text that is appended is valid and can be undone. -/
theorem binary_escaping_undone (str beyond result : Bytes) :
    ∃ text, appendUnsafeUtf8AsEscapedBinary str.length (str ++ beyond) str.length [0x22] result =
        some (beyond, result ++ text) ∧
      isUtf8 text = true ∧ (∀ b ∈ text, 0x20 ≤ b) ∧
      (∀ u w, text = u ++ 0x22 :: w → u.getLast? = some 0x5c) ∧
      unescape 0x22 text = str.map some := by
  obtain ⟨text, ht, h⟩ :=
    escapeLoop_word readable_binaryLetter (.inl rfl) (.inl rfl) str beyond result
  refine ⟨text, ht, h.utf8, h.printable, h.escaped, ?_⟩
  rw [← append_nil text, h.read]
  exact append_nil _

/-! ### Fields of a CEF extension -/

/-- The letters of `tf_cef_append_escaped` -/
def cefLetter (b : UInt8) : Option UInt8 :=
  if b = 0x3d then some 0x3d
  else if b = 0x0a then some 0x6e
  else if b = 0x0d then some 0x72
  else if b = 0x5c then some 0x5c
  else none

def tfCefAppendEscaped (out value : Bytes) : Option Bytes :=
  let str := value.takeWhile (· != 0)
  (escapeLoop (word cefLetter [0x5c, 0x75, 0x30, 0x30]) str.length str str.length out).map (·.2)

/-- `tf_cef_walker` for the pairs of a message; it stops at a key that is not valid if the message
is to be dropped then. The result, and whether it was stopped -/
def tfCefAppend (drop : Bool) : Bool → Bytes → List (Bytes × Bytes) → Option (Bytes × Bool)
  | _, result, [] => some (result, false)
  | needSeparator, result, (name, value) :: pairs =>
    if !name.all isAlnum then
      if drop then some (result, true) else tfCefAppend drop needSeparator result pairs
    else do
      let separator := if needSeparator then [0x20] else []
      let result ← tfCefAppendEscaped (result ++ (separator ++ name ++ [0x3d])) value
      tfCefAppend drop true result pairs

/-- `tf_cef_call` for one message -/
def tfCefCall (drop : Bool) (pairs : List (Bytes × Bytes)) (result : Bytes) : Option Bytes := do
  let (out, stopped) ← tfCefAppend drop false result pairs
  return if stopped && drop then result else out

/-- The bytes of a name, then a mark and the bytes of the value, with a space between two fields -/
def cefFields : Bool → List (Bytes × Bytes) → List (Option UInt8)
  | _, [] => []
  | needSeparator, (name, value) :: pairs => (if needSeparator then [some 0x20] else []) ++
    name.map some ++ [none] ++ value.map some ++ cefFields true pairs

/-- A name that is alphanumeric and a value without NUL -/
def IsField (p : Bytes × Bytes) : Prop := p.1.all isAlnum = true ∧ 0 ∉ p.2

theorem tfCefAppendEscaped_eq {value : Bytes} (h : 0 ∉ value) (out : Bytes) :
    ∃ text, tfCefAppendEscaped out value = some (out ++ text) ∧ Escapes 0x3d value text := by
  have ht : value.takeWhile (· != 0) = value :=
    takeWhile_eq_self_iff.mpr fun b hb => bne_iff_ne.mpr (ne_of_mem_of_not_mem hb h)
  have hl : Readable 0x3d cefLetter := by
    intro b
    rw [cefLetter]
    split_ifs with h1 h2 h3 h4 <;> try (subst b; decide)
    exact ⟨h4, h1⟩
  obtain ⟨text, hx, he⟩ := escapeLoop_word hl (.inr rfl) (.inr rfl) value [] out
  rw [append_nil] at hx
  exact ⟨text, by simp [tfCefAppendEscaped, ht, hx], he⟩

theorem isAlnum_spec {b : UInt8} (h : isAlnum b = true) :
    0x20 < b ∧ b ≤ 0x7f ∧ b ≠ 0x5c ∧ b ≠ 0x3d := by
  simp only [isAlnum, isDigit, Bool.or_eq_true, Bool.and_eq_true, decide_eq_true_eq,
    UInt8.le_iff_toNat_le, UInt8.lt_iff_toNat_lt, ← UInt8.toNat_inj, ne_eq,
    UInt8.reduceToNat] at h ⊢
  omega

theorem reads_head {name : Bytes} (h : name.all isAlnum = true) (needSeparator : Bool) :
    Reads 0x3d ((if needSeparator then [some 0x20] else []) ++ name.map some ++ [none])
      ((if needSeparator then [0x20] else []) ++ name ++ [0x3d]) := by
  have hs : Reads 0x3d (if needSeparator then [some 0x20] else [])
      (if needSeparator then [0x20] else []) := by
    cases needSeparator with
    | false => exact Escapes.nil.toReads
    | true => exact ⟨rfl, by simp, unescape_plain (by decide)⟩
  have hn : Escapes 0x3d name name := by
    have ha := fun b hb => isAlnum_spec (all_eq_true.mp h b hb)
    exact .plain (isUtf8_ascii fun b hb => ⟨UInt8.le_of_lt (ha b hb).1, (ha b hb).2.1⟩)
      fun b hb => ⟨UInt8.le_of_lt (ha b hb).1, (ha b hb).2.2⟩
  exact (hs.append hn.toReads).append ⟨rfl, by simp, unescape_plain (by decide)⟩

theorem tfCefAppend_eq (drop : Bool) {pairs : List (Bytes × Bytes)} (h : ∀ p ∈ pairs, IsField p)
    (needSeparator : Bool) (result : Bytes) :
    ∃ text, tfCefAppend drop needSeparator result pairs = some (result ++ text, false) ∧
      Reads 0x3d (cefFields needSeparator pairs) text := by
  induction pairs generalizing needSeparator result with
  | nil => exact ⟨[], by simp [tfCefAppend], Escapes.nil.toReads⟩
  | cons p pairs ih =>
    obtain ⟨name, value⟩ := p
    obtain ⟨hf, hp⟩ := forall_mem_cons.mp h
    have hh := reads_head hf.1 needSeparator
    rw [tfCefAppend, hf.1, cefFields]
    simp only [Bool.not_true, Bool.false_eq_true, if_false]
    generalize (if needSeparator then [0x20] else []) ++ name ++ [0x3d] = head at hh
    obtain ⟨text, ht, he⟩ := tfCefAppendEscaped_eq hf.2 (result ++ head)
    obtain ⟨more, hm, hr⟩ := ih hp true (result ++ head ++ text)
    refine ⟨head ++ text ++ more, ?_, (hh.append he.toReads).append hr⟩
    simp only [ht, Option.bind_eq_bind, Option.bind_some]
    rw [hm, append_assoc, append_assoc, append_assoc]

theorem eq_of_append_last {α : Type*} {sep : α} {a b x y : List α} (ha : sep ∉ a) (hb : sep ∉ b)
    (h : x ++ sep :: a = y ++ sep :: b) : x = y ∧ a = b := by
  have hr := congrArg reverse h
  simp only [reverse_append, reverse_cons, append_assoc, singleton_append] at hr
  have he := Separated.eq_of_append_sep_eq (by simpa using ha) (by simpa using hb) hr
  exact ⟨reverse_injective he.2, reverse_injective he.1⟩

theorem cefFields_inj {ps qs : List (Bytes × Bytes)} (hp : ∀ p ∈ ps, IsField p)
    (hq : ∀ q ∈ qs, IsField q) {v w : Bytes}
    (h : v.map some ++ cefFields true ps = w.map some ++ cefFields true qs) : v = w ∧ ps = qs := by
  have hi : Function.Injective (map (some : UInt8 → Option UInt8)) :=
    map_injective_iff.mpr (Option.some_injective _)
  have hnn := congrArg (none ∈ ·) h
  have hnm : ∀ {p : Bytes × Bytes}, IsField p → some 0x20 ∉ p.1.map some := by
    intro p hf hm
    obtain ⟨b, hb, he⟩ := mem_map.mp hm
    cases he
    exact absurd (isAlnum_spec (all_eq_true.mp hf.1 _ hb)).1 (by decide)
  induction ps generalizing qs v w with
  | nil =>
    cases qs with
    | nil => exact ⟨hi (by simpa [cefFields] using h), rfl⟩
    | cons q qs => simp [cefFields] at hnn
  | cons p ps ih =>
    cases qs with
    | nil => simp [cefFields] at hnn
    | cons q qs =>
      obtain ⟨hpf, hps⟩ := forall_mem_cons.mp hp
      obtain ⟨hqf, hqs⟩ := forall_mem_cons.mp hq
      -- the first mark stands behind a name, and the space before the name is the last one there
      replace h : (v.map some ++ some 0x20 :: p.1.map some) ++ none ::
          (p.2.map some ++ cefFields true ps) = (w.map some ++ some 0x20 :: q.1.map some) ++ none ::
          (q.2.map some ++ cefFields true qs) := by simpa [cefFields] using h
      obtain ⟨hf, hr⟩ := Separated.eq_of_append_sep_eq (by simp) (by simp) h
      obtain ⟨hv, hn⟩ := eq_of_append_last (hnm hpf) (hnm hqf) hf
      obtain ⟨hu, rfl⟩ := ih hps hqs hr (congrArg (none ∈ ·) hr)
      exact ⟨hi hv, by rw [Prod.ext (hi hn) hu]⟩

theorem tfCefCall_eq (drop : Bool) {pairs : List (Bytes × Bytes)} (h : ∀ p ∈ pairs, IsField p)
    (result : Bytes) : ∃ text, tfCefCall drop pairs result = some (result ++ text) ∧
      isUtf8 text = true ∧ (∀ b ∈ text, 0x20 ≤ b) ∧ unescape 0x3d text = cefFields false pairs := by
  obtain ⟨text, ht, hr⟩ := tfCefAppend_eq drop h false result
  refine ⟨text, by simp [tfCefCall, ht], hr.utf8, hr.printable, ?_⟩
  rw [← append_nil text, hr.read]
  exact append_nil _

/-- Two messages with the same text have the same fields. The text is valid, and when it is read
there is a mark that is not escaped behind each name and nowhere else. -/
theorem cef_fields_determined (drop : Bool) (ps qs : List (Bytes × Bytes))
    (hp : ∀ p ∈ ps, IsField p) (hq : ∀ q ∈ qs, IsField q) (result : Bytes) :
    (tfCefCall drop ps result = tfCefCall drop qs result → ps = qs) ∧
      ∃ text, tfCefCall drop ps result = some (result ++ text) ∧ isUtf8 text = true ∧
        (∀ b ∈ text, 0x20 ≤ b) ∧ unescape 0x3d text = cefFields false ps := by
  refine ⟨fun h => ?_, tfCefCall_eq drop hp result⟩
  obtain ⟨text, ht, -, -, hr⟩ := tfCefCall_eq drop hp result
  obtain ⟨text', ht', -, -, hr'⟩ := tfCefCall_eq drop hq result
  rw [ht, ht', Option.some.injEq, append_cancel_left_eq] at h
  rw [h, hr'] at hr
  have hs : ∀ rs, cefFields true rs =
      if cefFields false rs = [] then [] else some 0x20 :: cefFields false rs := by
    intro rs
    cases rs <;> simp [cefFields]
  refine (cefFields_inj hp hq (v := []) (w := []) ?_).2
  rw [hs, hs, hr]

/-- The fields `a=1` and `b=2`, and the field `a` with the value `1 b=2`, whose text is another
one. -/
theorem cef_fields_determined_twoFields :
    tfCefCall true [([0x61], [0x31]), ([0x62], [0x32])] [] ≠
        tfCefCall true [([0x61], [0x31, 0x20, 0x62, 0x3d, 0x32])] [] ∧
      ∃ text, tfCefCall true [([0x61], [0x31]), ([0x62], [0x32])] [] = some ([] ++ text) ∧
        isUtf8 text = true ∧ (∀ b ∈ text, 0x20 ≤ b) ∧ unescape 0x3d text =
          [some 0x61, none, some 0x31, some 0x20, some 0x62, none, some 0x32] := by
  obtain ⟨hd, ht⟩ := cef_fields_determined true [([0x61], [0x31]), ([0x62], [0x32])]
    [([0x61], [0x31, 0x20, 0x62, 0x3d, 0x32])]
    (forall_mem_cons.mpr ⟨⟨by decide, by decide⟩, forall_mem_singleton.mpr ⟨by decide, by decide⟩⟩)
    (forall_mem_singleton.mpr ⟨by decide, by decide⟩) []
  exact ⟨fun he => absurd (hd he) (by decide), ht⟩

end SyslogNg.Template
