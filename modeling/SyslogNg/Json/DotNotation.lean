import SyslogNg.PatternDb.RateLimit
import SyslogNg.Template.BasicFuncs

/-!
# Dot notation

`json_dot_notation_compile` of `modules/json/dot-notation.c` cuts a path at dots and opening
brackets and compiles the pieces one by one.
-/
namespace SyslogNg.Json

open List Template PatternDb

inductive Elem
  | memberRef (name : Bytes)
  | arrayRef (index : ℕ)
  deriving DecidableEq

/-- `g_ascii_isprint` and none of `.[]` -/
def isMemberChar (b : UInt8) : Bool :=
  0x20 ≤ b && b ≤ 0x7e && b != 0x2e && b != 0x5b && b != 0x5d

def IsName (u : Bytes) : Prop := u ≠ [] ∧ u.all isMemberChar = true

instance (u : Bytes) : Decidable (IsName u) := inferInstanceAs (Decidable (_ ∧ _))

/-- `strtol` finds the closing bracket at the end and its number is not negative as a `gint`. -/
def IsIndex (u : Bytes) : Prop := (strtoll u).2 = [0x5d] ∧ 0 ≤ atoi u

instance (u : Bytes) : Decidable (IsIndex u) := inferInstanceAs (Decidable (_ ∧ _))

def compileDotNotationElem (level : Bytes) : Option Elem :=
  if level.head? = some 0x5b then
    if IsIndex level.tail then some (.arrayRef (atoi level.tail).toNat) else none
  else if IsName level then some (.memberRef level) else none

def splitDotNotation : Bytes → Bytes → List Bytes
  | piece, [] => [piece]
  | piece, b :: rest =>
    if b = 0x2e then piece :: splitDotNotation [] rest
    else if b = 0x5b then piece :: splitDotNotation [b] rest
    else splitDotNotation (piece ++ [b]) rest

def levels (s : Bytes) : List Bytes :=
  let levels := splitDotNotation [] s
  if levels.head? = some [] then levels.tail else levels

/-- `json_dot_notation_compile`: the elements, none if a piece fails -/
def jsonDotNotationCompile (s : Bytes) : Option (List Elem) :=
  if ∀ level ∈ levels s, (compileDotNotationElem level).isSome then
    some ((levels s).filterMap compileDotNotationElem)
  else none

/-! ### The grammar -/

inductive Piece
  | dot (u : Bytes)
  | bracket (u : Bytes)

namespace Piece

def text : Piece → Bytes
  | dot u => 0x2e :: u
  | bracket u => 0x5b :: u

def level : Piece → Bytes
  | dot u => u
  | bracket u => 0x5b :: u

/-- A member, or an index of decimal digits -/
def elem : Piece → Option Elem
  | dot u => if IsName u then some (.memberRef u) else none
  | bracket u =>
    let digits := u.dropLast
    if u.getLast? = some 0x5d ∧ digits ≠ [] ∧ digits.all isDigit ∧ decimal digits ≤ 2147483647 then
      some (.arrayRef (decimal digits))
    else none

def Taken : Piece → Prop
  | dot u => IsName u
  | bracket u => IsIndex u

end Piece

open Piece

def Clean (u : Bytes) : Prop := 0x2e ∉ u ∧ 0x5b ∉ u

/-- These are the pieces of a path, which may begin with a member without a dot. -/
def Reads (s : Bytes) (pieces : List Piece) : Prop :=
  (pieces.flatMap text = s ∨ pieces.flatMap text = 0x2e :: s) ∧ ∀ p ∈ pieces, Clean p.text.tail

def Grammar (s : Bytes) (steps : List Elem) : Prop :=
  ∃ pieces, Reads s pieces ∧ (∀ p ∈ pieces, p.elem.isSome) ∧ pieces.filterMap Piece.elem = steps

/-! ### Splitting -/

variable {s u piece rest : Bytes} {pieces : List Piece}

theorem split_append (h : Clean u) (piece rest : Bytes) :
    splitDotNotation piece (u ++ rest) = splitDotNotation (piece ++ u) rest := by
  induction u generalizing piece with
  | nil => simp
  | cons b u ih =>
    simp only [Clean, mem_cons, not_or] at h
    rw [cons_append, splitDotNotation, if_neg (Ne.symm h.1.1), if_neg (Ne.symm h.2.1),
      ih ⟨h.1.2, h.2.2⟩, append_assoc, singleton_append]

theorem split_text (h : ∀ p ∈ pieces, Clean p.text.tail) (piece : Bytes) :
    splitDotNotation piece (pieces.flatMap text) = piece :: pieces.map level := by
  induction pieces generalizing piece with
  | nil => rfl
  | cons p pieces ih =>
    obtain ⟨hp, hs⟩ := forall_mem_cons.mp h
    rw [map_cons, ← ih hs p.level]
    cases p with
    | dot u => exact congrArg (piece :: ·) (split_append hp [] _)
    | bracket u => exact congrArg (piece :: ·) (split_append hp [0x5b] _)

theorem exists_pieces (s : Bytes) : ∃ u pieces, s = u ++ flatMap text pieces ∧
    Clean u ∧ ∀ p ∈ pieces, Clean p.text.tail := by
  induction s with
  | nil => exact ⟨[], [], by simp [Clean]⟩
  | cons b s ih =>
    obtain ⟨u, pieces, rfl, hu, hp⟩ := ih
    by_cases hd : b = 0x2e
    · exact ⟨[], .dot u :: pieces, by simp [hd, text], by simp [Clean],
        forall_mem_cons.mpr ⟨hu, hp⟩⟩
    by_cases hb : b = 0x5b
    · exact ⟨[], .bracket u :: pieces, by simp [hb, text], by simp [Clean],
        forall_mem_cons.mpr ⟨hu, hp⟩⟩
    · exact ⟨b :: u, pieces, by simp, by simp_all [Clean, eq_comm], hp⟩

theorem levels_text (h : ∀ p ∈ pieces, Clean p.text.tail) :
    levels (pieces.flatMap text) = pieces.map level := by
  rw [levels, split_text h, head?_cons, if_pos rfl, tail_cons]

theorem levels_append (hu : Clean u) (hn : u ≠ [])
    (h : ∀ p ∈ pieces, Clean p.text.tail) :
    levels (u ++ pieces.flatMap text) = (dot u :: pieces).map level := by
  rw [levels, split_append hu, split_text h]
  simp [hn, level]

theorem levels_of_taken (h : Reads s pieces) (ht : ∀ p ∈ pieces, p.Taken) :
    levels s = pieces.map level := by
  obtain ⟨rfl | h, hc⟩ := h
  · exact levels_text hc
  · cases pieces with
    | nil => cases h
    | cons p pieces =>
      cases p with
      | bracket u => cases h
      | dot u =>
        obtain ⟨hu, hp⟩ := forall_mem_cons.mp hc
        obtain rfl : u ++ pieces.flatMap text = s := by simpa [text] using h
        exact levels_append hu (ht (dot u) mem_cons_self).1 hp

theorem exists_reads (s : Bytes) : ∃ pieces, Reads s pieces ∧ levels s = pieces.map level := by
  obtain ⟨u, pieces, rfl, hu, hp⟩ := exists_pieces s
  by_cases hn : u = []
  · subst hn
    exact ⟨pieces, ⟨.inl rfl, hp⟩, levels_text hp⟩
  · exact ⟨dot u :: pieces, ⟨.inr rfl, forall_mem_cons.mpr ⟨hu, hp⟩⟩, levels_append hu hn hp⟩

/-! ### Elements -/

variable {p : Piece} {e : Elem}

theorem isSome_compile_iff (h : 0x5b ∉ p.text.tail) :
    (compileDotNotationElem p.level).isSome ↔ p.Taken := by
  cases p with
  | dot u =>
    have hu : u.head? ≠ some 0x5b := fun hh => h (mem_of_mem_head? hh)
    by_cases hn : IsName u <;> simp [compileDotNotationElem, level, hu, Taken, hn]
  | bracket u => by_cases hi : IsIndex u <;> simp [compileDotNotationElem, level, Taken, hi]

theorem index_digits {d : Bytes} (hn : d ≠ []) (hd : d.all isDigit = true)
    (hm : decimal d ≤ 2147483647) : IsIndex (d ++ [0x5d]) ∧ atoi (d ++ [0x5d]) = decimal d := by
  obtain ⟨b, d', rfl⟩ := exists_cons_of_ne_nil hn
  have ht : takeWhile isDigit (b :: d' ++ [0x5d]) = b :: d' := by
    rw [takeWhile_append_of_pos (all_eq_true.mp hd)]
    exact append_nil _
  have hr : dropWhile isDigit (b :: d' ++ [0x5d]) = [0x5d] := by
    rw [dropWhile_append_of_pos (all_eq_true.mp hd)]
    rfl
  obtain ⟨hb, -, h1, h2⟩ := isDigit_spec (all_eq_true.mp hd b mem_cons_self)
  have hs : dropWhile isspace (b :: d' ++ [0x5d]) = b :: d' ++ [0x5d] := by simp [hb]
  have hh : (b :: d' ++ [0x5d]).head? = some b := rfl
  generalize b :: d' ++ [0x5d] = u at ht hr hs hh ⊢
  generalize b :: d' = d at ht hn hm ⊢
  have ha : atoi u = decimal d := by
    have hl : min (2 ^ 63 - 1) (decimal d : ℤ) = decimal d := by omega
    have e1 : (some b == some 0x2d) = false := by simp [h1]
    have e2 : (some b == some 0x2b) = false := by simp [h2]
    simp only [atoi, hs, hh, e1, e2, Bool.or_self, Bool.false_eq_true, if_false, ht, hl]
    exact Int.bmod_eq_of_le_mul_two (by omega) (by omega)
  refine ⟨⟨?_, by omega⟩, ha⟩
  have hu : unsigned u = u := by simp [unsigned, hh, h1, h2]
  simp only [strtoll, hs, hu, ht, hn, hr, if_false]

theorem compile_of_elem (h : p.elem = some e) : compileDotNotationElem p.level = some e := by
  cases p with
  | dot u =>
    rw [Piece.elem] at h
    split_ifs at h with hu
    have hh : u.head? ≠ some 0x5b := fun hh =>
      absurd (all_eq_true.mp hu.2 _ (mem_of_mem_head? hh)) (by decide)
    simpa [compileDotNotationElem, level, hh, hu] using h
  | bracket u =>
    rw [Piece.elem] at h
    split_ifs at h with hu
    obtain ⟨hl, hn, hd, hm⟩ := hu
    have hx := index_digits hn hd hm
    rw [dropLast_append_getLast? _ hl] at hx
    simpa [compileDotNotationElem, level, hx] using h

theorem filterMap_elem (h : ∀ p ∈ pieces, p.elem.isSome) :
    (pieces.map level).filterMap compileDotNotationElem = pieces.filterMap Piece.elem := by
  rw [filterMap_map]
  refine filterMap_congr fun p hp => ?_
  obtain ⟨e, he⟩ := Option.isSome_iff_exists.mp (h p hp)
  rw [he]
  exact compile_of_elem he

theorem taken_of_elem (h : p.elem.isSome) (hb : 0x5b ∉ p.text.tail) : p.Taken := by
  obtain ⟨e, he⟩ := Option.isSome_iff_exists.mp h
  rw [← isSome_compile_iff hb, compile_of_elem he]
  rfl

/-- The paths of the grammar are compiled, and no others, unless a path has an index that is taken
for one but is not a number of decimal digits up to 2147483647. -/
theorem grammar_iff (s : Bytes) :
    (∀ steps, jsonDotNotationCompile s = some steps ↔ Grammar s steps) ↔
      ∀ pieces, Reads s pieces → (∀ p ∈ pieces, p.Taken) → ∀ p ∈ pieces, p.elem.isSome := by
  constructor
  · intro h pieces hr ht p hp
    have hl := levels_of_taken hr ht
    have hs : ∀ l ∈ levels s, (compileDotNotationElem l).isSome := by
      rw [hl, forall_mem_map]
      exact fun p hp => (isSome_compile_iff (hr.2 p hp).2).mpr (ht p hp)
    obtain ⟨qs, hq, he, -⟩ := (h _).mp (if_pos hs)
    rw [levels_of_taken hq fun q hm => taken_of_elem (he q hm) (hq.2 q hm).2] at hl
    obtain ⟨q, hm, hlv⟩ := mem_map.mp (hl ▸ mem_map_of_mem hp : p.level ∈ qs.map level)
    -- a piece behind a dot does not begin with a bracket
    have hpq : q = p := by
      have h1 := (hq.2 q hm).2
      have h2 := (hr.2 p hp).2
      cases q <;> cases p <;> grind [level, text]
    exact hpq ▸ he q hm
  · intro hc steps
    constructor
    · intro h
      obtain ⟨pieces, hr, hl⟩ := exists_reads s
      rw [jsonDotNotationCompile, hl] at h
      split_ifs at h with hs
      have he := hc pieces hr fun p hp =>
        (isSome_compile_iff (hr.2 p hp).2).mp (hs _ (mem_map_of_mem hp))
      exact ⟨pieces, hr, he, by rw [← filterMap_elem he]; exact Option.some.inj h⟩
    · rintro ⟨pieces, hr, he, rfl⟩
      have ht := fun p hp => taken_of_elem (he p hp) (hr.2 p hp).2
      rw [jsonDotNotationCompile, levels_of_taken hr ht, filterMap_elem he, if_pos]
      rw [forall_mem_map]
      exact fun p hp => (isSome_compile_iff (hr.2 p hp).2).mpr (ht p hp)

/-- `[]` is taken for `[0]`. -/
theorem empty_index : ¬∀ steps, jsonDotNotationCompile [0x5b, 0x5d] = some steps ↔
    Grammar [0x5b, 0x5d] steps := by
  intro h
  obtain ⟨pieces, hr, he, -⟩ := (h [.arrayRef 0]).mp (by decide)
  have hl : [[0x5b, 0x5d]] = pieces.map level :=
    levels_of_taken hr fun p hp => taken_of_elem (he p hp) (hr.2 p hp).2
  obtain ⟨p, hp, hv⟩ := mem_map.mp (hl ▸ mem_singleton_self _)
  cases p with
  | dot u =>
    obtain rfl : u = [0x5b, 0x5d] := hv
    exact absurd (he _ hp) (by decide)
  | bracket u =>
    obtain rfl : u = [0x5d] := (cons.inj hv).2
    exact absurd (he _ hp) (by decide)

end SyslogNg.Json
