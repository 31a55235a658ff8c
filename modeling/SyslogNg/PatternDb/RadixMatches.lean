import SyslogNg.PatternDb.RadixLiteral

/-!
# Matches of parsers

A message matches a tree along a path of literal and parser nodes. There may be several such paths;
the search goes through them in the order of preference, and the array of matches grows and is cut
with it. In the end it holds one match for each parser on the path that was found: with the handle
of the parser, but with an offset and a length of 16 bits that are relative to what the parser says.
-/
namespace SyslogNg.PatternDb

open List RFindNodeState

namespace RNode

variable {V : Type*}

/-- What a node of a path makes of the message -/
inductive Piece
  | literal (text : Bytes)
  | parsed (parser : RParserNode) (start : ℕ) (found : Extraction)

def Piece.text (whole : Bytes) : Piece → Bytes
  | literal text => text
  | parsed _ start found => (whole.drop start).take found.len

/-- The pieces along a path, with the position behind them and the node that the path ends at. -/
def follow (env : ParserEnv) (whole : Bytes) :
    List PathStep → RNode V → (pos : ℕ) → Option (List Piece × ℕ × RNode V)
  | [], root, pos => some ([.literal root.text], pos + root.text.length, root)
  | .child i :: path, root, pos =>
    root.children[i]?.bind fun child =>
      (follow env whole path child (pos + root.text.length)).map fun rest =>
        (.literal root.text :: rest.1, rest.2)
  | .pchild i :: path, root, pos =>
    root.pchildren[i]?.bind fun child =>
      (child.tryParse env whole (pos + root.text.length)).bind fun (parser, found) =>
        (follow env whole path child (pos + root.text.length + found.len)).map fun rest =>
          (.literal root.text :: .parsed parser (pos + root.text.length) found :: rest.1, rest.2)

mutual

/-- All paths along which the text matches, in the order of preference. They end where the text does
or, unless a complete match is required, at any node with a value. -/
def ways (env : ParserEnv) (whole : Bytes) (complete : Bool) :
    RNode V → (pos : ℕ) → (keylen : ℤ) → List (List PathStep)
  | ⟨key, parser, value, children, pchildren⟩, pos, keylen =>
    let root : RNode V := ⟨key, parser, value, children, pchildren⟩
    match root.literalMatch (whole.drop pos) keylen with
    | .complete => if value.isSome then [[]] else []
    | .mismatch => []
    | .goOn n =>
      waysByLiteral env whole complete children 0
          (findChildByFirstCharacter children (charAt whole (pos + n))) (pos + n) (keylen - n) ++
        waysByParsers env whole complete pchildren 0 (pos + n) (keylen - n) ++
        if value.isSome && !complete then [[]] else []

def waysByLiteral (env : ParserEnv) (whole : Bytes) (complete : Bool) :
    List (RNode V) → (ndx : ℕ) → (i : Option ℕ) → (pos : ℕ) → (keylen : ℤ) → List (List PathStep)
  | child :: _, ndx, some 0, pos, keylen =>
    (ways env whole complete child pos keylen).map (PathStep.child ndx :: ·)
  | _ :: children, ndx, some (i + 1), pos, keylen =>
    waysByLiteral env whole complete children (ndx + 1) (some i) pos keylen
  | _, _, _, _, _ => []

def waysByParsers (env : ParserEnv) (whole : Bytes) (complete : Bool) :
    List (RNode V) → (ndx : ℕ) → (pos : ℕ) → (keylen : ℤ) → List (List PathStep)
  | [], _, _, _ => []
  | child :: pchildren, ndx, pos, keylen =>
    match child.tryParse env whole pos with
    | none => waysByParsers env whole complete pchildren (ndx + 1) pos keylen
    | some (_, found) =>
      (ways env whole complete child (pos + found.len) (keylen - found.len)).map
          (PathStep.pchild ndx :: ·) ++
        waysByParsers env whole complete pchildren (ndx + 1) pos keylen

end

section search

variable {env : ParserEnv} {whole : Bytes} {pos : ℕ} {keylen : ℤ} {complete : Bool}

/-- What the search stores for a piece -/
def Piece.stored : Piece → Option RParserMatch
  | literal _ => none
  | parsed parser start found => some (fixupMatch parser found start)

@[simp] theorem filterMap_stored_literal (text : Bytes) (pieces : List Piece) :
    (Piece.literal text :: pieces).filterMap Piece.stored = pieces.filterMap Piece.stored := rfl

@[simp] theorem filterMap_stored_parsed (parser : RParserNode) (start : ℕ) (found : Extraction)
    (pieces : List Piece) : (Piece.parsed parser start found :: pieces).filterMap Piece.stored =
      fixupMatch parser found start :: pieces.filterMap Piece.stored := rfl

variable {t c : RNode V} {stored : List RParserMatch} {state : RFindNodeState}
  {path : List PathStep}

/-- The same for the loop over the parsers, which has a slot at the end of the array -/
def LoopAnswers (env : ParserEnv) (whole : Bytes) (t : RNode V) (pos : ℕ)
    (stored : List RParserMatch) (state : RFindNodeState) (ways shorter : List (List PathStep))
    (ret : Option (NodeRef V) × RFindNodeState) : Prop :=
  match ways with
  | [] => ∃ flag last, ret = (none, { state with
        partialMatchFound := flag
        storedMatches := some (stored ++ [last]) }) ∧
      (flag = true ↔ state.partialMatchFound = true ∨ shorter ≠ [])
  | path :: _ => ∃ flag pieces stop node, follow env whole path t pos = some (pieces, stop, node) ∧
      ret = (some { node := node, path := path }, { state with
        partialMatchFound := flag
        storedMatches := some (stored ++ pieces.filterMap Piece.stored) })

/-- A parser that leads nowhere only says whether there are shorter matches. -/
theorem LoopAnswers.skip {ways shorter first : List (List PathStep)}
    {ret : Option (NodeRef V) × RFindNodeState} {flag : Bool}
    {matches_ : Option (List RParserMatch)}
    (hfl : flag = true ↔ state.partialMatchFound = true ∨ first ≠ [])
    (h : LoopAnswers env whole t pos stored
      { state with partialMatchFound := flag, storedMatches := matches_ } ways shorter ret) :
    LoopAnswers env whole t pos stored state ways (first ++ shorter) ret := by
  cases ways with
  | nil =>
    obtain ⟨flag', last, hr, hfl'⟩ := h
    refine ⟨flag', last, hr, hfl'.trans ?_⟩
    rw [hfl, or_assoc, ne_eq, ne_eq, ne_eq, append_eq_nil_iff, not_and_or]
  | cons path rest => exact h

inductive ParsersBare : RNode V → Prop
  | intro {t : RNode V}
    (bare : ∀ c ∈ t.pchildren, c.text = [])
    (child : ∀ c ∈ t.children, ParsersBare c)
    (pchild : ∀ c ∈ t.pchildren, ParsersBare c) : ParsersBare t

end search

/-! ### Trees of rules -/

section rules

variable {env : ParserEnv} {v : V} {fuel : ℕ} {t c : RNode V} {key : Bytes} {f : RNode V → RNode V}

theorem parsersBare_newNode (key : Option Bytes) (value : Option V) :
    ParsersBare (newNode key value) := by
  refine .intro ?_ ?_ ?_ <;>
  · intro c hc
    simp [newNode] at hc

theorem ParsersBare.of_same {t' : RNode V} (h : ParsersBare t) (hc : t'.children = t.children)
    (hp : t'.pchildren = t.pchildren) : ParsersBare t' := by
  cases h with | intro bare child pchild =>
  rw [← hc] at child
  rw [← hp] at bare pchild
  exact .intro bare child pchild

theorem ParsersBare.addChild (h : ParsersBare t) (hc : ParsersBare c) :
    ParsersBare (t.addChild c) := by
  cases h with | intro bare child pchild =>
  refine .intro bare (fun d hd => ?_) pchild
  have hm : d ∈ t.children ++ [c] := (perm_insertionSort _ _).mem_iff.mp hd
  rcases mem_append.mp hm with ho | hn
  · exact child d ho
  · rw [mem_singleton.mp hn]
    exact hc

theorem ParsersBare.addPchild (h : ParsersBare t) (hc : ParsersBare c) (hb : c.text = []) :
    ParsersBare (t.addPchild c) := by
  cases h with | intro bare child pchild =>
  refine .intro (fun d hd => ?_) child (fun d hd => ?_)
  · rcases mem_append.mp hd with ho | hn
    · exact bare d ho
    · rw [mem_singleton.mp hn]
      exact hb
  · rcases mem_append.mp hd with ho | hn
    · exact pchild d ho
    · rw [mem_singleton.mp hn]
      exact hc

theorem mem_modify {l : List (RNode V)} {i : ℕ} (h : c ∈ l.modify i f) :
    c ∈ l ∨ ∃ d ∈ l, c = f d := by
  obtain ⟨j, hj⟩ := List.getElem?_of_mem h
  rw [List.getElem?_modify] at hj
  by_cases hij : i = j
  · simp only [hij, Option.map_eq_map, Option.map_eq_some_iff] at hj
    obtain ⟨d, hd, rfl⟩ := hj
    exact .inr ⟨d, mem_of_getElem? hd, rfl⟩
  · simp only [hij, if_false, Option.map_eq_map, Option.map_id_fun'] at hj
    exact .inl (mem_of_getElem? hj)

section

variable (h : ParsersBare t) (hf : ∀ c, ParsersBare c → ParsersBare (f c))
include h hf

theorem ParsersBare.modifyChild {i : ℕ} : ParsersBare (t.modifyChild i f) := by
  cases h with | intro bare child pchild =>
  refine .intro bare (fun d hd => ?_) pchild
  rcases mem_modify hd with ho | ⟨c, hc, rfl⟩
  · exact child d ho
  · exact hf c (child c hc)

theorem ParsersBare.modifyPchild {i : ℕ} (ht : ∀ c, c.text = [] → (f c).text = []) :
    ParsersBare (t.modifyPchild i f) := by
  cases h with | intro bare child pchild =>
  refine .intro (fun d hd => ?_) child (fun d hd => ?_)
  · rcases mem_modify hd with ho | ⟨c, hc, rfl⟩
    · exact bare d ho
    · exact ht c (bare c hc)
  · rcases mem_modify hd with ho | ⟨c, hc, rfl⟩
    · exact pchild d ho
    · exact hf c (pchild c hc)

end

theorem ParsersBare.split (h : ParsersBare t) (i : ℕ) : ParsersBare (t.split i) := by
  have ho : ParsersBare { newNode (some (t.text.drop i)) t.value with
      children := t.children
      pchildren := t.pchildren } := h.of_same rfl rfl
  refine ParsersBare.addChild (.intro ?_ ?_ ?_) ho <;>
  · intro c hc
    simp at hc

theorem ParsersBare.addChildCheck {insert : RNode V → Bytes → RNode V} (h : ParsersBare t)
    (hi : ∀ {t key}, ParsersBare t → ParsersBare (insert t key)) :
    ParsersBare (addChildCheck insert v t key) := by
  unfold RNode.addChildCheck
  split
  · exact h.addChild (parsersBare_newNode _ _)
  · exact hi h
  · exact h.addChild (hi (parsersBare_newNode _ _))

theorem addChildCheck_text {insert : RNode V → Bytes → RNode V} (h : t.text = [])
    (hi : ∀ {key}, (insert t key).text = []) : (addChildCheck insert v t key).text = [] := by
  unfold RNode.addChildCheck
  split
  · exact h
  · exact hi
  · exact h

/-- An insertion leaves the key of a node alone that has none. -/
theorem insertWithin_text (h : t.text = []) : (insertWithin env v fuel t key).text = [] := by
  induction fuel generalizing key with
  | zero => exact h
  | succ fuel ih =>
    rw [insertWithin]
    split_ifs with hat he
    · cases findChildByFirstCharacter t.children 0x40 <;> exact h
    · cases key.tail.findIdx? (· == 0x40) with
      | none => exact h
      | some stop =>
        dsimp only
        cases newPnode env (key.tail.take stop) with
        | none => exact h
        | some parser =>
          dsimp only
          cases t.findPchild parser <;> exact h
    · have hz : commonLen key t.text = 0 := by
        rw [h]
        cases key <;> rfl
      rw [hz, if_pos (.inr (.inl rfl))]
      cases findChildByFirstCharacter t.children (charAt (key.drop 0) 0) with
      | none => exact addChildCheck_text h ih
      | some j =>
        split_ifs
        · exact ih
        · exact h

theorem ParsersBare.insertWithin (h : ParsersBare t) :
    ParsersBare (insertWithin env v fuel t key) := by
  induction fuel generalizing t key with
  | zero => exact h
  | succ fuel ih =>
    -- what is done with the node behind an escaped `@` or a parser
    have hg : ∀ (rest : Bytes) (c : RNode V), ParsersBare c → ParsersBare
        (if rest = [] then c.setValueOnce v else RNode.insertWithin env v fuel c rest) := by
      intro rest c hc
      split_ifs
      · exact hc.of_same rfl rfl
      · exact ih hc
    have hgo : ∀ (rest : Bytes) (c : RNode V), c.text = [] →
        (if rest = [] then c.setValueOnce v else RNode.insertWithin env v fuel c rest).text =
          [] := by
      intro rest c hc
      split_ifs
      · exact hc
      · exact insertWithin_text hc
    rw [RNode.insertWithin]
    split_ifs with hat he
    · cases findChildByFirstCharacter t.children 0x40 with
      | none => exact h.addChild (hg _ _ (parsersBare_newNode _ _))
      | some i => exact h.modifyChild (hg _)
    · cases key.tail.findIdx? (· == 0x40) with
      | none => exact h
      | some stop =>
        dsimp only
        cases newPnode env (key.tail.take stop) with
        | none => exact h
        | some parser =>
          dsimp only
          cases t.findPchild parser with
          | none =>
            exact h.addPchild (hg _ _ ((parsersBare_newNode none none).of_same rfl rfl))
              (hgo _ _ rfl)
          | some i => exact h.modifyPchild (hg _) (hgo _)
    · dsimp only
      split_ifs with hd hn hsm hs hl
      · cases findChildByFirstCharacter t.children
            (charAt (key.drop (commonLen key t.text)) 0) with
        | none => exact h.addChildCheck ih
        | some j => exact ih h
      · cases findChildByFirstCharacter t.children
            (charAt (key.drop (commonLen key t.text)) 0) with
        | none => exact h.addChildCheck ih
        | some j => exact h.modifyChild fun c hc => ih hc
      · exact h.of_same rfl rfl
      · exact (h.split _).addChildCheck ih
      · exact (h.split _).of_same rfl rfl
      · exact h.addChildCheck ih

end rules

/-! ### What the matches say -/

/-- The match that says which part of the message a parser consumed -/
def Piece.exact : Piece → Option RParserMatch
  | literal _ => none
  | parsed parser start found =>
    some { handle := parser.handle, type := parser.type, ofs := start, len := found.len }

/-- What `_fixup_match_offsets` keeps: positions and lengths of 16 bits, if the parser does not
shift or cut what it consumed. -/
def Piece.Fits : Piece → Prop
  | literal _ => True
  | parsed _ start found => start < 65536 ∧ found.len < 65536 ∧ found.matchOfs % 65536 = 0 ∧
      found.matchLen % 65536 = 0

end RNode

end SyslogNg.PatternDb
