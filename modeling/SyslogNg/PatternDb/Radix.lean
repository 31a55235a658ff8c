import SyslogNg.Foundations.BinarySearch
import SyslogNg.PatternDb.RadixParser

/-!
# The pattern tree

`RNode` of `modules/dbparser/radix.c`. A node has a literal key or a parser; its literal children
are kept sorted by the first byte of their keys and are found by a binary search, its parser
children are tried one after the other. In a pattern, `@` begins and ends a parser and `@@` stands
for itself.
-/
namespace SyslogNg.PatternDb

/-- `RNode`; the key of a parser node is `NULL`. -/
structure RNode (V : Type*) where
  key : Option Bytes
  parser : Option RParserNode := none
  value : Option V
  children : List (RNode V) := []
  pchildren : List (RNode V) := []

namespace RNode

variable {V : Type*}

def newNode (key : Option Bytes) (value : Option V) : RNode V := { key := key, value := value }

variable (node : RNode V)

def text : Bytes := node.key.getD []

def keylen : ℤ :=
  match node.key with
  | none => -1
  | some key => key.length

def firstByte : UInt8 := charAt node.text 0

/-! ### Children -/

/-- `r_add_child`; the comparison is `r_node_cmp`. `qsort` may put children with the same first byte
in any order, here they stay in the order in which they came. -/
def addChild (parent child : RNode V) : RNode V :=
  { parent with
    children := (parent.children ++ [child]).insertionSort fun a b => a.firstByte ≤ b.firstByte }

def addPchild (parent child : RNode V) : RNode V :=
  { parent with pchildren := parent.pchildren ++ [child] }

def signedChar (b : UInt8) : ℤ := Int.bmod b.toNat 256

/-- `r_find_child_by_first_character`, as an index: the byte of the child is compared as a `guint8`,
the one looked for as a `char`. -/
def findChildByFirstCharacter (children : List (RNode V)) (key : UInt8) : Option ℕ :=
  BinarySearch.find (fun i => ((children[i]?.map firstByte).getD 0).toNat) (signedChar key)
    children.length 0 children.length

def findPchild (parser : RParserNode) : Option ℕ :=
  node.pchildren.findIdx? fun child => child.parser.any fun p => p.equal parser

/-- What a function that is given a pointer to the child at an index does to the parent -/
def modifyChild (i : ℕ) (f : RNode V → RNode V) : RNode V :=
  { node with children := node.children.modify i f }

def modifyPchild (i : ℕ) (f : RNode V → RNode V) : RNode V :=
  { node with pchildren := node.pchildren.modify i f }

/-- A value is set once; a second one is reported as a duplicate. -/
def setValueOnce (value : V) : RNode V :=
  { node with value := node.value.or (some value) }

/-! ### Insertion -/

/-- `r_add_child_check`; `insert` is `r_insert_node`. -/
def addChildCheck (insert : RNode V → Bytes → RNode V) (value : V) (root : RNode V) (key : Bytes) :
    RNode V :=
  match key.findIdx? (· == 0x40) with
  | none => root.addChild (newNode (some key) (some value))
  | some 0 => insert root key
  | some at_ => root.addChild (insert (newNode (some (key.take at_)) none) (key.drop at_))

/-- How many bytes a key and the key of a node have in common, in `r_insert_node` -/
def commonLen : Bytes → Bytes → ℕ
  | a :: key, b :: nodeKey => if a ≠ b ∨ a = 0x40 then 0 else commonLen key nodeKey + 1
  | _, _ => 0

/-- The split of a node behind `i` bytes of its key -/
def split (root : RNode V) (i : ℕ) : RNode V :=
  let oldTree : RNode V :=
    { newNode (some (root.text.drop i)) root.value with
      children := root.children
      pchildren := root.pchildren }
  { root with key := some (root.text.take i), value := none, children := [], pchildren := [] }
    |>.addChild oldTree

mutual

/-- How many nodes there are on the longest way down from a node -/
def depth : RNode V → ℕ
  | ⟨_, _, _, children, pchildren⟩ => max (depths children) (depths pchildren) + 1

def depths : List (RNode V) → ℕ
  | [] => 0
  | node :: nodes => max node.depth (depths nodes)

end

/-- `r_insert_node`. Each call takes something off the key, or goes from a node to one of its
children (an empty key goes down one level for each empty key before it): `fuel` bounds the number
of the calls. -/
def insertWithin (env : ParserEnv) (value : V) : ℕ → RNode V → Bytes → RNode V
  | 0, root, _ => root
  | fuel + 1, root, key =>
    if key.head? = some 0x40 then
      -- an escaped `@`: it is always a node of its own
      if key.tail.head? = some 0x40 then
        let rest := key.drop 2
        let goOn (node : RNode V) : RNode V :=
          if rest = [] then node.setValueOnce value else insertWithin env value fuel node rest
        match findChildByFirstCharacter root.children 0x40 with
        | none => root.addChild (goOn (newNode (some [0x40]) none))
        | some i => root.modifyChild i goOn
      else
        match key.tail.findIdx? (· == 0x40) with
        | none => root
        | some stop =>
          match newPnode env (key.tail.take stop) with
          | none => root
          | some parser =>
            let rest := key.tail.drop (stop + 1)
            let goOn (node : RNode V) : RNode V :=
              if rest = [] then node.setValueOnce value else insertWithin env value fuel node rest
            match root.findPchild parser with
            | none => root.addPchild (goOn { newNode none none with parser := some parser })
            | some i => root.modifyPchild i goOn
    else
      let i := commonLen key root.text
      let rest := key.drop i
      if root.keylen = 0 ∨ i = 0 ∨ (i < key.length ∧ (i : ℤ) ≥ root.keylen) then
        match findChildByFirstCharacter root.children (charAt rest 0) with
        | some j =>
          if rest.head? = some 0x40 then insertWithin env value fuel root rest
          else root.modifyChild j fun node => insertWithin env value fuel node rest
        | none => addChildCheck (insertWithin env value fuel) value root rest
      else if i = key.length ∧ (i : ℤ) = root.keylen then root.setValueOnce value
      else if 0 < i ∧ (i : ℤ) < root.keylen then
        if i < key.length then
          addChildCheck (insertWithin env value fuel) value (root.split i) rest
        else { root.split i with value := some value }
      else addChildCheck (insertWithin env value fuel) value root rest

def insertNode (env : ParserEnv) (root : RNode V) (key : Bytes) (value : V) : RNode V :=
  insertWithin env value (root.depth + 2 * key.length + 1) root key

/-- The tree that the rules of a file are inserted into, one after the other -/
def build (env : ParserEnv) (rules : List (Bytes × V)) : RNode V :=
  rules.foldl (fun root rule => insertNode env root rule.1 rule.2) (newNode (some []) none)

end RNode

/-! ### Lookup -/

/-- `RParserMatch`. No parser sets `match`, so that there is only the slice of the message. -/
structure RParserMatch where
  handle : ℕ := 0
  len : ℕ := 0
  ofs : ℕ := 0
  type : RParserType := .string
  deriving DecidableEq

/-- `RFindNodeState`; `stored_matches` may be `NULL`. -/
structure RFindNodeState where
  requireCompleteMatch : Bool
  partialMatchFound : Bool := false
  storedMatches : Option (List RParserMatch)

namespace RFindNodeState

variable (state : RFindNodeState)

/-- `_alloc_slot_in_matches`: the array grows by a slot. -/
def allocSlot : RFindNodeState :=
  { state with storedMatches := state.storedMatches.map fun matches_ => matches_ ++ [{}] }

/-- The index of the slot that `_alloc_slot_in_matches` returns -/
def nextSlot : ℕ := (state.storedMatches.map List.length).getD 0

def setSlot (i : ℕ) (slot : RParserMatch) : RFindNodeState :=
  { state with storedMatches := state.storedMatches.map fun matches_ => matches_.set i slot }

def resetMatches (i : ℕ) : RFindNodeState :=
  { state with storedMatches := state.storedMatches.map (List.take i) }

end RFindNodeState

/-- One step down the tree: to a literal child or to a parser child -/
inductive PathStep
  | child (i : ℕ)
  | pchild (i : ℕ)
  deriving DecidableEq

/-- A pointer to a node of a tree: the node, and where in the tree it is -/
structure NodeRef (V : Type*) where
  node : RNode V
  path : List PathStep := []

namespace NodeRef

variable {V : Type*}

def value (ref : NodeRef V) : Option V := ref.node.value

/-- The same node, seen from a parent -/
def below (step : PathStep) (ref : NodeRef V) : NodeRef V := { ref with path := step :: ref.path }

end NodeRef

/-- What `_fixup_match_offsets` makes of a slot that the parser filled: offset and length are
`guint16`, and the length is relative to what was consumed. -/
def fixupMatch (parser : RParserNode) (found : Extraction) (pos : ℕ) : RParserMatch :=
  { handle := parser.handle
    type := parser.type
    ofs := (found.matchOfs % 65536 + pos) % 65536
    len := ((Int.bmod found.matchLen 65536 + found.len) % 65536).toNat }

namespace RNode

variable {V : Type*}

/-- `_find_matching_literal_prefix`: the first byte was compared when the node was found. -/
def matchingLiteralPrefix (root : RNode V) (key : Bytes) (keylen : ℤ) : ℕ :=
  if root.keylen < 1 then 0
  else if root.keylen = 1 then 1
  else
    let m := min keylen root.keylen
    let common := (List.zip (key.drop 1) (root.text.drop 1)).takeWhile fun p => p.1 == p.2
    1 + min common.length (m - 1).toNat

def charBefore (whole : Bytes) (pos : ℕ) : UInt8 := if pos = 0 then 0 else charAt whole (pos - 1)

/-- `_pnode_try_parse` with the parser of a child -/
def tryParse (env : ParserEnv) (whole : Bytes) (pos : ℕ) (child : RNode V) :
    Option (RParserNode × Extraction) := do
  let parser ← child.parser
  let found ← parser.tryParse env (charBefore whole pos) (whole.drop pos)
  return (parser, found)

/-- What the key of a node says about the text: the text ends with it, the search goes on with the
children behind `n` bytes, or the node does not match. -/
inductive LiteralMatch
  | complete
  | goOn (n : ℕ)
  | mismatch
  deriving DecidableEq

/-- The conditions of `_find_node_recursively` -/
def literalMatch (root : RNode V) (key : Bytes) (keylen : ℤ) : LiteralMatch :=
  let n := root.matchingLiteralPrefix key keylen
  if (n : ℤ) = keylen ∧ ((n : ℤ) = root.keylen ∨ root.keylen = -1) then .complete
  else if root.keylen < 1 ∨ ((n : ℤ) < keylen ∧ (n : ℤ) ≥ root.keylen) then .goOn n
  else .mismatch

/-- What `_find_node_recursively` returns if neither a child nor a parser matches -/
def partialMatch (root : RNode V) (state : RFindNodeState) : Option (NodeRef V) × RFindNodeState :=
  if root.value.isNone then (none, state)
  else if state.requireCompleteMatch then (none, { state with partialMatchFound := true })
  else (some { node := root }, state)

mutual

/-- `_find_node_recursively`. The key is the part of `whole` from `pos` on, `keylen` is what is left
of its length. -/
def findNodeFrom (env : ParserEnv) (whole : Bytes) :
    RNode V → (pos : ℕ) → (keylen : ℤ) → RFindNodeState → Option (NodeRef V) × RFindNodeState
  | ⟨key, parser, value, children, pchildren⟩, pos, keylen, state =>
    let root : RNode V := ⟨key, parser, value, children, pchildren⟩
    match root.literalMatch (whole.drop pos) keylen with
    | .complete => (if value.isSome then some { node := root } else none, state)
    | .mismatch => (none, state)
    | .goOn n =>
      -- a literal match is preferred over parsers
      match findByLiteral env whole children 0
          (findChildByFirstCharacter children (charAt whole (pos + n))) (pos + n) (keylen - n)
          state with
      | (some ref, state) => (some ref, state)
      | (none, state) =>
        match findByParsers env whole pchildren 0 state.nextSlot (pos + n) (keylen - n)
            state.allocSlot with
        | (some ref, state) => (some ref, state)
        | (none, tried) => root.partialMatch (tried.resetMatches state.nextSlot)

/-- `_find_child_by_remaining_key`, for the child with an index; the list is what the children are
from `ndx` on. -/
def findByLiteral (env : ParserEnv) (whole : Bytes) :
    List (RNode V) → (ndx : ℕ) → (i : Option ℕ) → (pos : ℕ) → (keylen : ℤ) → RFindNodeState →
      Option (NodeRef V) × RFindNodeState
  | child :: _, ndx, some 0, pos, keylen, state =>
    let ret := findNodeFrom env whole child pos keylen state
    (ret.1.map (NodeRef.below (.child ndx)), ret.2)
  | _ :: children, ndx, some (i + 1), pos, keylen, state =>
    findByLiteral env whole children (ndx + 1) (some i) pos keylen state
  | _, _, _, _, _, state => (none, state)

/-- The loop of `_find_child_by_parser` from the parser child with index `ndx` on, with the body of
`_try_parse_with_a_given_child` -/
def findByParsers (env : ParserEnv) (whole : Bytes) :
    List (RNode V) → (ndx : ℕ) → (slot : ℕ) → (pos : ℕ) → (keylen : ℤ) → RFindNodeState →
      Option (NodeRef V) × RFindNodeState
  | [], _, _, _, _, state => (none, state)
  | child :: pchildren, ndx, slot, pos, keylen, state =>
    match child.tryParse env whole pos with
    | none => findByParsers env whole pchildren (ndx + 1) slot pos keylen (state.setSlot slot {})
    | some (parser, found) =>
      match findNodeFrom env whole child (pos + found.len) (keylen - found.len)
          (state.setSlot slot {}) with
      | (some ref, state) =>
        (some (ref.below (.pchild ndx)), state.setSlot slot (fixupMatch parser found pos))
      | (none, state) => findByParsers env whole pchildren (ndx + 1) slot pos keylen state

end

theorem findNodeFrom_eq {env : ParserEnv} {whole : Bytes} {pos : ℕ} {keylen : ℤ}
    {state : RFindNodeState} (t : RNode V) : t.findNodeFrom env whole pos keylen state =
      match t.literalMatch (whole.drop pos) keylen with
      | .complete => (if t.value.isSome then some { node := t } else none, state)
      | .mismatch => (none, state)
      | .goOn n =>
        match findByLiteral env whole t.children 0
            (findChildByFirstCharacter t.children (charAt whole (pos + n))) (pos + n) (keylen - n)
            state with
        | (some ref, state) => (some ref, state)
        | (none, state) =>
          match findByParsers env whole t.pchildren 0 state.nextSlot (pos + n) (keylen - n)
              state.allocSlot with
          | (some ref, state) => (some ref, state)
          | (none, tried) => t.partialMatch (tried.resetMatches state.nextSlot) := by
  obtain ⟨key, parser, value, children, pchildren⟩ := t
  rw [findNodeFrom]

/-- `r_find_node`. If nothing matches the whole key, but a node on the way has a value, then the
search is repeated and that node may be the result. -/
def findNode (env : ParserEnv) (root : RNode V) (whole : Bytes) (keylen : ℕ)
    (storedMatches : Option (List RParserMatch)) :
    Option (NodeRef V) × Option (List RParserMatch) :=
  let first := root.findNodeFrom env whole 0 keylen
    { requireCompleteMatch := true, storedMatches := storedMatches }
  let ret :=
    if first.1.isNone && first.2.partialMatchFound then
      root.findNodeFrom env whole 0 keylen { first.2 with requireCompleteMatch := false }
    else first
  (ret.1, ret.2.storedMatches)

end RNode

end SyslogNg.PatternDb
