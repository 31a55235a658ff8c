import SyslogNg.Foundations.Bytes
import SyslogNg.Foundations.Separated

/-!
# Walking value pairs as a tree

`value_pairs_walk` in `lib/value-pairs/value-pairs.c` reports name-value pairs as a tree: the parts
of a name between dots are containers, which are opened and closed by calls. The names come in
reverse order of `strcmp`. The type of a value, the `data` that the calls may attach to a container,
and a call that ends the walk are left out.
-/
namespace SyslogNg.ValuePairs

open Separated

structure Container where
  key : Bytes
  namePrefix : Bytes
  deriving DecidableEq

/-- The calls of `obj_start`, `process_value` and `obj_end`: the key, the prefix of the container
and that of the one around it. For the whole tree all of them are NULL. -/
inductive WalkEvent
  | objStart (key namePrefix parent : Option Bytes)
  | processValue (key : Bytes) (parent : Option Bytes) (value : Bytes)
  | objEnd (key namePrefix parent : Option Bytes)
  deriving DecidableEq

/-- `vp_walker_split_name_to_tokens`, with the token that was begun. Within an enterprise id
(`vp_walker_skip_sdata_enterprise_id`), that is behind `@` and digits, a dot that is followed by a
digit is not a separator. -/
def splitTokens : Bool → Bytes → Bytes → List Bytes
  | _, token, [] => if token = [] then [] else [token]
  | inId, token, b :: rest =>
    if b = 0x40 then splitTokens true (token ++ [b]) rest
    else if inId && isDigit b then splitTokens true (token ++ [b]) rest
    else if b = 0x2e then
      if inId && rest.head?.any isDigit then splitTokens true (token ++ [b]) rest
      else token :: splitTokens false [] rest
    else splitTokens false (token ++ [b]) rest

def splitNameToTokens (name : Bytes) : List Bytes := splitTokens false [] name

/-- `vp_walker_name_combine_prefix` and the key of the container -/
def containerAt (tokens : List Bytes) (i : ℕ) : Container :=
  ⟨tokens.getD i [], join 0x2e (tokens.take (i + 1))⟩

/-- `vp_walker_stack_peek`, its prefix -/
def parentOf (stack : List Container) : Option Bytes := stack.head?.map (·.namePrefix)

def unwindContainersUntil (name : Option Bytes) : List Container → List WalkEvent × List Container
  | [] => ([], [])
  | t :: rest =>
    if name.any fun name => t.namePrefix.isPrefixOf name then ([], t :: rest)
    else
      let unwound := unwindContainersUntil name rest
      (.objEnd (some t.key) (some t.namePrefix) (parentOf rest) :: unwound.1, unwound.2)

/-- The loop of `vp_walker_start_containers_for_name`, for the tokens with these numbers. -/
def startContainers (tokens : List Bytes) :
    List ℕ → List Container → List WalkEvent × List Container
  | [], stack => ([], stack)
  | i :: rest, stack =>
    let nt := containerAt tokens i
    let started := startContainers tokens rest (nt :: stack)
    (.objStart (some nt.key) (some nt.namePrefix) (parentOf stack) :: started.1, started.2)

def valuePairsWalker (stack : List Container) (name value : Bytes) :
    List WalkEvent × List Container :=
  let unwound := unwindContainersUntil (some name) stack
  let tokens := splitNameToTokens name
  let start := unwound.2.length
  let started := startContainers tokens (List.range' start (tokens.length - 1 - start)) unwound.2
  (unwound.1 ++ started.1 ++
    [.processValue (tokens.getLastD []) (parentOf started.2) value], started.2)

/-- The calls for the names in the order given, then for the end. -/
def walkNames (value : Bytes → Bytes) : List Bytes → List Container → List WalkEvent
  | [], stack => (unwindContainersUntil none stack).1
  | name :: rest, stack =>
    let walked := valuePairsWalker stack name (value name)
    walked.1 ++ walkNames value rest walked.2

/-- `value_pairs_foreach_sorted` with `vp_walk_cmp` -/
def sortNames (names : List Bytes) : List Bytes := names.insertionSort fun a b => b ≤ a

def valuePairsWalk (value : Bytes → Bytes) (names : List Bytes) : List WalkEvent :=
  .objStart none none none :: walkNames value (sortNames names) [] ++ [.objEnd none none none]

/-! ### What the calls mean -/

/-- The containers that are open, those that were opened with all around them, and the values that
were reported with the containers open at that time. -/
structure Replay where
  opened : List (Option Bytes)
  allOpened : List (List (Option Bytes))
  reports : List (List (Option Bytes) × Bytes × Bytes)
  deriving DecidableEq

/-- A container that is closed has to be the last one that is open. -/
def Replay.next (r : Replay) : WalkEvent → Option Replay
  | .objStart key _ _ =>
    some { r with opened := r.opened ++ [key], allOpened := r.allOpened ++ [r.opened ++ [key]] }
  | .processValue key _ value => some { r with reports := r.reports ++ [(r.opened, key, value)] }
  | .objEnd key _ _ =>
    if r.opened.getLast? = some key then some { r with opened := r.opened.dropLast } else none

def replay (events : List WalkEvent) : Option Replay := events.foldlM Replay.next ⟨[], [], []⟩

/-- A name as a list of tokens: all of them are there, and no dot or NUL is in them. -/
structure Name where
  tokens : List Bytes
  ne_nil : tokens ≠ []
  nonempty : ∀ t ∈ tokens, t ≠ []
  free : ∀ t ∈ tokens, 0x2e ∉ t ∧ 0 ∉ t

namespace Name

def text (n : Name) : Bytes := join 0x2e n.tokens

def path (n : Name) : List (Option Bytes) := none :: n.tokens.dropLast.map some

def key (n : Name) : Bytes := n.tokens.getLast n.ne_nil

/-- The tokens name a container of this name. -/
def HasContainer (n : Name) (tokens : List Bytes) : Prop :=
  tokens ≠ [] ∧ ∃ rest, rest ≠ [] ∧ n.tokens = tokens ++ rest

end Name

/-- The calls are nested, report each value once with its key in its containers, and open each
container once. -/
def IsTree (value : Bytes → Bytes) (names : List Name) (events : List WalkEvent) : Prop :=
  ∃ r, replay events = some r ∧ r.opened = [] ∧
    r.reports.Perm (names.map fun n => (n.path, n.key, value n.text)) ∧
    r.allOpened.Nodup ∧ ∀ p, p ∈ r.allOpened ↔
      p = [none] ∨ ∃ n ∈ names, ∃ tokens, n.HasContainer tokens ∧ p = none :: tokens.map some

/-- The token ends with `@` and digits. -/
def EndsInId (t : Bytes) : Prop := ∃ a d, t = a ++ 0x40 :: d ∧ d.all isDigit = true

/-- The dot between these tokens is not taken for a separator. -/
def Swallowed (t u : Bytes) : Prop := EndsInId t ∧ u.head?.any isDigit = true

end SyslogNg.ValuePairs
