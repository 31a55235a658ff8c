import SyslogNg.ValuePairs.WalkTokens

/-!
# The tree that is walked

The calls of a walk are nested by the stack. What they report is told by the stack at the call, and
the stack is right for all names if and only if no dot is swallowed and no name continues the prefix
of an open container by a character that sorts before the dot.
-/
namespace SyslogNg.ValuePairs

open Separated List Name

/-! ### Calls and the stack -/

/-- The keys of the containers that are open, with the whole tree. -/
def keysOf (stack : List Container) : List (Option Bytes) :=
  none :: stack.reverse.map fun c => some c.key

theorem keysOf_cons (c : Container) (stack : List Container) :
    keysOf (c :: stack) = keysOf stack ++ [some c.key] := by
  simp [keysOf]

theorem keysOf_append (new stack : List Container) :
    keysOf (new.reverse ++ stack) = keysOf stack ++ new.map fun c => some c.key := by
  simp [keysOf]

variable {stack : List Container} {r : Replay}

theorem replay_unwind (name : Option Bytes) (h : r.opened = keysOf stack) :
    (unwindContainersUntil name stack).1.foldlM Replay.next r =
      some { r with opened := keysOf (unwindContainersUntil name stack).2 } := by
  induction stack generalizing r with
  | nil =>
    rw [unwindContainersUntil, ← h]
    rfl
  | cons t rest ih =>
    rw [unwindContainersUntil]
    split_ifs
    · rw [← h]
      rfl
    · have hl : r.opened.getLast? = some (some t.key) := by
        rw [h, keysOf_cons, List.getLast?_concat]
      have hr : r.opened.dropLast = keysOf rest := by
        rw [h, keysOf_cons, dropLast_concat]
      rw [foldlM_cons, Replay.next, if_pos hl, Option.bind_eq_bind, hr]
      exact ih rfl

/-- The containers that are opened, each with all around it. -/
def openings (tokens : List Bytes) : List ℕ → List Container → List (List (Option Bytes))
  | [], _ => []
  | i :: rest, stack =>
    keysOf (containerAt tokens i :: stack) :: openings tokens rest (containerAt tokens i :: stack)

theorem startContainers_snd (tokens : List Bytes) (nums : List ℕ) (stack : List Container) :
    (startContainers tokens nums stack).2 = (nums.map (containerAt tokens)).reverse ++ stack := by
  induction nums generalizing stack with
  | nil => rfl
  | cons i rest ih => simp [startContainers, ih]

theorem replay_start (tokens : List Bytes) {nums : List ℕ} (h : r.opened = keysOf stack) :
    (startContainers tokens nums stack).1.foldlM Replay.next r =
      some { r with
        opened := keysOf (startContainers tokens nums stack).2
        allOpened := r.allOpened ++ openings tokens nums stack } := by
  induction nums generalizing stack r with
  | nil =>
    rw [startContainers, ← h, openings, append_nil]
    rfl
  | cons i rest ih =>
    have hk : r.opened ++ [some (containerAt tokens i).key] =
        keysOf (containerAt tokens i :: stack) := by rw [keysOf_cons, h]
    rw [startContainers, foldlM_cons, Replay.next, Option.bind_eq_bind, Option.bind_some,
      hk, ih rfl, openings, append_assoc, singleton_append]

def stackFor (stack : List Container) (name : Bytes) : List Container :=
  (valuePairsWalker stack name []).2

def openedFor (stack : List Container) (name : Bytes) : List (List (Option Bytes)) :=
  let unwound := (unwindContainersUntil (some name) stack).2
  let tokens := splitNameToTokens name
  openings tokens (List.range' unwound.length (tokens.length - 1 - unwound.length)) unwound

theorem replay_walker (h : r.opened = keysOf stack)
    (name value : Bytes) : (valuePairsWalker stack name value).1.foldlM Replay.next r = some
      { opened := keysOf (stackFor stack name)
        allOpened := r.allOpened ++ openedFor stack name
        reports := r.reports ++
          [(keysOf (stackFor stack name), (splitNameToTokens name).getLastD [], value)] } := by
  simp only [valuePairsWalker, foldlM_append, replay_unwind (some name) h,
    Option.bind_eq_bind, Option.bind_some]
  rw [replay_start _ rfl]
  rfl

/-- The calls of a whole walk, by the stack at each name. -/
def openedAll : List Bytes → List Container → List (List (Option Bytes))
  | [], _ => []
  | name :: rest, stack => openedFor stack name ++ openedAll rest (stackFor stack name)

def reportsOf (value : Bytes → Bytes) :
    List Bytes → List Container → List (List (Option Bytes) × Bytes × Bytes)
  | [], _ => []
  | name :: rest, stack =>
    (keysOf (stackFor stack name), (splitNameToTokens name).getLastD [], value name) ::
      reportsOf value rest (stackFor stack name)

theorem unwind_none (stack : List Container) : (unwindContainersUntil none stack).2 = [] := by
  induction stack with
  | nil => rfl
  | cons t rest ih => exact ih

theorem replay_walkNames (value : Bytes → Bytes) {names : List Bytes}
    (h : r.opened = keysOf stack) :
    (walkNames value names stack).foldlM Replay.next r = some
      { opened := [none]
        allOpened := r.allOpened ++ openedAll names stack
        reports := r.reports ++ reportsOf value names stack } := by
  induction names generalizing stack r with
  | nil =>
    rw [walkNames, replay_unwind none h, unwind_none, openedAll, reportsOf, append_nil,
      append_nil]
    rfl
  | cons name rest ih =>
    have hs : (valuePairsWalker stack name (value name)).2 = stackFor stack name := rfl
    rw [walkNames, foldlM_append, replay_walker h, Option.bind_eq_bind, Option.bind_some,
      hs, ih rfl, openedAll, reportsOf]
    simp only [append_assoc, singleton_append]

/-- A walk is always nested. -/
theorem replay_valuePairsWalk (value : Bytes → Bytes) (names : List Bytes) :
    replay (valuePairsWalk value names) = some
      { opened := []
        allOpened := [none] :: openedAll (sortNames names) []
        reports := reportsOf value (sortNames names) [] } := by
  have hs : Replay.next ⟨[], [], []⟩ (.objStart none none none) =
    some ⟨[none], [[none]], []⟩ := rfl
  have ho : Replay.opened ⟨[none], [[none]], []⟩ = keysOf [] := rfl
  rw [replay, valuePairsWalk, cons_append, foldlM_cons, hs, Option.bind_eq_bind,
    Option.bind_some, foldlM_append, replay_walkNames value ho]
  rfl

/-! ### The containers of a name -/

def stackOf (tokens : List Bytes) (k : ℕ) : List Container :=
  ((List.range k).map (containerAt tokens)).reverse

section Stack

variable {tokens tokens' : List Bytes} {k h : ℕ} {name : Bytes}

theorem stackOf_succ : stackOf tokens (k + 1) = containerAt tokens k :: stackOf tokens k := by
  simp [stackOf, range_succ]

theorem length_stackOf : (stackOf tokens k).length = k := by simp [stackOf]

theorem containerAt_congr (heq : tokens.take h = tokens'.take h) {i : ℕ} (hi : i < h) :
    containerAt tokens i = containerAt tokens' i := by
  have ht : tokens.take (i + 1) = tokens'.take (i + 1) := by
    have := congrArg (List.take (i + 1)) heq
    rwa [take_take, take_take, min_eq_left (by omega)] at this
  have hg : tokens[i]? = tokens'[i]? := by
    have := congrArg (·[i]?) heq
    simpa [hi] using this
  rw [containerAt, containerAt, ht, getD_eq_getElem?_getD, hg,
    ← getD_eq_getElem?_getD]

theorem stackOf_congr (heq : tokens.take h = tokens'.take h) :
    stackOf tokens h = stackOf tokens' h := by
  unfold stackOf
  congr 1
  apply map_congr_left
  intro i hi
  exact containerAt_congr heq (mem_range.mp hi)

theorem keysOf_stackOf (hk : k ≤ tokens.length) :
    keysOf (stackOf tokens k) = none :: (tokens.take k).map some := by
  rw [keysOf, stackOf, reverse_reverse]
  congr 1
  apply ext_getElem?
  intro i
  by_cases hi : i < k
  · simp [hi, containerAt, List.getElem?_eq_getElem (by omega : i < tokens.length)]
  · simp [hi]

/-- Unwinding keeps the containers whose prefix the name begins with, up to the last one. -/
theorem unwind_stackOf (tokens : List Bytes) (k : ℕ) (name : Bytes) : ∃ h ≤ k,
    (unwindContainersUntil (some name) (stackOf tokens k)).2 = stackOf tokens h ∧
    (0 < h → join 0x2e (tokens.take h) <+: name) ∧
    ∀ j, h < j → j ≤ k → ¬join 0x2e (tokens.take j) <+: name := by
  induction k with
  | zero => exact ⟨0, le_rfl, rfl, fun h => absurd h (by omega), fun j hlt hle => by omega⟩
  | succ k ih =>
    rw [stackOf_succ, unwindContainersUntil]
    split_ifs with hp
    · refine ⟨k + 1, le_rfl, stackOf_succ.symm, fun _ => ?_, fun j hlt hle => by omega⟩
      simpa [containerAt] using hp
    · obtain ⟨h, hle, heq, hk, hg⟩ := ih
      refine ⟨h, by omega, heq, hk, fun j hlt hjk => ?_⟩
      rcases Nat.lt_or_ge j (k + 1) with hlt' | hge
      · exact hg j hlt (by omega)
      · obtain rfl : j = k + 1 := by omega
        simpa [containerAt] using hp

/-- The stack behind a name, from the containers that are kept. -/
theorem stackFor_eq (hu : (unwindContainersUntil (some name) (stackOf tokens k)).2 =
      stackOf tokens h) :
    stackFor (stackOf tokens k) name =
      ((List.range' h ((splitNameToTokens name).length - 1 - h)).map
        (containerAt (splitNameToTokens name))).reverse ++ stackOf tokens h := by
  simp only [stackFor, valuePairsWalker, hu, length_stackOf, startContainers_snd]

theorem range_append_range' {m : ℕ} (hle : h ≤ m) :
    List.range h ++ List.range' h (m - h) = List.range m := by
  rw [range_eq_range', range_eq_range']
  have ha := range'_append_1 (s := 0) (m := h) (n := m - h)
  rwa [zero_add, Nat.add_sub_cancel' hle] at ha

/-- If the name has its first containers there, the others are opened. -/
theorem stackFor_of_take (hu : (unwindContainersUntil (some name) (stackOf tokens k)).2 =
      stackOf tokens h) (hs : splitNameToTokens name = tokens')
    (ht : tokens.take h = tokens'.take h) (hle : h ≤ tokens'.length - 1) :
    stackFor (stackOf tokens k) name = stackOf tokens' (tokens'.length - 1) := by
  rw [stackFor_eq hu, hs, stackOf_congr ht, stackOf, stackOf, ← reverse_append,
    ← map_append, range_append_range' hle]

end Stack

/-! ### Names -/

namespace Name

variable {n n' : Name} {tokens : List Bytes}

theorem freeOfDots (n : Name) : Free 0x2e n.tokens := fun t ht => (n.free t ht).1

theorem ext_tokens (h : n.tokens = n'.tokens) : n = n' := by
  cases n
  cases n'
  cases h
  rfl

theorem text_inj (h : n.text = n'.text) : n = n' :=
  ext_tokens (join_inj n.ne_nil n'.ne_nil n.freeOfDots n'.freeOfDots h)

theorem HasContainer.text (h : n.HasContainer tokens) :
    ∃ rest, n.text = join 0x2e tokens ++ 0x2e :: rest := by
  obtain ⟨hne, rest, hr, ht⟩ := h
  exact ⟨join 0x2e rest, by rw [Name.text, ht, join_append hne hr]⟩

theorem HasContainer.free (h : n.HasContainer tokens) : Free 0x2e tokens := by
  obtain ⟨-, rest, -, ht⟩ := h
  exact Free.of_append_left (ht ▸ n.freeOfDots)

/-- A name that begins with the prefix of a container and a dot has the container. -/
theorem hasContainer_of_text (hne : tokens ≠ []) (hf : Free 0x2e tokens) {rest : Bytes}
    (h : n.text = join 0x2e tokens ++ 0x2e :: rest) : n.HasContainer tokens := by
  obtain ⟨b, hb, heq, -⟩ := append_of_join_eq hne hf n.freeOfDots h
  exact ⟨hne, b, hb, heq⟩

theorem hasContainer_iff : n.HasContainer tokens ↔
    ∃ j, 0 < j ∧ j ≤ n.tokens.length - 1 ∧ tokens = n.tokens.take j := by
  constructor
  · rintro ⟨hne, rest, hr, heq⟩
    have hp := length_pos_iff.mpr hne
    have hp' := length_pos_iff.mpr hr
    refine ⟨tokens.length, hp, ?_, by rw [heq, take_left]⟩
    rw [heq, length_append]
    omega
  · rintro ⟨j, hp, hle, rfl⟩
    refine ⟨?_, n.tokens.drop j, ?_, (take_append_drop ..).symm⟩
    · rw [← length_pos_iff, length_take]
      omega
    · rw [← length_pos_iff, length_drop]
      omega

end Name

/-- The stack behind a name, if it is right. -/
def stackAt : Option Name → List Container
  | none => []
  | some n => stackOf n.tokens (n.tokens.length - 1)

def tokensAt : Option Name → List Bytes
  | none => []
  | some n => n.tokens

theorem stackAt_eq (prev : Option Name) :
    stackAt prev = stackOf (tokensAt prev) ((tokensAt prev).length - 1) := by
  cases prev <;> rfl

/-- The stack is right behind every name. -/
def Exact : List Name → Option Name → Prop
  | [], _ => True
  | n :: rest, prev =>
    stackFor (stackAt prev) n.text = stackAt (some n) ∧ Separates n.tokens ∧ Exact rest (some n)

/-- Each value is reported in its containers, with its key. -/
def Reported : List Name → List Container → Prop
  | [], _ => True
  | n :: rest, stack =>
    (keysOf (stackFor stack n.text) = n.path ∧ (splitNameToTokens n.text).getLastD [] = n.key) ∧
      Reported rest (stackFor stack n.text)

theorem keysOf_stackAt (n : Name) : keysOf (stackAt (some n)) = n.path := by
  rw [stackAt, keysOf_stackOf (by omega), ← dropLast_eq_take, path]

variable {n : Name}

theorem Separates.split (h : Separates n.tokens) : splitNameToTokens n.text = n.tokens :=
  (splitNameToTokens_join n.ne_nil n.freeOfDots n.nonempty).mpr h

theorem Separates.key (h : Separates n.tokens) :
    (splitNameToTokens n.text).getLastD [] = n.key := by
  rw [h.split, List.getLastD_eq_getLast?, List.getLast?_eq_getLast_of_ne_nil n.ne_nil]
  rfl

/-! ### Reports are right only if the stack is -/

namespace Name

variable (n : Name)

theorem tokens_eq_append : n.tokens = n.tokens.dropLast ++ [n.key] :=
  (dropLast_append_getLast n.ne_nil).symm

theorem key_mem : n.key ∈ n.tokens := getLast_mem n.ne_nil

theorem text_ne_nil : n.text ≠ [] := by
  obtain ⟨t, rest, ht⟩ := exists_cons_of_ne_nil n.ne_nil
  rw [text, ht]
  exact join_ne_nil (n.nonempty t (by rw [ht]; exact mem_cons_self ..))

theorem getLast?_text : n.text.getLast? ≠ some 0x2e := by
  have hk : n.key ≠ [] := n.nonempty _ n.key_mem
  have hd : 0x2e ∉ n.key := n.freeOfDots _ n.key_mem
  have hl : n.text.getLast? = n.key.getLast? := by
    rw [text, n.tokens_eq_append]
    by_cases hn : n.tokens.dropLast = []
    · rw [hn, nil_append, join_singleton]
    · rw [join_append hn (by simp), join_singleton, List.getLast?_append_of_ne_nil _ (by simp),
        List.getLast?_cons_of_ne_nil hk]
  rw [hl]
  intro h
  exact hd (List.mem_of_getLast? h)

theorem join_splitName : splitNameToTokens n.text ≠ [] ∧
    join 0x2e (splitNameToTokens n.text) = n.text := by
  obtain ⟨x, xs, heq⟩ := head_splitTokens false [] n.text n.text_ne_nil
  refine ⟨?_, join_splitTokens n.text_ne_nil n.getLast?_text⟩
  rw [splitNameToTokens, heq]
  simp

/-- As many tokens as the name has can only be its own. -/
theorem separates_of_length (h : (splitNameToTokens n.text).length = n.tokens.length) :
    Separates n.tokens := by
  obtain ⟨hne, hj⟩ := n.join_splitName
  exact (splitNameToTokens_join n.ne_nil n.freeOfDots n.nonempty).mp
    (eq_of_join_eq_of_length hne n.freeOfDots hj h)

/-- A name whose containers are those of a name without swallowed dots: if its last dot is
swallowed, its key shows it. -/
theorem separates_of_key (h : Separates n.tokens.dropLast)
    (hk : (splitNameToTokens n.text).getLastD [] = n.key) : Separates n.tokens := by
  by_cases hn : n.tokens.dropLast = []
  · rw [n.tokens_eq_append, hn]
    exact isChain_singleton _
  by_contra hnot
  have hs : ∀ t ∈ n.tokens.dropLast.getLast?, Swallowed t n.key := by
    intro t ht
    by_contra hfine
    apply hnot
    rw [n.tokens_eq_append, Separates, isChain_append]
    refine ⟨h, isChain_singleton _, fun x hx y hy => ?_⟩
    rw [List.head?_cons, Option.mem_some_iff] at hy
    rw [Option.mem_unique hx ht, ← hy]
    exact hfine
  have hd := dot_mem_getLast hn (n.tokens_eq_append ▸ n.freeOfDots)
    (n.tokens_eq_append ▸ n.nonempty) h hs
  rw [← n.tokens_eq_append] at hd
  change 0x2e ∈ (splitNameToTokens n.text).getLastD [] at hd
  rw [hk] at hd
  exact n.freeOfDots _ n.key_mem hd

end Name

variable {prev : Option Name}

theorem exact_of_report (hp : Separates (tokensAt prev))
    (hk : keysOf (stackFor (stackAt prev) n.text) = n.path)
    (hky : (splitNameToTokens n.text).getLastD [] = n.key) :
    stackFor (stackAt prev) n.text = stackAt (some n) ∧ Separates n.tokens := by
  obtain ⟨h, hle, hu, -, -⟩ :=
    unwind_stackOf (tokensAt prev) ((tokensAt prev).length - 1) n.text
  have hps := length_pos_iff.mpr n.join_splitName.1
  have hps' := length_pos_iff.mpr n.ne_nil
  rw [stackAt_eq prev] at hk ⊢
  have ho : (tokensAt prev).take h ++
      (List.range' h ((splitNameToTokens n.text).length - 1 - h)).map
        ((splitNameToTokens n.text).getD · []) = n.tokens.dropLast := by
    rw [stackFor_eq hu, keysOf_append, keysOf_stackOf (by omega), path,
      cons_append, List.cons.injEq, List.map_map] at hk
    apply map_injective_iff.mpr (Option.some_injective _)
    rw [map_append, List.map_map]
    exact hk.2
  have hl := congrArg List.length ho
  rw [length_append, length_take, length_map, length_range',
    length_dropLast] at hl
  rcases Nat.lt_or_ge ((splitNameToTokens n.text).length - 1) h with hlt | hge
  · -- nothing was opened: the containers are those of the name before
    exfalso
    have hsm : (tokensAt prev).take h = n.tokens.dropLast := by
      rw [show (splitNameToTokens n.text).length - 1 - h = 0 by omega] at ho
      simpa using ho
    have hs := n.separates_of_key (hsm ▸ hp.take h) hky
    rw [hs.split] at hlt
    omega
  · have hs := n.separates_of_length (by omega)
    have ht : (tokensAt prev).take h = n.tokens.take h := by
      have hf := congrArg (List.take h) ho
      rw [take_left' (by rw [length_take]; omega), dropLast_eq_take,
        take_take, min_eq_left (by omega)] at hf
      exact hf
    exact ⟨stackFor_of_take hu hs.split ht (by omega), hs⟩

theorem Reported.exact {names : List Name} (hp : Separates (tokensAt prev))
    (h : Reported names (stackAt prev)) : Exact names prev := by
  induction names generalizing prev with
  | nil => trivial
  | cons n rest ih =>
    obtain ⟨⟨hk, hky⟩, hr⟩ := h
    obtain ⟨hst, hs⟩ := exact_of_report hp hk hky
    rw [hst] at hr
    have hn : Separates (tokensAt (some n)) := hs
    exact ⟨hst, hs, ih hn hr⟩

/-! ### When the stack is right -/

/-- No dot is swallowed, and no name goes on behind the prefix of a container with a character that
sorts before the dot. -/
structure Walkable (names : List Name) : Prop where
  separates : ∀ n ∈ names, Separates n.tokens
  ordered : ∀ n ∈ names, ∀ tokens, n.HasContainer tokens → ∀ n' ∈ names, ∀ c rest,
    n'.text = join 0x2e tokens ++ c :: rest → ¬c < 0x2e

/-- The names describe a tree: no name is another one with further tokens. -/
def Describes (names : List Name) : Prop :=
  names.Nodup ∧ ∀ n ∈ names, ∀ n' ∈ names, n.tokens <+: n'.tokens → n = n'

section Walkable

variable {names : List Name} (hok : Walkable names) (htree : Describes names)
include hok htree

/-- The containers that are kept for a name are its own, and it has no further ones of those that
were open. -/
theorem kept_of_walkable (hn : n ∈ names) (hpr : ∀ p ∈ prev, p ∈ names ∧ n.text < p.text) :
    ∃ h, (unwindContainersUntil (some n.text) (stackAt prev)).2 = stackOf (tokensAt prev) h ∧
      (tokensAt prev).take h = n.tokens.take h ∧
      (h ≤ (tokensAt prev).length - 1 ∧ h ≤ n.tokens.length - 1) ∧
      ∀ j, h < j → j ≤ (tokensAt prev).length - 1 →
        ¬join 0x2e ((tokensAt prev).take j) <+: n.text := by
  obtain ⟨h, hle, hu, hk, hg⟩ :=
    unwind_stackOf (tokensAt prev) ((tokensAt prev).length - 1) n.text
  rw [← stackAt_eq] at hu
  rcases Nat.eq_zero_or_pos h with rfl | hps
  · exact ⟨0, hu, by simp, ⟨by omega, by omega⟩, hg⟩
  cases prev with
  | none =>
    simp only [tokensAt, length_nil] at hle
    omega
  | some p =>
    obtain ⟨hp, hlt⟩ := hpr p rfl
    have hc : p.HasContainer (p.tokens.take h) :=
      hasContainer_iff.mpr ⟨h, hps, hle, rfl⟩
    obtain ⟨rest, hr⟩ := hc.text
    obtain ⟨behind, hb⟩ := hk hps
    have ho : n.HasContainer (p.tokens.take h) := by
      cases behind with
      | nil =>
        -- the name itself would be the container
        rw [append_nil] at hb
        have heq : p.tokens.take h = n.tokens :=
          join_inj hc.1 n.ne_nil hc.free n.freeOfDots hb
        have hs := htree.2 n hn p hp (heq ▸ take_prefix ..)
        rw [hs] at hlt
        exact absurd hlt (List.lt_irrefl _)
      | cons c behind =>
        rw [← hb, hr] at hlt
        rcases cons_lt_cons_iff.mp (lt_of_append_lt hlt) with hl | ⟨rfl, -⟩
        · exact absurd hl (hok.ordered p hp _ hc n hn c behind hb.symm)
        · exact hasContainer_of_text hc.1 hc.free hb.symm
    obtain ⟨j, -, hj, heq⟩ := hasContainer_iff.mp ho
    have hln := congrArg List.length heq
    rw [length_take, length_take] at hln
    change h ≤ p.tokens.length - 1 at hle
    have hjh : j = h := by omega
    subst hjh
    exact ⟨j, hu, heq, ⟨hle, hj⟩, hg⟩

theorem exact_of_walkable {sorted : List Name} (hsb : ∀ n ∈ sorted, n ∈ names)
    (hsorted : sorted.Pairwise fun a b => b.text < a.text)
    (hpr : ∀ p ∈ prev, p ∈ names ∧ ∀ n ∈ sorted, n.text < p.text) : Exact sorted prev := by
  induction sorted generalizing prev with
  | nil => trivial
  | cons n rest ih =>
    have hn := hsb n (mem_cons_self ..)
    obtain ⟨hf, hr⟩ := pairwise_cons.mp hsorted
    have hs := hok.separates n hn
    obtain ⟨h, hu, ht, ⟨-, hle⟩, -⟩ := kept_of_walkable hok htree hn fun p hp =>
      ⟨(hpr p hp).1, (hpr p hp).2 n (mem_cons_self ..)⟩
    refine ⟨?_, hs, ih (fun m hm => hsb m (mem_cons_of_mem _ hm)) hr ?_⟩
    · rw [stackAt_eq] at hu ⊢
      exact stackFor_of_take hu hs.split ht hle
    · intro p hp
      cases hp
      exact ⟨hn, hf⟩

end Walkable

/-! ### Only then -/

section Only

variable {tokens : List Bytes} {n n' : Name} {sorted : List Name}

theorem Exact.separates (h : Exact sorted prev) (hn : n ∈ sorted) : Separates n.tokens := by
  induction sorted generalizing prev with
  | nil => simp at hn
  | cons m rest ih =>
    rcases mem_cons.mp hn with rfl | hn
    · exact h.2.1
    · exact ih h.2.2 hn

/-- A container stays open while the names begin with its prefix. -/
theorem hasContainer_of_exact {p : Name} (hp : p.HasContainer tokens)
    (hs : stackFor (stackAt (some p)) n.text = stackAt (some n))
    (hb : join 0x2e tokens <+: n.text) : n.HasContainer tokens := by
  obtain ⟨h, hle, hu, -, hg⟩ := unwind_stackOf p.tokens (p.tokens.length - 1) n.text
  obtain ⟨j, hps, hj, rfl⟩ := hasContainer_iff.mp hp
  have hjh : j ≤ h := by
    by_contra hlt
    exact hg j (by omega) hj hb
  have hm : containerAt p.tokens (j - 1) ∈ stackAt (some n) := by
    rw [← hs, stackAt, stackFor_eq hu]
    apply mem_append_right
    rw [stackOf, mem_reverse]
    exact List.mem_map_of_mem (mem_range.mpr (by omega))
  rw [stackAt, stackOf, mem_reverse, List.mem_map] at hm
  obtain ⟨i, hi, heq⟩ := hm
  rw [mem_range] at hi
  have hpr : join 0x2e (n.tokens.take (i + 1)) = join 0x2e (p.tokens.take j) := by
    have := congrArg Container.namePrefix heq
    rwa [containerAt, containerAt, Nat.sub_add_cancel hps] at this
  have ho : n.HasContainer (n.tokens.take (i + 1)) :=
    hasContainer_iff.mpr ⟨i + 1, by omega, by omega, rfl⟩
  rw [← join_inj ho.1 hp.1 ho.free hp.free hpr]
  exact ho

theorem Exact.kept {p : Name} (h : Exact sorted (some p)) (hp : p.HasContainer tokens)
    (hsorted : (p :: sorted).Pairwise fun a b => b.text < a.text) (hn : n ∈ sorted)
    (hbg : join 0x2e tokens <+: n.text) : n.HasContainer tokens := by
  induction sorted generalizing p with
  | nil => simp at hn
  | cons m rest ih =>
    obtain ⟨hs, -, hr⟩ := h
    obtain ⟨hf, hsorted'⟩ := pairwise_cons.mp hsorted
    have hle : n.text ≤ m.text := by
      rcases mem_cons.mp hn with rfl | hn
      · exact List.le_refl _
      · exact List.le_of_lt ((pairwise_cons.mp hsorted').1 n hn)
    have hpb : join 0x2e tokens <+: p.text := by
      obtain ⟨behind, hb⟩ := hp.text
      exact ⟨_, hb.symm⟩
    have hm := hasContainer_of_exact hp hs
      (common_of_between hpb hbg hle (List.le_of_lt (hf m (mem_cons_self ..))))
    rcases mem_cons.mp hn with rfl | hn
    · exact hm
    · exact ih hr hm hsorted' hn

section

variable (h : Exact sorted prev) (hsorted : sorted.Pairwise fun a b => b.text < a.text)
include h hsorted

theorem Exact.hasContainer (hn : n ∈ sorted) (hn' : n' ∈ sorted)
    (hc : n.HasContainer tokens) (hlt : n'.text < n.text)
    (hb : join 0x2e tokens <+: n'.text) : n'.HasContainer tokens := by
  induction sorted generalizing prev with
  | nil => simp at hn
  | cons m rest ih =>
    obtain ⟨hf, hr⟩ := pairwise_cons.mp hsorted
    rcases mem_cons.mp hn with rfl | hin
    · rcases mem_cons.mp hn' with rfl | hin'
      · exact absurd hlt (List.lt_irrefl _)
      · exact h.2.2.kept hc hsorted hin' hb
    · rcases mem_cons.mp hn' with rfl | hin'
      · exact absurd (List.lt_trans (hf n hin) hlt) (List.lt_irrefl _)
      · exact ih h.2.2 hr hin hin'

theorem Exact.walkable : Walkable sorted where
  separates _ hn := h.separates hn
  ordered n hn tokens hc n' hn' c rest ht hless := by
    obtain ⟨behind, hb⟩ := hc.text
    have hlt : n'.text < n.text := by
      rw [ht, hb]
      exact append_lt (cons_lt_cons_iff.mpr (.inl hless))
    obtain ⟨behind', hb'⟩ :=
      (h.hasContainer hsorted hn hn' hc hlt ⟨_, ht.symm⟩).text
    rw [ht] at hb'
    have hd := (List.cons.inj (append_cancel_left hb')).1
    subst hd
    exact absurd hless (by decide)

end

end Only

/-! ### Each container is opened once -/

/-- A container, with all around it. -/
def pathOf (tokens : List Bytes) : List (Option Bytes) := none :: tokens.map some

theorem pathOf_inj {a b : List Bytes} (h : pathOf a = pathOf b) : a = b :=
  map_injective_iff.mpr (Option.some_injective _) (List.cons.inj h).2

theorem openings_stackOf {tokens : List Bytes} {h k : ℕ} (hle : h + k ≤ tokens.length) :
    openings tokens (List.range' h k) (stackOf tokens h) =
      (List.range' h k).map fun i => pathOf (tokens.take (i + 1)) := by
  induction k generalizing h with
  | zero => rfl
  | succ k ih =>
    rw [range'_succ, openings, map_cons, ← stackOf_succ, ih (by omega),
      keysOf_stackOf (by omega), pathOf]

section Opened

variable {names : List Name} (hok : Walkable names) (htree : Describes names)
include hok htree

theorem openedFor_eq (hn : n ∈ names) (hp : ∀ p ∈ prev, p ∈ names ∧ n.text < p.text) :
    ∃ h, openedFor (stackAt prev) n.text =
      (List.range' h (n.tokens.length - 1 - h)).map (fun i => pathOf (n.tokens.take (i + 1))) ∧
      (tokensAt prev).take h = n.tokens.take h ∧ h ≤ (tokensAt prev).length - 1 ∧
      ∀ j, h < j → j ≤ (tokensAt prev).length - 1 →
        ¬join 0x2e ((tokensAt prev).take j) <+: n.text := by
  obtain ⟨h, hu, ht, ⟨hle, hle'⟩, hg⟩ := kept_of_walkable hok htree hn hp
  refine ⟨h, ?_, ht, hle, hg⟩
  simp only [openedFor, hu, length_stackOf, (hok.separates n hn).split]
  rw [stackOf_congr ht, openings_stackOf (by omega)]

/-- The containers of the names that were seen are those that were opened, each once. -/
def OpenedOnce (seen : List Name) (opened : List (List (Option Bytes))) : Prop :=
  opened.Nodup ∧ ∀ p, p ∈ opened ↔
    p = [none] ∨ ∃ n ∈ seen, ∃ tokens, n.HasContainer tokens ∧ p = pathOf tokens

omit hok htree in
theorem pathOf_ne {tokens : List Bytes} (h : tokens ≠ []) : pathOf tokens ≠ [none] := by
  intro heq
  exact h (pathOf_inj heq)

theorem openedOnce_step {seen : List Name} {opened : List (List (Option Bytes))}
    (hn : n ∈ names) (h : OpenedOnce seen opened) (hpr : ∀ p ∈ prev, p ∈ names ∧ n.text < p.text)
    (hsn : ∀ s ∈ seen, ∃ p ∈ prev, p.text ≤ s.text) (hl : ∀ p ∈ prev, p ∈ seen) :
    OpenedOnce (seen ++ [n]) (opened ++ openedFor (stackAt prev) n.text) := by
  obtain ⟨k, ho, ht, hk, hg⟩ := openedFor_eq hok htree hn hpr
  rw [ho]
  constructor
  · rw [nodup_append]
    refine ⟨h.1, ?_, ?_⟩
    · refine List.Nodup.map_on ?_ nodup_range'
      intro i hi j hj heq
      rw [mem_range'_1] at hi hj
      have := congrArg List.length (pathOf_inj heq)
      rw [length_take, length_take] at this
      omega
    · -- a container that was opened before would still be open
      rintro path hpt _ hnw rfl
      obtain ⟨i, hi, rfl⟩ := List.mem_map.mp hnw
      rw [mem_range'_1] at hi
      have how : n.HasContainer (n.tokens.take (i + 1)) :=
        hasContainer_iff.mpr ⟨i + 1, by omega, by omega, rfl⟩
      rcases (h.2 _).mp hpt with hr | ⟨s, hs, tokens, hc, heq⟩
      · exact pathOf_ne how.1 hr
      · obtain rfl := pathOf_inj heq
        obtain ⟨p, hp, hle⟩ := hsn s hs
        obtain ⟨x, hx⟩ := hc.text
        obtain ⟨y, hy⟩ := how.text
        have hb : join 0x2e (n.tokens.take (i + 1)) ++ [0x2e] <+: p.text := by
          refine common_of_between ⟨x, by simp [hx]⟩ ⟨y, by simp [hy]⟩
            (List.le_of_lt (hpr p hp).2) hle
        obtain ⟨z, hz⟩ := hb
        rw [append_assoc] at hz
        cases hp
        obtain ⟨j, hps, hj, heq'⟩ := hasContainer_iff.mp
          (hasContainer_of_text how.1 how.free hz.symm)
        have hjl := congrArg List.length heq'
        rw [length_take, length_take] at hjl
        refine hg j ?_ hj ?_
        · omega
        · change join 0x2e (p.tokens.take j) <+: n.text
          rw [← heq']
          exact ⟨_, hy.symm⟩
  · intro path
    rw [mem_append, h.2 path]
    constructor
    · rintro ((hr | ⟨s, hs, hc⟩) | hnw)
      · exact .inl hr
      · exact .inr ⟨s, mem_append_left _ hs, hc⟩
      · obtain ⟨i, hi, rfl⟩ := List.mem_map.mp hnw
        rw [mem_range'_1] at hi
        exact .inr ⟨n, by simp, _,
          hasContainer_iff.mpr ⟨i + 1, by omega, by omega, rfl⟩, rfl⟩
    · rintro (hr | ⟨s, hs, tokens, hc, rfl⟩)
      · exact .inl (.inl hr)
      · rcases mem_append.mp hs with hs | hs
        · exact .inl (.inr ⟨s, hs, tokens, hc, rfl⟩)
        · obtain rfl := mem_singleton.mp hs
          obtain ⟨j, hps, hj, rfl⟩ := hasContainer_iff.mp hc
          rcases Nat.lt_or_ge k j with hlt | hge
          · refine .inr (List.mem_map.mpr ⟨j - 1, ?_, by rw [Nat.sub_add_cancel hps]⟩)
            rw [mem_range'_1]
            omega
          · -- a container that was kept
            left
            right
            cases prev with
            | none =>
              simp only [tokensAt, length_nil] at hk
              omega
            | some p =>
              refine ⟨p, hl p rfl, p.tokens.take j, hasContainer_iff.mpr
                ⟨j, hps, ?_, rfl⟩, ?_⟩
              · change k ≤ p.tokens.length - 1 at hk
                omega
              · have hsm := congrArg (List.take j) ht
                rw [take_take, take_take, min_eq_left hge] at hsm
                exact congrArg pathOf hsm.symm

theorem openedOnce_all {sorted seen : List Name} {opened : List (List (Option Bytes))}
    (hsb : ∀ n ∈ sorted, n ∈ names)
    (hsorted : sorted.Pairwise fun a b => b.text < a.text) (h : OpenedOnce seen opened)
    (hpr : ∀ p ∈ prev, p ∈ names ∧ ∀ n ∈ sorted, n.text < p.text)
    (hsn : ∀ s ∈ seen, ∃ p ∈ prev, p.text ≤ s.text) (hl : ∀ p ∈ prev, p ∈ seen) :
    OpenedOnce (seen ++ sorted) (opened ++ openedAll (sorted.map Name.text) (stackAt prev)) := by
  induction sorted generalizing seen opened prev with
  | nil => simpa [openedAll] using h
  | cons n rest ih =>
    have hn := hsb n (mem_cons_self ..)
    obtain ⟨hf, hr⟩ := pairwise_cons.mp hsorted
    have hpr' : ∀ p ∈ prev, p ∈ names ∧ n.text < p.text := fun p hp =>
      ⟨(hpr p hp).1, (hpr p hp).2 n (mem_cons_self ..)⟩
    have hsp := openedOnce_step hok htree hn h hpr' hsn hl
    have hst := (exact_of_walkable hok htree hsb hsorted hpr).1
    rw [map_cons, openedAll, hst, ← append_assoc, ← singleton_append,
      ← append_assoc]
    refine ih (fun m hm => hsb m (mem_cons_of_mem _ hm)) hr hsp ?_ ?_ ?_
    · intro p hp
      cases hp
      exact ⟨hn, hf⟩
    · intro s hs
      refine ⟨n, rfl, ?_⟩
      rcases mem_append.mp hs with hs | hs
      · obtain ⟨p, hp, hle⟩ := hsn s hs
        exact List.le_trans (List.le_of_lt (hpr' p hp).2) hle
      · rw [mem_singleton.mp hs]
        exact List.le_refl _
    · intro p hp
      cases hp
      simp

end Opened

/-! ### The whole walk -/

section Whole

variable {names : List Name}

def sorted (names : List Name) : List Name := names.insertionSort fun a b => b.text ≤ a.text

theorem map_sorted (names : List Name) :
    (sorted names).map Name.text = sortNames (names.map Name.text) :=
  map_insertionSort _ _ _ _ fun _ _ _ _ => Iff.rfl

theorem perm_sorted (names : List Name) : (sorted names).Perm names :=
  perm_insertionSort _ _

theorem pairwise_sorted (h : names.Nodup) :
    (sorted names).Pairwise fun a b => b.text < a.text := by
  have hle := pairwise_insertionSort (fun a b : Name => b.text ≤ a.text) names
  have hne : (sorted names).Pairwise (· ≠ ·) := (perm_sorted names).nodup_iff.mpr h
  refine (hle.and hne).imp fun {a b} hab => ?_
  by_contra hnot
  exact hab.2 (text_inj (List.le_antisymm (List.not_lt.mp hnot) hab.1))

theorem reportsOf_of_exact (value : Bytes → Bytes) {l : List Name}
    (h : Exact l prev) : reportsOf value (l.map Name.text) (stackAt prev) =
      l.map fun n => (n.path, n.key, value n.text) := by
  induction l generalizing prev with
  | nil => rfl
  | cons n rest ih =>
    obtain ⟨hst, hs, hr⟩ := h
    rw [map_cons, reportsOf, hst, keysOf_stackAt, hs.key, ih hr, map_cons]

/-- Values that are told apart are reported rightly only if each is. -/
theorem reported_of_mem (names : List Name) {l : List Name}
    (h : ∀ report ∈ reportsOf id (l.map Name.text) stack,
      ∃ n ∈ names, report = (n.path, n.key, n.text)) : Reported l stack := by
  induction l generalizing stack with
  | nil => trivial
  | cons n rest ih =>
    refine ⟨?_, ih fun report hm => h report (mem_cons_of_mem _ hm)⟩
    obtain ⟨n', -, heq⟩ := h _ (mem_cons_self ..)
    rw [Prod.mk.injEq, Prod.mk.injEq] at heq
    obtain rfl := text_inj heq.2.2
    exact ⟨heq.1, heq.2.1⟩

/-- The walk of names that describe a tree rebuilds it, whatever the values are, exactly if no dot
is swallowed and no name continues the prefix of a container by a character before the dot. -/
theorem walk_isTree_iff (names : List Name) (htree : Describes names) :
    (∀ value, IsTree value names (valuePairsWalk value (names.map Name.text))) ↔
      Walkable names := by
  have hs : ∀ n ∈ sorted names, n ∈ names := fun n hn => (perm_sorted names).subset hn
  have hp := pairwise_sorted htree.1
  constructor
  · intro h
    obtain ⟨r, hrp, -, hrs, -⟩ := h id
    rw [replay_valuePairsWalk, Option.some.injEq, ← map_sorted] at hrp
    have hre : Reported (sorted names) (stackAt none) := by
      apply reported_of_mem names
      intro report hm
      subst hrp
      obtain ⟨n, hn, heq⟩ := List.mem_map.mp (hrs.subset hm)
      exact ⟨n, hn, heq.symm⟩
    have hnn : Separates (tokensAt none) := isChain_nil
    have hw := (hre.exact hnn).walkable hp
    have hb : ∀ n ∈ names, n ∈ sorted names := fun n hn => (perm_sorted names).symm.subset hn
    exact ⟨fun n hn => hw.separates n (hb n hn), fun n hn tokens hc n' hn' =>
      hw.ordered n (hb n hn) tokens hc n' (hb n' hn')⟩
  · intro hok value
    have he : Exact (sorted names) none :=
      exact_of_walkable hok htree hs hp (by simp)
    have hr : OpenedOnce [] [[none]] := ⟨by simp, by simp⟩
    have ho : OpenedOnce ([] ++ sorted names)
        ([[none]] ++ openedAll ((sorted names).map Name.text) (stackAt none)) :=
      openedOnce_all hok htree hs hp hr (by simp) (by simp) (by simp)
    rw [map_sorted] at ho
    refine ⟨_, replay_valuePairsWalk value _, rfl, ?_, ho.1, fun p => ?_⟩
    · change (reportsOf value _ (stackAt none)).Perm _
      rw [← map_sorted, reportsOf_of_exact value he]
      exact (perm_sorted names).map _
    · rw [show [none] :: openedAll (sortNames (names.map Name.text)) [] =
        [[none]] ++ openedAll (sortNames (names.map Name.text)) (stackAt none) from rfl, ho.2 p]
      constructor
      · rintro (hr | ⟨n, hn, rest⟩)
        · exact .inl hr
        · exact .inr ⟨n, hs n hn, rest⟩
      · rintro (hr | ⟨n, hn, rest⟩)
        · exact .inl hr
        · exact .inr ⟨n, (perm_sorted names).symm.subset hn, rest⟩

theorem describes_pair {n n' : Name} (h : ¬n.tokens <+: n'.tokens) (h' : ¬n'.tokens <+: n.tokens) :
    Describes [n, n'] := by
  have hne : n ≠ n' := by
    rintro rfl
    exact h prefix_rfl
  refine ⟨by simp [hne], fun m hm m' hm' hp => ?_⟩
  rcases mem_pair.mp hm with rfl | rfl <;> rcases mem_pair.mp hm' with rfl | rfl
  · rfl
  · exact absurd hp h
  · exact absurd hp h'
  · rfl

/-- `a.b` and `a.c` -/
theorem walk_isTree_siblings : ∃ n n' : Name, n.text = [0x61, 0x2e, 0x62] ∧
    n'.text = [0x61, 0x2e, 0x63] ∧
    ∀ value, IsTree value [n, n'] (valuePairsWalk value ([n, n'].map Name.text)) := by
  let n : Name := ⟨[[0x61], [0x62]], by decide, by decide, by decide⟩
  let n' : Name := ⟨[[0x61], [0x63]], by decide, by decide, by decide⟩
  have htree : Describes [n, n'] := describes_pair (by decide) (by decide)
  have hs : ∀ m ∈ [n, n'], Separates m.tokens := by
    intro m hm
    have hp : ∀ u : Bytes, ¬Swallowed [0x61] u := by
      rintro u ⟨⟨a, d, heq, -⟩, -⟩
      have hat : (0x40 : UInt8) ∈ [(0x61 : UInt8)] := heq ▸ by simp
      exact absurd hat (by decide)
    rcases mem_pair.mp hm with rfl | rfl <;> simp [Separates, n, n', hp]
  have hw : Walkable [n, n'] := by
    refine ⟨hs, fun m hm tokens hc m' hm' c rest ht => ?_⟩
    obtain ⟨j, hps, hle, rfl⟩ := hasContainer_iff.mp hc
    have hl : m.tokens.length = 2 := by
      rcases mem_pair.mp hm with rfl | rfl <;> rfl
    obtain rfl : j = 1 := by omega
    have htk : m.tokens.take 1 = [[0x61]] := by
      rcases mem_pair.mp hm with rfl | rfl <;> rfl
    have hsc : m'.text[1]? = some 0x2e := by
      rcases mem_pair.mp hm' with rfl | rfl <;> rfl
    rw [ht, htk] at hsc
    obtain rfl : c = 0x2e := Option.some.inj hsc
    decide
  exact ⟨n, n', rfl, rfl, (walk_isTree_iff _ htree).mpr hw⟩

/-- `foo-x.y` is reported inside of `foo`, which was opened for `foo.bar`. -/
theorem walk_wrongContainer : ∃ n n' : Name,
    n.text = [0x66, 0x6f, 0x6f, 0x2e, 0x62, 0x61, 0x72] ∧
    n'.text = [0x66, 0x6f, 0x6f, 0x2d, 0x78, 0x2e, 0x79] ∧ Describes [n, n'] ∧
    ¬IsTree id [n, n'] (valuePairsWalk id ([n, n'].map Name.text)) := by
  let n : Name := ⟨[[0x66, 0x6f, 0x6f], [0x62, 0x61, 0x72]], by decide, by decide, by decide⟩
  let n' : Name := ⟨[[0x66, 0x6f, 0x6f, 0x2d, 0x78], [0x79]], by decide, by decide, by decide⟩
  refine ⟨n, n', rfl, rfl, describes_pair (by decide) (by decide), ?_⟩
  rintro ⟨r, hr, -, hrp, -⟩
  rw [replay_valuePairsWalk, Option.some.injEq] at hr
  have hm : ([none, some [0x66, 0x6f, 0x6f]], [0x79], n'.text) ∈ r.reports := by
    rw [← hr]
    decide +kernel
  have he := hrp.subset hm
  revert he
  decide +kernel

end Whole

end SyslogNg.ValuePairs
