import Mathlib.Tactic

/-!
# Keys that are read from left to right

A set of keys is walked along a text from one branching point to the next. A walk that cannot take
some of the symbols behind a branching point reaches the *open* keys only; what it finds last is the
longest open key that the text begins with.
-/
namespace SyslogNg.PrefixMap

open List

variable {α V : Type*}

/-! ### Branching points -/

/-- What follows `p` in the keys that begin with it. -/
def under (K : Set (List α)) (p : List α) : Set (List α) := {s | p ++ s ∈ K}

/-- There is a key that ends here, or there are two keys that part here. -/
def Fork (K : Set (List α)) : Prop :=
  [] ∈ K ∨ ∃ a b s t, a ≠ b ∧ a :: s ∈ K ∧ b :: t ∈ K

/-- The points at which a walk along the keys stops. -/
def IsNode (K : Set (List α)) (p : List α) : Prop := p = [] ∨ Fork (under K p)

/-- Behind each node on the way to `x` there is a symbol that the walk can take. -/
def Passes (ok : α → Prop) (K : Set (List α)) (x : List α) : Prop :=
  ∀ p a s, x = p ++ a :: s → IsNode K p → ok a

/-- The keys that the walk reaches. -/
def Open (ok : α → Prop) (K : Set (List α)) (x : List α) : Prop := x ∈ K ∧ Passes ok K x

variable {ok : α → Prop} {K K' : Set (List α)} {u p x y z k : List α}

theorem Fork.mono (h : Fork K) (hs : K ⊆ K') : Fork K' := by
  rcases h with h | ⟨a, b, s, t, hne, ha, hb⟩
  · exact .inl (hs h)
  · exact .inr ⟨a, b, s, t, hne, hs ha, hs hb⟩

theorem Fork.nonempty (h : Fork K) : ∃ x, x ∈ K := by
  rcases h with h | ⟨a, -, s, -, -, ha, -⟩
  · exact ⟨[], h⟩
  · exact ⟨a :: s, ha⟩

theorem under_append (K : Set (List α)) (p q : List α) :
    under (under K p) q = under K (p ++ q) := by
  ext s
  simp [under]

theorem open_nil : Open ok K [] ↔ [] ∈ K := by
  refine ⟨fun h => h.1, fun h => ⟨h, ?_⟩⟩
  intro p a s he
  simp at he

/-- The first symbol of an open key can be taken. -/
theorem Open.head {a : α} {s : List α} (h : Open ok K (a :: s)) : ok a :=
  h.2 [] a s rfl (.inl rfl)

/-! ### Edges -/

/-- The way from one node to the next: all keys with its first symbol begin with it. -/
structure Edge (K : Set (List α)) (u : List α) : Prop where
  ne_nil : u ≠ []
  all : ∀ x ∈ K, x.head? = u.head? → u <+: x
  fork : Fork (under K u)

namespace Edge

variable (h : Edge K u)
include h

theorem prefix_of_mem {p s : List α} (hp : p ≠ []) (hpu : p <+: u) (hs : p ++ s ∈ K) :
    u <+: p ++ s := by
  apply h.all _ hs
  obtain ⟨q, rfl⟩ := hpu
  cases p with
  | nil => exact absurd rfl hp
  | cons a p => rfl

/-- There is no node inside an edge. -/
theorem not_isNode (hp : p ≠ []) (hpu : p <+: u) (hne : p ≠ u) : ¬ IsNode K p := by
  obtain ⟨q, rfl⟩ := hpu
  obtain ⟨c, q, rfl⟩ : ∃ c q', q = c :: q' := by
    cases q with
    | nil => simp at hne
    | cons c q => exact ⟨c, q, rfl⟩
  -- whatever follows `p` in a key begins with the next symbol of the edge
  have hn : ∀ s, s ∈ under K p → ∃ t, s = c :: t := by
    intro s hs
    have hl := h.prefix_of_mem hp ⟨c :: q, rfl⟩ hs
    rw [prefix_append_right_inj] at hl
    obtain ⟨t, rfl⟩ := hl
    exact ⟨q ++ t, rfl⟩
  rintro (rfl | he | ⟨a, b, s, t, hab, ha, hb⟩)
  · exact hp rfl
  · obtain ⟨t, ht⟩ := hn [] he
    simp at ht
  · obtain ⟨_, hs⟩ := hn _ ha
    obtain ⟨_, ht⟩ := hn _ hb
    rw [List.cons.injEq] at hs ht
    exact hab (hs.1.trans ht.1.symm)

theorem isNode_append (q : List α) : IsNode K (u ++ q) ↔ IsNode (under K u) q := by
  have hn : u ++ q ≠ [] := by simp [h.ne_nil]
  simp only [IsNode, hn, false_or, under_append]
  constructor
  · exact .inr
  · rintro (rfl | hq)
    · simpa using h.fork
    · exact hq

/-- Behind an edge, the walk goes on with what follows it in the keys. -/
theorem open_append (hok : ∀ a ∈ u.head?, ok a) (z : List α) :
    Open ok K (u ++ z) ↔ Open ok (under K u) z := by
  refine and_congr Iff.rfl ⟨fun hz p a s he hp => ?_, fun hz p a s he hp => ?_⟩
  · exact hz (u ++ p) a s (by rw [he, append_assoc]) ((h.isNode_append p).mpr hp)
  · -- a node on the way is the beginning of the edge, or lies behind it
    rcases append_eq_append_iff.mp he with ⟨q, rfl, hq⟩ | ⟨q, rfl, hq⟩
    · exact hz q a s hq ((h.isNode_append q).mp hp)
    · cases p with
      | nil =>
        apply hok
        cases q with
        | nil => exact absurd rfl h.ne_nil
        | cons b q =>
          rw [cons_append, List.cons.injEq] at hq
          rw [hq.1]
          rfl
      | cons b p =>
        cases q with
        | nil =>
          have hen : IsNode (under K (b :: p ++ [])) [] := .inl rfl
          exact hz [] a s hq.symm hen
        | cons c q =>
          have hi : b :: p ≠ b :: p ++ c :: q := by simp
          exact absurd hp (h.not_isNode (by simp) ⟨c :: q, rfl⟩ hi)

/-- An open key with the first symbol of an edge goes on behind it. -/
theorem exists_append (hx : x ∈ K) (hne : x ≠ []) (hxk : x <+: u ++ k) :
    ∃ z, x = u ++ z ∧ z <+: k := by
  have hh : x.head? = u.head? := by
    obtain ⟨t, ht⟩ := hxk
    have hu := h.ne_nil
    cases x with
    | nil => exact absurd rfl hne
    | cons a x =>
      cases u with
      | nil => exact absurd rfl hu
      | cons b u =>
        simp only [cons_append, List.cons.injEq] at ht
        rw [ht.1]
        rfl
  obtain ⟨z, rfl⟩ := h.all x hx hh
  exact ⟨z, rfl, (prefix_append_right_inj u).mp hxk⟩

/-- What is open along a text that goes on behind an edge. -/
theorem exists_open_iff (hok : ∀ a ∈ u.head?, ok a) :
    (∃ y, y <+: u ++ k ∧ Open ok K y) ↔ [] ∈ K ∨ ∃ z, z <+: k ∧ Open ok (under K u) z := by
  constructor
  · rintro ⟨y, hy, ho⟩
    by_cases hne : y = []
    · subst hne
      exact .inl ho.1
    · obtain ⟨z, rfl, hz⟩ := h.exists_append ho.1 hne hy
      exact .inr ⟨z, hz, (h.open_append hok z).mp ho⟩
  · rintro (hn | ⟨z, hz, ho⟩)
    · exact ⟨[], nil_prefix, open_nil.mpr hn⟩
    · exact ⟨u ++ z, (prefix_append_right_inj u).mpr hz, (h.open_append hok z).mpr ho⟩

theorem rest {p q : List α} (hu : u = p ++ q) (hp : p ≠ []) (hq : q ≠ []) : Edge (under K p) q := by
  subst hu
  refine ⟨hq, fun x hx hh => ?_, ?_⟩
  · exact (prefix_append_right_inj p).mp (h.prefix_of_mem hp (prefix_append p q) hx)
  · rw [under_append]
    exact h.fork

/-- A key that begins with another symbol does not touch an edge. -/
theorem insert_other (hx : x.head? ≠ u.head?) : Edge (insert x K) u := by
  refine ⟨h.ne_nil, ?_, h.fork.mono fun s hs => .inr hs⟩
  rintro y (rfl | hy) hh
  · exact absurd hh hx
  · exact h.all y hy hh

/-- A key that goes on behind an edge keeps it. -/
theorem insert_append (z : List α) : Edge (insert (u ++ z) K) u := by
  refine ⟨h.ne_nil, ?_, h.fork.mono fun s hs => .inr hs⟩
  rintro y (rfl | hy) hh
  · exact prefix_append u z
  · exact h.all y hy hh

/-- A key that leaves an edge makes a node inside it. -/
theorem insert_leaving {p q : List α} (hu : u = p ++ q) (hp : p ≠ []) (hq : q ≠ [])
    (hl : z.head? ≠ q.head?) : Edge (insert (p ++ z) K) p := by
  subst hu
  refine ⟨hp, ?_, ?_⟩
  · rintro y (rfl | hy) hh
    · exact prefix_append p z
    · refine (prefix_append p q).trans (h.all y hy ?_)
      rw [hh, List.head?_append_of_ne_nil p hp]
  · cases z with
    | nil => exact .inl (.inl rfl)
    | cons a z =>
      obtain ⟨b, q, rfl⟩ := exists_cons_of_ne_nil hq
      obtain ⟨s, hs⟩ := h.fork.nonempty
      refine .inr ⟨a, b, z, q ++ s, ?_, .inl rfl, .inr ?_⟩
      · rintro rfl
        exact hl rfl
      · change p ++ (b :: q ++ s) ∈ K
        rw [← append_assoc]
        exact hs

end Edge

/-- A key with a symbol that no other key begins with is an edge of its own. -/
theorem Edge.of_new (hx : x ≠ []) (hn : ∀ y ∈ K, y.head? ≠ x.head?) : Edge (insert x K) x := by
  refine ⟨hx, ?_, .inl (.inl (append_nil x))⟩
  rintro y (rfl | hy) hh
  · exact prefix_rfl
  · exact absurd hh (hn y hy)

/-! ### Maps -/

def keys (m : List α → Option V) : Set (List α) := {x | m x ≠ none}

/-- The values of the keys that begin with `p`. -/
def below (m : List α → Option V) (p : List α) : List α → Option V := fun s => m (p ++ s)

theorem keys_below (m : List α → Option V) (p : List α) : keys (below m p) = under (keys m) p := rfl

theorem below_append (m : List α → Option V) (p q : List α) :
    below (below m p) q = below m (p ++ q) := by
  funext s
  simp [below]

/-- The value of the longest open key that `k` begins with. -/
def IsBest (ok : α → Prop) (m : List α → Option V) (k : List α) (r : Option V) : Prop :=
  (∃ x, x <+: k ∧ Open ok (keys m) x ∧ m x = r ∧ ∀ y, y <+: k → Open ok (keys m) y → y <+: x) ∨
    r = none ∧ ∀ y, y <+: k → ¬ Open ok (keys m) y

variable {m : List α → Option V} {r : Option V}

/-- Nothing but the empty key can be reached along `k`. -/
theorem isBest_of_nil (h : ∀ y, y <+: k → Open ok (keys m) y → y = []) : IsBest ok m k (m []) := by
  by_cases hn : m [] = none
  · refine .inr ⟨hn, fun y hy ho => ?_⟩
    rw [h y hy ho, open_nil] at ho
    exact ho hn
  · refine .inl ⟨[], nil_prefix, open_nil.mpr hn, rfl, fun y hy ho => ?_⟩
    rw [h y hy ho]

/-- What is best behind an edge is best on the whole, unless there is nothing. -/
theorem IsBest.edge (he : Edge (keys m) u) (hok : ∀ a ∈ u.head?, ok a)
    (h : IsBest ok (below m u) k r) : IsBest ok m (u ++ k) (r.or (m [])) := by
  have hb : ∀ y, y <+: u ++ k → Open ok (keys m) y → y ≠ [] →
      ∃ z, y = u ++ z ∧ z <+: k ∧ Open ok (keys (below m u)) z := by
    intro y hy ho hne
    obtain ⟨z, rfl, hz⟩ := he.exists_append ho.1 hne hy
    exact ⟨z, rfl, hz, (he.open_append hok z).mp ho⟩
  rcases h with ⟨x, hx, ho, rfl, hl⟩ | ⟨rfl, hn⟩
  · refine .inl ⟨u ++ x, (prefix_append_right_inj u).mpr hx,
      (he.open_append hok x).mpr ho, ?_, fun y hy hyp => ?_⟩
    · change m (u ++ x) = (m (u ++ x)).or (m [])
      have hs : m (u ++ x) ≠ none := ho.1
      cases hm : m (u ++ x) with
      | none => exact absurd hm hs
      | some v => rfl
    · by_cases hne : y = []
      · rw [hne]
        exact nil_prefix
      · obtain ⟨z, rfl, hz, hzp⟩ := hb y hy hyp hne
        exact (prefix_append_right_inj u).mpr (hl z hz hzp)
  · apply isBest_of_nil
    intro y hy hyp
    by_contra hne
    obtain ⟨z, -, hz, hzp⟩ := hb y hy hyp hne
    exact hn z hz hzp

/-- A first value for a key. -/
def put [DecidableEq α] (m : List α → Option V) (key : List α) (v : V) : List α → Option V :=
  fun s => if s = key then (m s).or (some v) else m s

section put

variable [DecidableEq α] {key : List α} {v : V}

@[simp] theorem put_self_ne_none : put m key v key ≠ none := by
  unfold put
  cases m key <;> simp

theorem put_of_ne {s : List α} (h : s ≠ key) : put m key v s = m s := if_neg h

theorem put_of_none (h : m key = none) : put m key v key = some v := by
  unfold put
  rw [if_pos rfl, h]
  rfl

theorem keys_put : keys (put m key v) = insert key (keys m) := by
  ext s
  by_cases hs : s = key
  · subst hs
    simp [keys]
  · simp [keys, put_of_ne hs, hs]

theorem below_put (p : List α) : below (put m (p ++ key) v) p = put (below m p) key v := by
  funext s
  simp only [below, put, append_cancel_left_eq]

theorem below_put_of_not_below (h : ¬ p <+: key) : below (put m key v) p = below m p := by
  funext s
  apply put_of_ne
  rintro rfl
  exact h (prefix_append p s)

end put

end SyslogNg.PrefixMap
