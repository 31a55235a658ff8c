import Mathlib.Tactic

/-!
# Search trees

An insertion walks down by comparing the new key with those of the nodes. The comparison need not be
an order; what an insertion does to the list of nodes follows from its answers for the new key. The
tree may be balanced in any way between two insertions.
-/
namespace SyslogNg

open List

inductive SearchTree (κ ν : Type*)
  | leaf
  | node (left : SearchTree κ ν) (key : κ) (value : ν) (right : SearchTree κ ν)

namespace SearchTree

variable {κ ν : Type*}

def nodes : SearchTree κ ν → List (κ × ν)
  | leaf => []
  | node l k v r => l.nodes ++ (k, v) :: r.nodes

def names (t : SearchTree κ ν) : List κ := t.nodes.map Prod.fst

@[simp] theorem names_node {k : κ} {v : ν} (l r : SearchTree κ ν) :
    (node l k v r).names = l.names ++ k :: r.names := by
  simp [names, nodes]

def insert (cmp : κ → κ → Ordering) (k : κ) (v : ν) : SearchTree κ ν → SearchTree κ ν
  | leaf => node leaf k v leaf
  | node l k' v' r =>
    match cmp k k' with
    | .lt => node (l.insert cmp k v) k' v' r
    | .eq => node l k' v r
    | .gt => node l k' v' (r.insert cmp k v)

inductive Built (cmp : κ → κ → Ordering) : List (κ × ν) → SearchTree κ ν → Prop
  | nil : Built cmp [] leaf
  | insert {ins t} (h : Built cmp ins t) (k : κ) (v : ν) :
    Built cmp (ins ++ [(k, v)]) (t.insert cmp k v)
  | balance {ins t t'} (h : Built cmp ins t) (he : t'.nodes = t.nodes) : Built cmp ins t'

variable {cmp : κ → κ → Ordering} {k : κ} {v : ν} {t : SearchTree κ ν} {ins : List (κ × ν)}

theorem names_sublist_insert : t.names <+ (t.insert cmp k v).names := by
  induction t with
  | leaf => exact nil_sublist _
  | node l k' v' r ihl ihr =>
    rw [insert]
    cases cmp k k' <;> simp only [names_node]
    · exact ihl.append (.refl _)
    · exact .refl _
    · exact (Sublist.refl _).append (ihr.cons_cons k')

/-- No insertion takes a name away or moves it. -/
theorem Built.extend (h : Built cmp ins t) (more : List (κ × ν)) :
    ∃ t', Built cmp (ins ++ more) t' ∧ t.names <+ t'.names := by
  induction more generalizing ins t with
  | nil => exact ⟨t, by simpa using h, .refl _⟩
  | cons p more ih =>
    obtain ⟨t', ht, hs⟩ := ih (h.insert p.1 p.2)
    exact ⟨t', by simpa using ht, names_sublist_insert.trans hs⟩

theorem nodes_insert_of_lt (h : ∀ k', cmp k k' = .lt) :
    (t.insert cmp k v).nodes = (k, v) :: t.nodes := by
  induction t with
  | leaf => rfl
  | node l k' v' r ih => simp [insert, h, nodes, ih]

def ofNodes : List (κ × ν) → SearchTree κ ν
  | [] => leaf
  | p :: nodes => node leaf p.1 p.2 (ofNodes nodes)

theorem nodes_ofNodes (l : List (κ × ν)) : (ofNodes l).nodes = l := by
  induction l with
  | nil => rfl
  | cons p l ih => simp [ofNodes, nodes, ih]

/-- The comparison of the new key answers for these keys as the order does. -/
def Agrees (cmp : κ → κ → Ordering) (lt : κ → κ → Prop) (k : κ) (keys : List κ) : Prop :=
  ∀ k' ∈ keys, match cmp k k' with
    | .lt => lt k k'
    | .eq => k = k'
    | .gt => lt k' k

theorem insert_spec {lt : κ → κ → Prop} [IsTrans κ lt] [Std.Irrefl lt] (hs : t.names.Pairwise lt)
    (ha : Agrees cmp lt k t.names) : (t.insert cmp k v).names.Pairwise lt ∧
      k ∈ (t.insert cmp k v).names ∧
      ∀ p ∈ (t.insert cmp k v).nodes, p = (k, v) ∨ p ∈ t.nodes ∧ p.1 ≠ k := by
  have hne : ∀ {a b : κ}, lt a b → a ≠ b := fun h he => Std.Irrefl.irrefl _ (he ▸ h)
  have htr : ∀ {a b c : κ}, lt a b → lt b c → lt a c := fun h h' => IsTrans.trans _ _ _ h h'
  induction t with
  | leaf => simp [insert, names, nodes]
  | node l k' v' r ihl ihr =>
    simp only [names_node, pairwise_append, pairwise_cons, mem_cons, Agrees, mem_append] at hs ha
    specialize ihl hs.1 fun y hy => ha y (.inl hy)
    specialize ihr hs.2.1.2 fun y hy => ha y (.inr (.inr hy))
    rw [insert]
    cases hk : cmp k k' with
    | lt =>
      simp only [names_node, nodes, pairwise_append, pairwise_cons, mem_cons]
      grind [names]
    | eq =>
      simp only [names_node, nodes, pairwise_append, pairwise_cons, mem_cons]
      grind [names]
    | gt =>
      simp only [names_node, nodes, pairwise_append, pairwise_cons, mem_cons]
      grind [names]

end SearchTree

end SyslogNg
