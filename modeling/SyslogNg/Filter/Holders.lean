import Mathlib.Tactic

/-!
# Holders of filter nodes

`lib/filter.c`, `lib/filter-netmask6.c`. Filter pipes and their clones, rewrite rules with a
condition and template functions hold references to the root of an expression. A node of `and` or
`or` holds one to each of its operands, which nobody else does, and gives it up when it is freed.
-/
namespace SyslogNg.Filter

open List Option

variable {ι : Type*}

/-- The nodes without operands, by their constructors -/
inductive LeafType
  | cmp
  | facility
  | level
  | re
  | tags
  | inList
  | call
  | netmask
  | netmask6
  deriving DecidableEq

/-- An expression, with names for its nodes -/
inductive FilterExpr (ι : Type*)
  | leaf (type : LeafType) (name : ι)
  | op (isOr : Bool) (name : ι) (left right : FilterExpr ι)

namespace FilterExpr

def nodes : FilterExpr ι → List (Option LeafType × ι)
  | leaf type name => [(some type, name)]
  | op _ name left right => left.nodes ++ right.nodes ++ [(none, name)]

/-- The count that a constructor leaves: only `filter_netmask6_new` does not call
`filter_expr_node_init`. -/
def refCnt : FilterExpr ι → UInt32
  | leaf type _ => if type = .netmask6 then 0 else 1
  | op .. => 1

/-- The nodes that `filter_expr_unref` and `fop_free` free for a root with the count -/
def unref (refCnt : UInt32) : FilterExpr ι → List (Option LeafType × ι)
  | leaf type name => if refCnt - 1 = 0 then [(some type, name)] else []
  | op _ name left right =>
    if refCnt - 1 = 0 then left.unref left.refCnt ++ right.unref right.refCnt ++ [(none, name)]
    else []

/-- The calls of the holders of an expression, of whom there are never more than `most`: how many
are left, the count of the root, unless it is freed, and the nodes that are freed. There is no
result once a call was made for a root that is freed. -/
inductive Held (e : FilterExpr ι) (most : ℕ) :
    ℕ → Option (Option UInt32 × List (Option LeafType × ι)) → Prop
  | new : Held e most 1 (some (some e.refCnt, []))
  | ref {n s} : Held e most (n + 1) s → n + 2 ≤ most →
    Held e most (n + 2) (s.bind fun s => s.1.map fun refCnt => (some (refCnt + 1), s.2))
  | unref {n s} : Held e most (n + 1) s →
    Held e most n (s.bind fun s => s.1.map fun refCnt =>
      (if refCnt - 1 = 0 then none else some (refCnt - 1), s.2 ++ e.unref refCnt))

variable {e : FilterExpr ι} {most n : ℕ}

theorem unref_refCnt (e : FilterExpr ι) :
    e.unref e.refCnt = e.nodes.filter (·.1 ≠ some .netmask6) := by
  induction e with
  | leaf type name => by_cases ht : type = .netmask6 <;> simp [refCnt, unref, nodes, ht]
  | op isOr name left right ihl ihr =>
    have ho : (op isOr name left right).refCnt = 1 := rfl
    simp [ho, unref, nodes, ihl, ihr]

/-- `filter_expr_node_init` was called for all nodes. -/
def Counted (e : FilterExpr ι) : Prop := ∀ node ∈ e.nodes, node.1 ≠ some .netmask6

theorem counted_iff : e.Counted ↔ e.unref e.refCnt = e.nodes := by
  simp [unref_refCnt, Counted]

theorem Counted.refCnt_eq (h : e.Counted) : e.refCnt = 1 := by
  cases e with
  | leaf type name =>
    have hc := h _ (mem_singleton_self _)
    exact if_neg fun ht => hc (congrArg some ht)
  | op => rfl

theorem Counted.unref_eq (h : e.Counted) (refCnt : UInt32) :
    e.unref refCnt = if refCnt - 1 = 0 then e.nodes else [] := by
  have hn := counted_iff.mp h
  rw [h.refCnt_eq] at hn
  rw [← hn]
  cases e <;> rfl

theorem ofNat_succ (n : ℕ) : UInt32.ofNat (n + 1) = UInt32.ofNat n + 1 := UInt32.ofNat_add n 1

theorem Counted.held_up (h : e.Counted) (hn : n < most) :
    Held e most (n + 1) (some (some (.ofNat (n + 1)), [])) := by
  induction n with
  | zero =>
    have hnw : Held e most 1 _ := .new
    rwa [h.refCnt_eq] at hnw
  | succ n ih =>
    rw [ofNat_succ]
    exact (ih (by omega)).ref hn

theorem Counted.held_eq (h : e.Counted) (hm : most ≤ 2 ^ 32) {s} (hs : Held e most n s) :
    n ≤ max 1 most ∧ s = some (if n = 0 then (none, e.nodes) else (some (.ofNat n), [])) := by
  induction hs with
  | new => exact ⟨le_max_left _ _, by rw [h.refCnt_eq]; rfl⟩
  | ref hs hn ih =>
    refine ⟨hn.trans (le_max_right _ _), ?_⟩
    rw [ih.2, ofNat_succ (_ + 1)]
    rfl
  | @unref n s hs ih =>
    have hlt : n < 2 ^ 32 := by omega
    have hz : UInt32.ofNat n = 0 ↔ n = 0 := by
      rw [← UInt32.toNat_inj, UInt32.toNat_ofNat_of_lt' hlt]
      rfl
    refine ⟨by omega, ?_⟩
    rw [ih.2, if_neg n.succ_ne_zero, bind_some, map_some, h.unref_eq, ofNat_succ,
      UInt32.add_sub_cancel]
    simp only [hz]
    split_ifs <;> rfl

/-- Every node is freed once, with the last holder of the root and not before, exactly if all nodes
of the expression start with a reference and the count never wraps around. -/
theorem freed_with_last_holder_iff (e : FilterExpr ι) (most : ℕ) :
    (∀ n s, Held e most n s → ∃ root, s = some (root, if n = 0 then e.nodes else [])) ↔
      (∀ node ∈ e.nodes, node.1 ≠ some .netmask6) ∧ most ≤ 2 ^ 32 := by
  refine ⟨fun hf => ?_, fun ⟨hc, hm⟩ n s hs => ?_⟩
  · obtain ⟨root, hr⟩ := hf 0 _ (.unref .new)
    have hc : e.Counted := counted_iff.mpr (congrArg Prod.snd (Option.some.inj hr))
    refine ⟨hc, not_lt.mp fun hm => ?_⟩
    -- one of more than `2 ^ 32` holders gives up its reference
    obtain ⟨root', hr'⟩ := hf (2 ^ 32) _ (hc.held_up hm).unref
    rw [bind_some, map_some, hc.unref_eq] at hr'
    have hn : e.nodes = [] := congrArg Prod.snd (Option.some.inj hr')
    cases e <;> simp [nodes] at hn
  · rw [(Counted.held_eq hc hm hs).2]
    split_ifs
    · exact ⟨_, rfl⟩
    · exact ⟨_, rfl⟩

/-- A `netmask6` filter and a clone of its pipe: the node is freed with the first of the two, and is
never freed if there is no clone. -/
theorem netmask6_freed_early : Held (leaf .netmask6 ()) 2 1 (some (none, [(some .netmask6, ())])) ∧
      Held (leaf .netmask6 ()) 2 0 (some (some (-1), [])) :=
  ⟨.unref (.ref .new le_rfl), .unref .new⟩

end FilterExpr
end SyslogNg.Filter
