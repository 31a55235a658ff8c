import SyslogNg.Foundations.SearchTree
import SyslogNg.ValuePairs.Walk

/-!
# The order of WELF fields

`$(format-welf)` puts names and values in a tree by `tf_format_welf_strcmp` of
`modules/kvformat/format-welf.c` and writes the nodes in their order. The comparison has `id` before
all names, but no name behind `id`.
-/
namespace SyslogNg.ValuePairs

open List SearchTree

def idName : Bytes := [0x69, 0x64]

def tfFormatWelfStrcmp (a b : Bytes) : Ordering :=
  if a = idName then .lt else if a < b then .lt else if b < a then .gt else .eq

/-- `id` is first, the others are in the order of their bytes. -/
def welfLt (a b : Bytes) : Prop := b ≠ idName ∧ (a = idName ∨ a < b)

/-- Every name that was inserted is written once, with its last value. -/
structure Ordered (ins nodes : List (Bytes × Bytes)) : Prop where
  sorted : (nodes.map Prod.fst).Pairwise welfLt
  last : ∀ p ∈ nodes, (ins.reverse.find? (·.1 = p.1)).map Prod.snd = some p.2
  complete : ∀ p ∈ ins, p.1 ∈ nodes.map Prod.fst

/-- All names that are inserted after `id` are greater. -/
def GreaterAfterId (ins : List (Bytes × Bytes)) : Prop :=
  ∀ before v behind, ins = before ++ (idName, v) :: behind → ∀ p ∈ behind, idName < p.1

instance : IsTrans Bytes welfLt :=
  ⟨fun _ _ _ hab hbc => ⟨hbc.1, hab.2.imp_right fun h =>
    List.lt_trans h (hbc.2.resolve_left hab.1)⟩⟩

instance : Std.Irrefl welfLt := ⟨fun _ h => List.lt_irrefl _ (h.2.resolve_left h.1)⟩

theorem agrees {k : Bytes} {names : List Bytes} (h : idName ∈ names → idName < k) :
    Agrees tfFormatWelfStrcmp welfLt k names := by
  intro y hy
  have hid : y = idName → idName < k := fun he => h (he ▸ hy)
  rw [tfFormatWelfStrcmp]
  by_cases hk : k = idName
  · rw [if_pos hk]
    exact ⟨fun he => List.lt_irrefl _ (hk ▸ hid he), .inl hk⟩
  split_ifs with hlt hgt
  · exact ⟨fun he => List.lt_asymm (hid he) (he ▸ hlt), .inr hlt⟩
  · exact ⟨hk, .inr hgt⟩
  · exact List.le_antisymm (List.not_lt.mp hgt) (List.not_lt.mp hlt)

theorem Ordered.insert {ins : List (Bytes × Bytes)} {t : SearchTree Bytes Bytes} {k v : Bytes}
    (h : Ordered ins t.nodes) (hid : ∀ w, (idName, w) ∈ ins → idName < k) :
    Ordered (ins ++ [(k, v)]) (t.insert tfFormatWelfStrcmp k v).nodes := by
  have hs := insert_spec (v := v) h.sorted (agrees fun hm => by
    obtain ⟨p, hp, he⟩ := mem_map.mp hm
    obtain ⟨q, hq, -⟩ := Option.map_eq_some_iff.mp (h.last p hp)
    have hn : q.1 = idName := by simpa [he] using find?_some hq
    exact hid q.2 (hn ▸ mem_reverse.mp (mem_of_find?_eq_some hq)))
  refine ⟨hs.1, fun p hp => ?_, ?_⟩
  · rcases hs.2.2 p hp with rfl | ⟨hp, hne⟩
    · simp
    · simpa [Ne.symm hne] using h.last p hp
  · rw [forall_mem_append]
    exact ⟨fun p hp => names_sublist_insert.subset (h.complete p hp),
      forall_mem_singleton.mpr hs.2.1⟩

/-- Whatever the shape of the tree, the fields are written in order, unless `id` or a name before it
is inserted after `id`. -/
theorem fields_ordered_iff (ins : List (Bytes × Bytes)) :
    (∀ t, Built tfFormatWelfStrcmp ins t → Ordered ins t.nodes) ↔ GreaterAfterId ins := by
  constructor
  · rintro h before v behind rfl p hp
    by_contra hlt
    obtain ⟨mid, tail, rfl⟩ := append_of_mem hp
    have hm : ∀ b, tfFormatWelfStrcmp idName b = .lt := fun b => if_pos rfl
    have hp : tfFormatWelfStrcmp p.1 idName = .lt := by
      rw [tfFormatWelfStrcmp]
      split_ifs with h1 h2
      · rfl
      · rfl
      · exact absurd (List.le_antisymm (List.not_lt.mp hlt) (List.not_lt.mp h2)) h1
    have h0 : Built tfFormatWelfStrcmp ([] : List (Bytes × Bytes)) leaf := .nil
    obtain ⟨t, ht, -⟩ := h0.extend before
    obtain ⟨t', ht', hsb⟩ := (ht.insert idName v).extend mid
    have hid : idName ∈ t'.names := hsb.subset (by simp [names, nodes_insert_of_lt hm])
    -- a name in front of `id`, which stays there
    obtain ⟨u, hu, a, ha⟩ :
      ∃ u, Built tfFormatWelfStrcmp (before ++ [(idName, v)] ++ mid ++ [p]) u ∧
        ∃ a, [a, idName] <+ u.names := by
      cases hn : t'.nodes with
      | nil => simp [names, hn] at hid
      | cons q rest =>
        rw [names, hn, map_cons, mem_cons] at hid
        rcases hid with hq | hid
        · refine ⟨_, (ht'.balance (nodes_ofNodes t'.nodes)).insert p.1 p.2, p.1, ?_⟩
          rw [hn, ofNodes, SearchTree.insert, ← hq, hp]
          simp [SearchTree.insert]
        · refine ⟨_, ht'.insert p.1 p.2, q.1, Sublist.trans ?_ names_sublist_insert⟩
          rw [names, hn]
          exact (singleton_sublist.mpr hid).cons_cons q.1
    obtain ⟨w, hw, hs⟩ := hu.extend tail
    have ho := h w (by simpa using hw)
    have hpr := ho.sorted.sublist (ha.trans hs)
    simp [welfLt] at hpr
  · intro hc t ht
    induction ht with
    | nil => exact ⟨.nil, by simp [nodes], by simp⟩
    | balance _ he ih => exact he ▸ ih hc
    | insert _ k v ih =>
      refine (ih fun before w behind he p hp => ?_).insert fun w hw => ?_
      · exact hc before w (behind ++ [(k, v)]) (by simp [he]) p (mem_append_left _ hp)
      · obtain ⟨before, behind, rfl⟩ := append_of_mem hw
        exact hc before w (behind ++ [(k, v)]) (by simp) (k, v) (by simp)

/-- `id` and then `a` -/
theorem written_before_id : ∃ t, Built tfFormatWelfStrcmp [(idName, []), ([0x61], [])] t ∧
    ¬Ordered [(idName, []), ([0x61], [])] t.nodes := by
  refine ⟨_, (Built.nil.insert idName []).insert [0x61] [], fun h => ?_⟩
  have hs := h.sorted
  have hc : tfFormatWelfStrcmp [0x61] idName = .lt := by decide
  simp [SearchTree.insert, hc, nodes, welfLt] at hs

end SyslogNg.ValuePairs
