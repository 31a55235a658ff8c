import Mathlib.Tactic

/-!
# Lists grouped by a key

A list is grouped if the entries of every key are next to each other. Entries can be inserted into
such a list only beside their own group or between two other groups.
-/
namespace SyslogNg

open List Option

variable {α κ : Type*} {key : α → κ} {l pre post : List α} {x : α}

/-- Between two entries of a key there are only entries of this key. -/
def Grouped (key : α → κ) (l : List α) : Prop :=
  ∀ a b c, [a, b, c].Sublist l → key a = key c → key b = key a

theorem Grouped.sublist {l' : List α} (h : Grouped key l) (hs : l'.Sublist l) : Grouped key l' :=
  fun a b c ha => h a b c (ha.trans hs)

theorem grouped_nil : Grouped key [] := by
  intro a b c h
  cases h

/-- The entry that ends the first part of a grouped list has the key of every entry of that part
which occurs again. -/
theorem Grouped.getLast_key (h : Grouped key (pre ++ post)) {last a c : α}
    (hl : pre.getLast? = some last) (ha : a ∈ pre) (hc : c ∈ post) (hk : key a = key c) :
    key last = key a := by
  obtain ⟨front, rfl⟩ := List.getLast?_eq_some_iff.mp hl
  rcases mem_append.mp ha with ha | ha
  · refine h a last c ?_ hk
    rw [append_assoc]
    exact (singleton_sublist.mpr ha).append
      ((List.Sublist.refl [last]).append (singleton_sublist.mpr hc))
  · rw [mem_singleton.mp ha]

theorem Grouped.head_key (h : Grouped key (pre ++ post)) {first a c : α}
    (hfr : post.head? = some first) (ha : a ∈ pre) (hc : c ∈ post) (hk : key a = key c) :
    key first = key a := by
  obtain ⟨rest, rfl⟩ := List.head?_eq_some_iff.mp hfr
  rcases mem_cons.mp hc with rfl | hc
  · exact hk.symm
  · refine h a first c ?_ hk
    exact (singleton_sublist.mpr ha).append ((singleton_sublist.mpr hc).cons_cons first)

/-- An entry may be put at a place in a grouped list. -/
structure FitsBetween (key : α → κ) (x : α) (pre post : List α) : Prop where
  /-- Next to its group, if there is one -/
  beside : key x ∈ (pre ++ post).map key →
    pre.getLast?.map key = some (key x) ∨ post.head?.map key = some (key x)
  /-- Not inside of another group -/
  between : ∀ k, pre.getLast?.map key = some k → post.head?.map key = some k → key x = k

theorem Grouped.fitsBetween (h : Grouped key (pre ++ x :: post)) : FitsBetween key x pre post := by
  constructor
  · intro hm
    rw [map_append, mem_append] at hm
    rcases hm with hm | hm
    · obtain ⟨a, ha, hk⟩ := List.mem_map.mp hm
      obtain ⟨last, hl⟩ := ne_none_iff_exists'.mp
        (mt List.getLast?_eq_none_iff.mp (ne_nil_of_mem ha))
      left
      rw [hl, map_some, h.getLast_key hl ha mem_cons_self hk, hk]
    · obtain ⟨c, hc, hk⟩ := List.mem_map.mp hm
      obtain ⟨first, hfr⟩ := ne_none_iff_exists'.mp
        (mt List.head?_eq_none_iff.mp (ne_nil_of_mem hc))
      have h' : Grouped key ((pre ++ [x]) ++ post) := by
        rwa [append_assoc, singleton_append]
      right
      rw [hfr, map_some, h'.head_key hfr (by simp) hc hk.symm]
  · intro k hl hfr
    obtain ⟨last, hg, rfl⟩ := map_eq_some_iff.mp hl
    obtain ⟨first, hg', hk⟩ := map_eq_some_iff.mp hfr
    obtain ⟨front, rfl⟩ := List.getLast?_eq_some_iff.mp hg
    obtain ⟨rest, rfl⟩ := List.head?_eq_some_iff.mp hg'
    refine h last x first ?_ hk.symm
    have hs := ((nil_sublist rest).cons_cons first).cons_cons x |>.cons_cons last
    rw [append_assoc]
    exact hs.trans (sublist_append_right _ _)

/-- Three entries of a list with a new entry: if they are not entries of the old list, then the new
one is the first, the second or the last of them. -/
theorem sublist_insert_cases {a b c : α} (h : [a, b, c].Sublist (pre ++ x :: post)) :
    [a, b, c].Sublist (pre ++ post) ∨ (a = x ∧ [b, c].Sublist post) ∨
      (b = x ∧ a ∈ pre ∧ c ∈ post) ∨ (c = x ∧ [a, b].Sublist pre) := by
  obtain ⟨front, back, ha, hfr, hb⟩ := sublist_append_iff.mp h
  rcases sublist_cons_iff.mp hb with hb | ⟨rest, rfl, hr⟩
  · exact .inl (ha ▸ hfr.append hb)
  · right
    rcases front with _ | ⟨a', _ | ⟨b', _ | ⟨c', more⟩⟩⟩
    · simp only [nil_append, List.cons.injEq] at ha
      obtain ⟨rfl, rfl⟩ := ha
      exact .inl ⟨rfl, hr⟩
    · simp only [cons_append, nil_append, List.cons.injEq] at ha
      obtain ⟨rfl, rfl, rfl⟩ := ha
      exact .inr (.inl ⟨rfl, singleton_sublist.mp hfr, singleton_sublist.mp hr⟩)
    · simp only [cons_append, nil_append, List.cons.injEq] at ha
      obtain ⟨rfl, rfl, rfl, -⟩ := ha
      exact .inr (.inr ⟨rfl, hfr⟩)
    · have hl := congrArg List.length ha
      simp at hl

section

variable (hf : FitsBetween key x pre post) (h : Grouped key (pre ++ post))
include hf h

theorem FitsBetween.first {b c : α}
    (hsb : [b, c].Sublist post) (hk : key x = key c) : key b = key x := by
  have hc : c ∈ post := hsb.subset (by simp)
  have hm : key x ∈ (pre ++ post).map key :=
    List.mem_map.mpr ⟨c, mem_append_right _ hc, hk.symm⟩
  rcases hf.beside hm with hs | hs
  · obtain ⟨last, hg, hl⟩ := map_eq_some_iff.mp hs
    have hin : last ∈ pre := List.mem_of_getLast? hg
    rw [← hl]
    exact h last b c ((singleton_sublist.mpr hin).append hsb) (hl.trans hk)
  · obtain ⟨first, hg, hfr⟩ := map_eq_some_iff.mp hs
    obtain ⟨tail, rfl⟩ := List.head?_eq_some_iff.mp hg
    rw [← hfr]
    rcases sublist_cons_iff.mp hsb with hsb | ⟨rest, hcn, -⟩
    · refine h first b c ?_ (hfr.trans hk)
      exact (hsb.cons_cons first).trans (sublist_append_right _ _)
    · rw [(cons_eq_cons.mp hcn).1]

theorem FitsBetween.last {a b : α}
    (hsb : [a, b].Sublist pre) (hk : key a = key x) : key b = key a := by
  have ha : a ∈ pre := hsb.subset (by simp)
  have hm : key x ∈ (pre ++ post).map key :=
    List.mem_map.mpr ⟨a, mem_append_left _ ha, hk⟩
  rcases hf.beside hm with hs | hs
  · obtain ⟨last, hg, hl⟩ := map_eq_some_iff.mp hs
    obtain ⟨init, rfl⟩ := List.getLast?_eq_some_iff.mp hg
    have hr : [b, a].Sublist (last :: init.reverse) := by simpa using hsb.reverse
    rcases sublist_cons_iff.mp hr with hr | ⟨rest, hc, -⟩
    · refine h a b last ?_ (hk.trans hl.symm)
      have hi : [a, b].Sublist init := by simpa using hr.reverse
      exact (hi.append (List.Sublist.refl [last])).trans (sublist_append_left _ _)
    · rw [(cons_eq_cons.mp hc).1, hl, hk]
  · obtain ⟨first, hg, hfr⟩ := map_eq_some_iff.mp hs
    have hin : first ∈ post := List.mem_of_head? hg
    exact h a b first (hsb.append (singleton_sublist.mpr hin)) (hk.trans hfr.symm)

theorem FitsBetween.middle
    {a c : α} (ha : a ∈ pre) (hc : c ∈ post) (hk : key a = key c) : key x = key a := by
  obtain ⟨last, hl⟩ := ne_none_iff_exists'.mp
    (mt List.getLast?_eq_none_iff.mp (ne_nil_of_mem ha))
  obtain ⟨first, hfr⟩ := ne_none_iff_exists'.mp
    (mt List.head?_eq_none_iff.mp (ne_nil_of_mem hc))
  apply hf.between
  · rw [hl, map_some, h.getLast_key hl ha hc hk]
  · rw [hfr, map_some, h.head_key hfr ha hc hk]

end

theorem grouped_insert_iff (h : Grouped key (pre ++ post)) :
    Grouped key (pre ++ x :: post) ↔ FitsBetween key x pre post := by
  refine ⟨Grouped.fitsBetween, fun hf a b c hs hk => ?_⟩
  rcases sublist_insert_cases hs with ho | ⟨rfl, hp⟩ | ⟨rfl, ha, hc⟩ | ⟨rfl, hpr⟩
  · exact h a b c ho hk
  · exact hf.first h hp hk
  · exact hf.middle h ha hc hk
  · exact hf.last h hpr hk

/-! ### Groups -/

section Openings

variable [DecidableEq κ]

/-- The keys at which a new group begins, after an entry with the key `cur` -/
def openings (key : α → κ) : Option κ → List α → List κ
  | _, [] => []
  | cur, x :: l =>
    if cur = some (key x) then openings key cur l else key x :: openings key (some (key x)) l

theorem openings_map {β : Type*} (f : β → α) (cur : Option κ) (l : List β) :
    openings key cur (l.map f) = openings (fun x => key (f x)) cur l := by
  induction l generalizing cur with
  | nil => rfl
  | cons x l ih => rw [map_cons, openings, openings, ih, ih]

theorem Grouped.openings_cons (h : Grouped key (x :: l)) : (openings key (some (key x)) l).Nodup ∧
      ∀ k, k ∈ openings key (some (key x)) l ↔ k ≠ key x ∧ k ∈ l.map key := by
  induction l generalizing x with
  | nil => simp [openings]
  | cons y l ih =>
    obtain ⟨hn, hm⟩ := ih (h.sublist (sublist_cons_self x (y :: l)))
    by_cases hky : key x = key y
    · rw [openings, if_pos (by rw [hky]), hky]
      refine ⟨hn, fun k => (hm k).trans ?_⟩
      rw [map_cons, mem_cons]
      tauto
    · have hg : key x ∉ l.map key := by
        intro hx
        obtain ⟨z, hz, hzk⟩ := List.mem_map.mp hx
        have hs : [x, y, z].Sublist (x :: y :: l) :=
          ((singleton_sublist.mpr hz).cons_cons y).cons_cons x
        exact hky (h x y z hs hzk.symm).symm
      rw [openings, if_neg (by simpa using hky)]
      refine ⟨nodup_cons.mpr ⟨fun hy => ((hm _).mp hy).1 rfl, hn⟩, fun k => ?_⟩
      rw [mem_cons, hm, map_cons, mem_cons]
      constructor
      · rintro (rfl | ⟨-, hk⟩)
        · exact ⟨Ne.symm hky, .inl rfl⟩
        · exact ⟨fun heq => hg (heq ▸ hk), .inr hk⟩
      · rintro ⟨-, rfl | hk⟩
        · exact .inl rfl
        · by_cases hy : k = key y
          · exact .inl hy
          · exact .inr ⟨hy, hk⟩

/-- In a grouped list each group begins once. -/
theorem Grouped.openings (h : Grouped key l) :
    (openings key none l).Nodup ∧ ∀ k, k ∈ SyslogNg.openings key none l ↔ k ∈ l.map key := by
  cases l with
  | nil => simp [SyslogNg.openings]
  | cons x l =>
    obtain ⟨hn, hm⟩ := h.openings_cons
    rw [SyslogNg.openings, if_neg (by simp)]
    refine ⟨nodup_cons.mpr ⟨fun hx => ((hm _).mp hx).1 rfl, hn⟩, fun k => ?_⟩
    rw [mem_cons, hm, map_cons, mem_cons]
    tauto

end Openings

end SyslogNg
