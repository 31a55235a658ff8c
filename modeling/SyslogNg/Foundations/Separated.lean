import Mathlib.Tactic

/-!
# Texts that are joined from tokens

Tokens without the separator in them are determined by the joined text, and one text begins with
another and a separator exactly if its tokens begin with the other's. In the lexicographic order,
texts with a common beginning are neighbours.
-/
namespace SyslogNg.Separated

open List

variable {α : Type*} {sep : α}

def join (sep : α) : List (List α) → List α
  | [] => []
  | [t] => t
  | t :: u :: rest => t ++ sep :: join sep (u :: rest)

@[simp] theorem join_nil : join sep [] = [] := rfl

@[simp] theorem join_singleton (t : List α) : join sep [t] = t := rfl

theorem join_cons (t : List α) {rest : List (List α)} (h : rest ≠ []) :
    join sep (t :: rest) = t ++ sep :: join sep rest := by
  cases rest with
  | nil => exact absurd rfl h
  | cons u rest => rfl

variable {a b : List (List α)}

theorem join_append (ha : a ≠ []) (hb : b ≠ []) :
    join sep (a ++ b) = join sep a ++ sep :: join sep b := by
  induction a with
  | nil => exact absurd rfl ha
  | cons t a ih =>
    cases a with
    | nil => rw [singleton_append, join_cons t hb, join_singleton]
    | cons u a =>
      rw [cons_append, join_cons t (by simp), ih (by simp), join_cons t (by simp),
        append_assoc, cons_append]

theorem eq_of_append_sep_eq {a b x y : List α} (ha : sep ∉ a) (hb : sep ∉ b)
    (h : a ++ sep :: x = b ++ sep :: y) : a = b ∧ x = y := by
  induction a generalizing b with
  | nil =>
    cases b with
    | nil => exact ⟨rfl, (List.cons.inj h).2⟩
    | cons c b =>
      have hc : sep = c := (List.cons.inj h).1
      exact absurd (hc ▸ mem_cons_self ..) hb
  | cons d a ih =>
    cases b with
    | nil =>
      have hd : d = sep := (List.cons.inj h).1
      exact absurd (hd ▸ mem_cons_self ..) ha
    | cons c b =>
      obtain ⟨hh, ht⟩ := List.cons.inj h
      obtain ⟨rfl, hxy⟩ := ih (fun hm => ha (mem_cons_of_mem _ hm))
        (fun hm => hb (mem_cons_of_mem _ hm)) ht
      exact ⟨by rw [hh], hxy⟩

def Free (sep : α) (tokens : List (List α)) : Prop := ∀ t ∈ tokens, sep ∉ t

variable {tokens : List (List α)}

theorem Free.head {t : List α} (h : Free sep (t :: tokens)) : sep ∉ t :=
  h t (mem_cons_self ..)

theorem Free.tail {t : List α} (h : Free sep (t :: tokens)) :
    Free sep tokens := fun u hu => h u (mem_cons_of_mem _ hu)

theorem Free.of_append_left (h : Free sep (a ++ b)) : Free sep a :=
  fun t ht => h t (mem_append_left _ ht)

/-- A text that begins with the tokens of another and a separator. -/
theorem append_of_join_eq {a tokens : List (List α)} {rest : List α} (hne : a ≠ [])
    (ha : Free sep a) (ht : Free sep tokens) (h : join sep tokens = join sep a ++ sep :: rest) :
    ∃ b, b ≠ [] ∧ tokens = a ++ b ∧ join sep b = rest := by
  induction a generalizing tokens with
  | nil => exact absurd rfl hne
  | cons t a ih =>
    cases tokens with
    | nil => simp at h
    | cons u tokens =>
      -- the text behind the first token of `a`
      obtain ⟨behind, hbh⟩ : ∃ behind, join sep (t :: a) ++ sep :: rest = t ++ sep :: behind ∧
          (a = [] → behind = rest) ∧ (a ≠ [] → behind = join sep a ++ sep :: rest) := by
        by_cases hn : a = []
        · subst hn
          exact ⟨rest, rfl, fun _ => rfl, fun h => absurd rfl h⟩
        · exact ⟨join sep a ++ sep :: rest, by rw [join_cons t hn, append_assoc, cons_append],
            fun h => absurd h hn, fun _ => rfl⟩
      rw [hbh.1] at h
      by_cases hl : tokens = []
      · subst hl
        rw [join_singleton] at h
        exact absurd (h ▸ by simp) ht.head
      · rw [join_cons u hl] at h
        obtain ⟨rfl, hr⟩ := eq_of_append_sep_eq ht.head ha.head h
        by_cases hn : a = []
        · subst hn
          exact ⟨tokens, hl, rfl, hr.trans (hbh.2.1 rfl)⟩
        · obtain ⟨b, hb, rfl, hj⟩ := ih hn ha.tail ht.tail
            (hr.trans (hbh.2.2 hn))
          exact ⟨b, hb, rfl, hj⟩

theorem join_inj (han : a ≠ []) (hbn : b ≠ []) (ha : Free sep a)
    (hb : Free sep b) (h : join sep a = join sep b) : a = b := by
  -- one more token makes the texts comparable
  have hj : join sep (a ++ [[]]) = join sep b ++ sep :: [] := by
    rw [join_append han (by simp), h, join_singleton]
  have hf : Free sep (a ++ [[]]) := by
    intro t ht
    rcases mem_append.mp ht with ht | ht
    · exact ha t ht
    · simp [mem_singleton.mp ht]
  obtain ⟨c, hc, heq, he⟩ := append_of_join_eq hbn hb hf hj
  have hl : c = [[]] := by
    cases c with
    | nil => exact absurd rfl hc
    | cons t c =>
      cases c with
      | nil => rw [join_singleton] at he; rw [he]
      | cons u c => simp [join] at he
  rw [hl] at heq
  exact append_cancel_right heq

/-- Separators stand between the tokens and in them. -/
theorem count_join [DecidableEq α] (hne : tokens ≠ []) :
    (join sep tokens).count sep + 1 = tokens.length + (tokens.map (List.count sep)).sum := by
  induction tokens with
  | nil => exact absurd rfl hne
  | cons t tokens ih =>
    by_cases hl : tokens = []
    · subst hl
      simp [add_comm]
    · rw [join_cons t hl, count_append, count_cons_self, length_cons, map_cons, sum_cons]
      have := ih hl
      omega

theorem count_join_of_free [DecidableEq α] (hne : tokens ≠ [])
    (h : Free sep tokens) : (join sep tokens).count sep + 1 = tokens.length := by
  rw [count_join hne, Nat.add_eq_left, sum_eq_zero_iff]
  intro n hn
  obtain ⟨t, ht, rfl⟩ := List.mem_map.mp hn
  exact count_eq_zero.mpr (h t ht)

/-- Two ways to split a text: if one has no separators left and both have equally many tokens,
then they are the same. -/
theorem eq_of_join_eq_of_length [DecidableEq α] (ha : a ≠ [])
    (hb : Free sep b) (h : join sep a = join sep b) (hl : a.length = b.length) : a = b := by
  have hbn : b ≠ [] := by
    rintro rfl
    exact ha (eq_nil_of_length_eq_zero hl)
  have hc : (join sep a).count sep + 1 = a.length + (a.map (List.count sep)).sum :=
    count_join ha
  rw [h, count_join_of_free hbn hb, hl, Nat.left_eq_add, sum_eq_zero_iff] at hc
  refine join_inj ha hbn (fun t ht => ?_) hb h
  exact count_eq_zero.mp (hc _ (List.mem_map_of_mem ht))

/-! ### Order -/

section Order

variable [LT α] {common a b x : List α}

theorem append_lt (h : a < b) : common ++ a < common ++ b := by
  induction common with
  | nil => exact h
  | cons c common ih =>
    rw [cons_append, cons_append, cons_lt_cons_iff]
    exact .inr ⟨rfl, ih⟩

variable [Std.Asymm fun a b : α => a < b]

theorem lt_of_append_lt (h : common ++ a < common ++ b) : a < b := by
  induction common with
  | nil => exact h
  | cons c common ih =>
    rw [cons_append, cons_append, cons_lt_cons_iff] at h
    rcases h with h | h
    · exact absurd h (Std.Irrefl.irrefl c)
    · exact ih h.2

variable [Std.Trichotomous fun a b : α => a < b]

/-- What lies between two texts with a common beginning has this beginning. -/
theorem common_of_between (ha : common <+: a) (hb : common <+: b) (hbx : b ≤ x) (hxa : x ≤ a) :
    common <+: x := by
  induction common generalizing a b x with
  | nil => exact nil_prefix
  | cons c common ih =>
    obtain ⟨a', rfl⟩ := ha
    obtain ⟨b', rfl⟩ := hb
    cases x with
    | nil => simp at hbx
    | cons d x =>
      rw [cons_append, cons_le_cons_iff] at hbx hxa
      rcases hbx with hlt | ⟨rfl, hbx⟩
      · rcases hxa with hlt' | ⟨rfl, -⟩
        · exact absurd hlt' (Std.Asymm.asymm _ _ hlt)
        · exact absurd hlt (Std.Irrefl.irrefl d)
      · rcases hxa with hlt' | ⟨-, hxa⟩
        · exact absurd hlt' (Std.Irrefl.irrefl c)
        · exact cons_prefix_cons.mpr
            ⟨rfl, ih (prefix_append ..) (prefix_append ..) hbx hxa⟩

end Order

end SyslogNg.Separated
