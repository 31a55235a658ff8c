import SyslogNg.ValuePairs.Walk

/-!
# How names are split

Between two dots the walker finds the token that stands there, unless a dot is taken for a part of
an enterprise id.
-/
namespace SyslogNg.ValuePairs

open Separated List

variable {inId : Bool} {t u token rest : Bytes} {tokens : List Bytes}

/-- Whether an enterprise id is being read behind this text. -/
def idMode : Bool → Bytes → Bool
  | inId, [] => inId
  | inId, b :: rest => idMode (b = 0x40 || (inId && isDigit b)) rest

theorem idMode_append (inId : Bool) (a b : Bytes) :
    idMode inId (a ++ b) = idMode (idMode inId a) b := by
  induction a generalizing inId with
  | nil => rfl
  | cons c a ih => exact ih _

theorem idMode_true_of_digits {d : Bytes} (h : d.all isDigit = true) : idMode true d = true := by
  induction d with
  | nil => rfl
  | cons b d ih =>
    rw [all_cons, Bool.and_eq_true] at h
    rw [idMode, h.1, Bool.and_true, Bool.or_true]
    exact ih h.2

theorem endsInId_iff : idMode false t = true ↔ EndsInId t := by
  constructor
  · intro h
    induction t using List.reverseRecOn with
    | nil => cases h
    | append_singleton t b ih =>
      rw [idMode_append] at h
      simp only [idMode, Bool.or_eq_true, decide_eq_true_eq, Bool.and_eq_true] at h
      rcases h with rfl | ⟨hid, hdg⟩
      · exact ⟨t, [], rfl, rfl⟩
      · obtain ⟨a, d, rfl, hd⟩ := ih hid
        refine ⟨a, d ++ [b], by simp, ?_⟩
        rw [all_append, hd, all_cons, hdg]
        rfl
  · rintro ⟨a, d, rfl, hd⟩
    rw [idMode_append, idMode, decide_eq_true rfl]
    exact idMode_true_of_digits hd

theorem splitTokens_append (inId : Bool) (token rest : Bytes) (ht : 0x2e ∉ t) :
    splitTokens inId token (t ++ rest) = splitTokens (idMode inId t) (token ++ t) rest := by
  induction t generalizing inId token with
  | nil => simp [idMode]
  | cons b t ih =>
    rw [mem_cons, not_or] at ht
    have hdt : ¬b = 0x2e := fun h => ht.1 h.symm
    rw [cons_append, splitTokens, idMode]
    split_ifs with hat hd
    · rw [ih _ _ ht.2]
      simp [hat]
    · rw [ih _ _ ht.2]
      simp [hd]
    · rw [ih _ _ ht.2]
      simp [hat, Bool.eq_false_iff.mpr hd]

theorem splitTokens_dot : splitTokens inId token (0x2e :: rest) =
    if inId && rest.head?.any isDigit then splitTokens true (token ++ [0x2e]) rest
    else token :: splitTokens false [] rest := by
  have hd : isDigit 0x2e = false := rfl
  rw [splitTokens, if_neg (by decide), hd, Bool.and_false, if_neg (by decide), if_pos rfl]

theorem splitTokens_nil (h : token ≠ []) : splitTokens inId token [] = [token] := if_neg h

/-- The next token is begun with what was begun. -/
theorem head_splitTokens (inId : Bool) (token rest : Bytes) (hne : token ++ rest ≠ []) :
    ∃ x xs, splitTokens inId token rest = (token ++ x) :: xs := by
  induction rest generalizing inId token with
  | nil =>
    rw [append_nil] at hne
    exact ⟨[], [], by rw [splitTokens_nil hne, append_nil]⟩
  | cons b rest ih =>
    have hg : ∀ inId', ∃ x xs, splitTokens inId' (token ++ [b]) rest = (token ++ x) :: xs := by
      intro inId'
      obtain ⟨x, xs, heq⟩ := ih inId' (token ++ [b]) (by simp)
      exact ⟨b :: x, xs, by rw [heq]; simp⟩
    rw [splitTokens]
    split_ifs
    · exact hg true
    · exact hg true
    · exact hg true
    · exact ⟨[], _, by rw [append_nil]⟩
    · exact hg false

/-- Splitting loses nothing of a text that does not end with a dot. -/
theorem join_splitTokens (hne : token ++ rest ≠ []) (he : rest.getLast? ≠ some 0x2e) :
    join 0x2e (splitTokens inId token rest) = token ++ rest := by
  induction rest generalizing inId token with
  | nil =>
    rw [append_nil] at hne ⊢
    rw [splitTokens_nil hne, join_singleton]
  | cons b rest ih =>
    have he' : rest.getLast? ≠ some 0x2e := by
      cases rest with
      | nil => simp
      | cons c rest => rwa [List.getLast?_cons_cons] at he
    have hg : ∀ inId', join 0x2e (splitTokens inId' (token ++ [b]) rest) = token ++ b :: rest := by
      intro inId'
      rw [ih (by simp) he', append_assoc, singleton_append]
    rw [splitTokens]
    split_ifs with hat hd hdt
    · exact hg true
    · exact hg true
    · exact hg true
    · have hr : rest ≠ [] := by
        rintro rfl
        exact he (by rw [hdt]; rfl)
      obtain ⟨x, xs, heq⟩ := head_splitTokens false [] rest hr
      have hb : join 0x2e (splitTokens false [] rest) = rest := ih (by simpa using hr) he'
      rw [join_cons token (by rw [heq]; simp), hb, hdt]
    · exact hg false

/-! ### Names -/

/-- Each dot of the name is a separator. -/
def Separates (tokens : List Bytes) : Prop := tokens.IsChain fun t u => ¬Swallowed t u

theorem head?_join (hu : u ≠ []) : (join 0x2e (u :: tokens)).head? = u.head? := by
  cases tokens with
  | nil => rfl
  | cons v tokens =>
    exact List.head?_append_of_ne_nil _ hu

theorem join_ne_nil (hu : u ≠ []) : join 0x2e (u :: tokens) ≠ [] := by
  cases tokens with
  | nil => exact hu
  | cons v tokens => simp [join]

section Join

theorem splitTokens_join_cons (ht : 0x2e ∉ t) (hu : u ≠ []) :
    splitTokens false [] (join 0x2e (t :: u :: tokens)) =
      if idMode false t && u.head?.any isDigit then
        splitTokens true (t ++ [0x2e]) (join 0x2e (u :: tokens))
      else t :: splitTokens false [] (join 0x2e (u :: tokens)) := by
  rw [join_cons t (by simp), splitTokens_append _ _ _ ht, splitTokens_dot, head?_join hu]
  rfl

theorem splitTokens_join_singleton (ht : 0x2e ∉ t) (hne : t ≠ []) :
    splitTokens false [] (join 0x2e [t]) = [t] := by
  have h := splitTokens_append false [] [] ht
  rw [append_nil, nil_append, splitTokens_nil hne] at h
  exact h

theorem swallowed_iff : (idMode false t && u.head?.any isDigit) = true ↔ Swallowed t u := by
  rw [Bool.and_eq_true, endsInId_iff, Swallowed]

theorem splitNameToTokens_join (hne : tokens ≠ []) (hf : Free 0x2e tokens)
    (hn : ∀ t ∈ tokens, t ≠ []) :
    splitNameToTokens (join 0x2e tokens) = tokens ↔ Separates tokens := by
  unfold splitNameToTokens Separates
  induction tokens with
  | nil => exact absurd rfl hne
  | cons t tokens ih =>
    have ht := hf.head
    have htn := hn t (mem_cons_self ..)
    cases tokens with
    | nil => simp only [splitTokens_join_singleton ht htn, isChain_singleton]
    | cons u tokens =>
      have hu := hn u (by simp)
      rw [splitTokens_join_cons ht hu, isChain_cons_cons, ← swallowed_iff]
      split_ifs with hs
      · -- the first token has a dot in it
        refine ⟨fun heq => ?_, fun h => absurd hs h.1⟩
        obtain ⟨x, xs, hh⟩ := head_splitTokens true (t ++ [0x2e]) (join 0x2e (u :: tokens))
          (by simp)
        rw [hh] at heq
        have hl := congrArg List.length (List.cons.inj heq).1
        simp at hl
      · rw [List.cons.injEq, ih (by simp) hf.tail fun v hv => hn v (by simp [hv])]
        exact ⟨fun h => ⟨hs, h.2⟩, fun h => ⟨rfl, h.2⟩⟩

/-- If the last dot is the first one that is swallowed, it is in the last token. -/
theorem dot_mem_getLast {last : Bytes} {a : List Bytes} (hne : a ≠ [])
    (hf : Free 0x2e (a ++ [last])) (hn : ∀ t ∈ a ++ [last], t ≠ [])
    (hsp : Separates a) (hsw : ∀ t ∈ a.getLast?, Swallowed t last) :
    0x2e ∈ (splitNameToTokens (join 0x2e (a ++ [last]))).getLastD [] := by
  unfold splitNameToTokens
  induction a with
  | nil => exact absurd rfl hne
  | cons t a ih =>
    have ht : 0x2e ∉ t := hf.head
    have hls : 0x2e ∉ last := hf last (by simp)
    have hl : last ≠ [] := hn last (by simp)
    cases a with
    | nil =>
      have hs := swallowed_iff.mpr (hsw t rfl)
      have he := splitTokens_append true (t ++ [0x2e]) [] hls
      rw [append_nil, splitTokens_nil (by simp)] at he
      rw [singleton_append, splitTokens_join_cons ht hl, if_pos hs, join_singleton, he]
      simp
    | cons u a =>
      have hu : u ≠ [] := hn u (by simp)
      rw [Separates, isChain_cons_cons] at hsp
      have hnt : ¬(idMode false t && u.head?.any isDigit) = true := by
        rw [swallowed_iff]
        exact hsp.1
      have hr := ih (by simp) hf.tail (fun v hv => hn v (mem_cons_of_mem _ hv))
        hsp.2 (by rwa [List.getLast?_cons_cons] at hsw)
      rw [cons_append, cons_append, splitTokens_join_cons ht hu, if_neg hnt]
      rw [cons_append] at hr
      obtain ⟨x, xs, heq⟩ := head_splitTokens false [] (join 0x2e (u :: (a ++ [last])))
        (join_ne_nil hu)
      rw [heq] at hr ⊢
      exact hr

end Join

end SyslogNg.ValuePairs
