import Mathlib.Tactic

/-!
# Streams of frames

A format says which sequences of symbols are frames, and of which message. A stream is decoded
from its start, frame by frame; if no frame is the start of another one, there is one way to do it.
-/
namespace SyslogNg.Framing

open List

variable {α β : Type*} {F : List α → β → Prop}

/-- A frame tells where it ends, and has one message. -/
def PrefixFree (F : List α → β → Prop) : Prop :=
  ∀ ⦃f m f' m' c c'⦄, F f m → F f' m' → f ++ c = f' ++ c' → f = f' ∧ m = m'

/-- The stream starts with the frames of the messages, and the rest follows. -/
inductive Decodes (F : List α → β → Prop) : List α → List β → List α → Prop
  | nil {rest} : Decodes F rest [] rest
  | cons {f m s ms rest} (hf : F f m) (h : Decodes F s ms rest) : Decodes F (f ++ s) (m :: ms) rest

def StartsFrame (F : List α → β → Prop) (s : List α) : Prop := ∃ f m, F f m ∧ f <+: s

/-- No continuation of the stream starts with a frame. -/
def Undecodable (F : List α → β → Prop) (s : List α) : Prop := ∀ c, ¬StartsFrame F (s ++ c)

theorem StartsFrame.append {s : List α} (h : StartsFrame F s) (c : List α) :
    StartsFrame F (s ++ c) := by
  obtain ⟨f, m, hf, hs⟩ := h
  exact ⟨f, m, hf, hs.trans (prefix_append s c)⟩

theorem Undecodable.not_startsFrame {s : List α} (h : Undecodable F s) : ¬StartsFrame F s :=
  fun hs => h [] (hs.append [])

namespace Decodes

variable {s rest : List α} {ms : List β}

theorem append (h : Decodes F s ms rest) (c : List α) : Decodes F (s ++ c) ms (rest ++ c) := by
  induction h with
  | nil => exact .nil
  | cons hf _ ih =>
    rw [append_assoc]
    exact .cons hf ih

theorem trans {rest' : List α} {more : List β} (h : Decodes F s ms rest)
    (h' : Decodes F rest more rest') : Decodes F s (ms ++ more) rest' := by
  induction h with
  | nil => exact h'
  | cons hf _ ih => exact .cons hf (ih h')

theorem snoc {f : List α} {m : β} (h : Decodes F s ms (f ++ rest)) (hf : F f m) :
    Decodes F s (ms ++ [m]) rest :=
  h.trans (.cons hf .nil)

theorem suffix (h : Decodes F s ms rest) : rest <:+ s := by
  induction h with
  | nil => exact suffix_rfl
  | cons _ _ ih => exact ih.trans (suffix_append _ _)

theorem split (h : Decodes F s ms rest) : ∃ done, s = done ++ rest ∧ Decodes F done ms [] := by
  induction h with
  | nil => exact ⟨[], rfl, .nil⟩
  | @cons f _ _ _ _ hf _ ih =>
    obtain ⟨done, rfl, hd⟩ := ih
    exact ⟨f ++ done, (append_assoc _ _ _).symm, .cons hf hd⟩

/-- A decoding that stopped early can be continued to the one that ends where no frame starts. -/
theorem continues (hF : PrefixFree F) {ms' : List β} {rest' : List α} (h : Decodes F s ms rest)
    (h' : Decodes F s ms' rest') (he : ¬StartsFrame F rest') :
    ∃ more, ms' = ms ++ more ∧ Decodes F rest more rest' := by
  induction h generalizing ms' with
  | nil => exact ⟨ms', rfl, h'⟩
  | @cons f m s ms rest hf _ ih =>
    generalize hs : f ++ s = stream at h'
    cases h' with
    | nil => exact absurd ⟨f, m, hf, s, hs⟩ he
    | cons hf' h' =>
      obtain ⟨rfl, rfl⟩ := hF hf hf' hs
      obtain rfl := append_cancel_left hs
      obtain ⟨more, rfl, hm⟩ := ih h'
      exact ⟨more, rfl, hm⟩

theorem rest_unique (hF : PrefixFree F) {rest' : List α} (h : Decodes F s ms rest)
    (h' : Decodes F s ms rest') : rest = rest' := by
  induction h with
  | nil =>
    cases h'
    rfl
  | @cons f m s ms rest hf _ ih =>
    generalize hs : f ++ s = stream at h'
    cases h' with
    | cons hf' h' =>
      obtain ⟨rfl, -⟩ := hF hf hf' hs
      obtain rfl := append_cancel_left hs
      exact ih h'

theorem eq_nil (h : Decodes F s ms rest) (hs : ¬StartsFrame F s) : ms = [] := by
  cases h with
  | nil => rfl
  | cons hf _ => exact absurd ⟨_, _, hf, prefix_append _ _⟩ hs

end Decodes

/-- Every stream can be decoded up to where no frame starts. -/
theorem exists_decoding (hne : ∀ {f m}, F f m → f ≠ []) (s : List α) :
    ∃ ms rest, Decodes F s ms rest ∧ ¬StartsFrame F rest := by
  induction hn : s.length using Nat.strong_induction_on generalizing s with
  | _ n ih =>
    by_cases hs : StartsFrame F s
    · obtain ⟨f, m, hf, rest, rfl⟩ := hs
      have hp : 0 < f.length := length_pos_iff.mpr (hne hf)
      have hlt : rest.length < n := by
        rw [← hn, length_append]
        omega
      obtain ⟨ms, last, h, he⟩ := ih rest.length hlt rest rfl
      exact ⟨m :: ms, last, .cons hf h, he⟩
    · exact ⟨[], s, .nil, hs⟩

end SyslogNg.Framing
