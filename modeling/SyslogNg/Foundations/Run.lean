import Mathlib.Tactic

/-!
# Runs of a labelled system

States, labels and a step relation. Safety is proved once per step and lifted to
every reachable state; `restrict` keeps only the steps that meet a condition on
the state before them.
-/
namespace SyslogNg

structure System (S A : Type*) where
  init : S → Prop
  step : S → A → S → Prop

namespace System

variable {S A : Type*} (M : System S A)

inductive Reachable : S → Prop
  | init {s} : M.init s → Reachable s
  | step {s a s'} : Reachable s → M.step s a s' → Reachable s'

/-- A run from a state, with its labels in order. -/
inductive Run : S → List A → S → Prop
  | nil {s} : Run s [] s
  | snoc {s as s' a s''} : Run s as s' → M.step s' a s'' → Run s (as ++ [a]) s''

/-- Only the steps whose label is allowed in the state before it. -/
def restrict (ok : S → A → Prop) : System S A where
  init := M.init
  step s a s' := ok s a ∧ M.step s a s'

variable {M}

theorem Reachable.invariant {I : S → Prop} (h0 : ∀ s, M.init s → I s)
    (hst : ∀ s a s', I s → M.step s a s' → I s') {s : S} (h : M.Reachable s) : I s := by
  induction h with
  | init hs => exact h0 _ hs
  | step _ hs ih => exact hst _ _ _ ih hs

variable {ok : S → A → Prop}

theorem Reachable.of_restrict {s : S} (h : (M.restrict ok).Reachable s) : M.Reachable s := by
  induction h with
  | init hs => exact .init hs
  | step _ hs ih => exact ih.step hs.2

theorem Reachable.mono {ok ok' : S → A → Prop} (hi : ∀ {s a}, ok s a → ok' s a) {s : S}
    (h : (M.restrict ok).Reachable s) : (M.restrict ok').Reachable s := by
  induction h with
  | init hs => exact .init hs
  | step _ hs ih => exact ih.step ⟨hi hs.1, hs.2⟩

theorem Run.invariant {I : S → Prop} (hst : ∀ s a s', I s → M.step s a s' → I s')
    {s s' : S} {as : List A} (h : M.Run s as s') (h0 : I s) : I s' := by
  induction h with
  | nil => exact h0
  | snoc _ hs ih => exact hst _ _ _ ih hs

variable {as : List A} {s s' : S}

theorem Reachable.trans_run (h : M.Reachable s) (hr : M.Run s as s') : M.Reachable s' := by
  induction hr with
  | nil => exact h
  | snoc _ hs ih => exact ih.step hs

theorem Run.restrict (hr : M.Run s as s')
    (hok : ∀ s, ∀ a ∈ as, ok s a) : (M.restrict ok).Run s as s' := by
  induction hr with
  | nil => exact .nil
  | snoc _ hs ih =>
    refine .snoc (ih fun s a ha => hok s a (List.mem_append_left _ ha)) ⟨hok _ _ ?_, hs⟩
    exact List.mem_append_right _ (List.mem_singleton_self _)

theorem Run.of_restrict (h : (M.restrict ok).Run s as s') : M.Run s as s' := by
  induction h with
  | nil => exact .nil
  | snoc _ hs ih => exact ih.snoc hs.2

/-- If one step keeps `P` exactly when it meets `ok`, then so does a whole run. -/
theorem Run.restrict_iff {I P : S → Prop} (hst : ∀ s a s', I s → M.step s a s' → I s')
    (hi : ∀ s a s', I s → M.step s a s' → (P s' ↔ P s ∧ ok s a))
    (h : M.Run s as s') (h0 : I s) (hP : P s) : P s' ↔ (M.restrict ok).Run s as s' := by
  constructor
  · intro hP'
    induction h with
    | nil => exact .nil
    | snoc hr hs ih =>
      obtain ⟨hPm, hok⟩ := (hi _ _ _ (hr.invariant hst h0) hs).mp hP'
      exact (ih hPm).snoc ⟨hok, hs⟩
  · intro hr
    clear h
    induction hr with
    | nil => exact hP
    | snoc hr hs ih =>
      exact (hi _ _ _ (hr.of_restrict.invariant hst h0) hs.2).mpr ⟨ih, hs.1⟩

theorem Run.cons {s s' s'' : S} {a : A} (hs : M.step s a s') (hr : M.Run s' as s'') :
    M.Run s (a :: as) s'' := by
  induction hr with
  | nil => exact Run.snoc .nil hs
  | snoc _ hs' ih => exact Run.snoc ih hs'

/-- Runs of an executable step function. -/
theorem Run.of_foldlM {next : S → A → Option S}
    (hn : ∀ s a s', next s a = some s' → M.step s a s') :
    ∀ {as : List A} {s s' : S}, as.foldlM next s = some s' → M.Run s as s' := by
  intro as
  induction as with
  | nil =>
    intro s s' h
    cases h
    exact .nil
  | cons a as ih =>
    intro s s' h
    obtain ⟨s₁, hs₁, hr⟩ := Option.bind_eq_some_iff.mp h
    exact Run.cons (hn _ _ _ hs₁) (ih hr)

theorem Run.of_foldl {apply : S → A → S} (hs : ∀ s a, M.step s a (apply s a)) (s : S)
    (as : List A) : M.Run s as (as.foldl apply s) := by
  induction as generalizing s with
  | nil => exact .nil
  | cons a as ih => exact .cons (hs s a) (ih (apply s a))

end System

/-! ### Steps that are functions -/

section Along

variable {S A : Type*} {apply : S → A → S} {ok : S → A → Prop}

/-- Every step of the run meets the condition in the state before it. -/
def Along (apply : S → A → S) (ok : S → A → Prop) : S → List A → Prop
  | _, [] => True
  | s, a :: as => ok s a ∧ Along apply ok (apply s a) as

instance [∀ s a, Decidable (ok s a)] : (s : S) → (as : List A) → Decidable (Along apply ok s as)
  | _, [] => .isTrue trivial
  | s, a :: as =>
    have : Decidable (Along apply ok (apply s a) as) := instDecidableAlong (apply s a) as
    inferInstanceAs (Decidable (ok s a ∧ Along apply ok (apply s a) as))

theorem along_append {s : S} {as bs : List A} : Along apply ok s (as ++ bs) ↔
    Along apply ok s as ∧ Along apply ok (as.foldl apply s) bs := by
  induction as generalizing s with
  | nil => simp [Along]
  | cons a as ih => simp [Along, ih, and_assoc]

theorem Along.imp {ok' : S → A → Prop} (hi : ∀ s a, ok s a → ok' s a) {s : S} {as : List A}
    (h : Along apply ok s as) : Along apply ok' s as := by
  induction as generalizing s with
  | nil => trivial
  | cons a as ih => exact ⟨hi s a h.1, ih h.2⟩

theorem Along.run {M : System S A} (hs : ∀ s a, ok s a → M.step s a (apply s a)) {s : S}
    {as : List A} (h : Along apply ok s as) : M.Run s as (as.foldl apply s) := by
  induction as generalizing s with
  | nil => exact .nil
  | cons a as ih => exact .cons (hs s a h.1) (ih h.2)

theorem Along.reachable {M : System S A} (hs : ∀ s a, M.step s a (apply s a)) {s : S}
    {as : List A} (h : Along apply ok s as) (h0 : (M.restrict ok).Reachable s) :
    (M.restrict ok).Reachable (as.foldl apply s) :=
  h0.trans_run (h.run (M := M.restrict ok) fun s a hok => ⟨hok, hs s a⟩)

end Along

end SyslogNg
