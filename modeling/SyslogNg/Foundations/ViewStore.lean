import Mathlib.Tactic

/-!
# Stores with views

A key either owns a value or is a view: a function of the value another key owns.
Reading goes through one view at most, so a store makes sense when every view is of
an owner (`Flat`). Writing to a key is invisible to the others when no view is of it;
a view can be replaced by the value it shows at any time.
-/
namespace SyslogNg.ViewStore

open Function

inductive Cell (K V : Type*)
  | own (v : V)
  | view (k : K) (f : V → V)

variable {K V : Type*}

def read (d : V) (s : K → Option (Cell K V)) (k : K) : V :=
  match s k with
  | none => d
  | some (.own v) => v
  | some (.view k' f) =>
    match s k' with
    | some (.own v) => f v
    | _ => f d

def Flat (s : K → Option (Cell K V)) : Prop :=
  ∀ k k' f, s k = some (.view k' f) → ∃ v, s k' = some (.own v)

def Unviewed (s : K → Option (Cell K V)) (k : K) : Prop :=
  ∀ j f, s j ≠ some (.view k f)

variable {d : V} {s : K → Option (Cell K V)} {k k' : K} {f : V → V} {v : V}

theorem read_none (h : s k = none) : read d s k = d := by
  simp [read, h]

theorem read_own (h : s k = some (.own v)) : read d s k = v := by
  simp [read, h]

theorem read_view (h : s k = some (.view k' f)) (h' : s k' = some (.own v)) : read d s k = f v := by
  simp [read, h, h']

theorem Flat.unviewed_of_view (hf : Flat s) (h : s k = some (.view k' f)) : Unviewed s k := by
  intro j g hj
  obtain ⟨v, hv⟩ := hf j k g hj
  rw [h] at hv
  cases hv

theorem Flat.unviewed_of_none (hf : Flat s) (h : s k = none) : Unviewed s k := by
  intro j g hj
  obtain ⟨v, hv⟩ := hf j k g hj
  rw [h] at hv
  cases hv

variable [DecidableEq K]

/-- Writing to a key changes what is read at another one only through a view of it. -/
theorem read_update_of_ne {c : Cell K V} (hu : Unviewed s k) {j : K} (hj : j ≠ k) :
    read d (update s k (some c)) j = read d s j := by
  unfold read
  rw [update_of_ne hj]
  cases hs : s j with
  | none => rfl
  | some cell =>
    cases cell with
    | own v => rfl
    | view k' f =>
      have hne : k' ≠ k := by
        rintro rfl
        exact hu j f hs
      simp [update_of_ne hne]

theorem read_update_own (hu : Unviewed s k) :
    read d (update s k (some (.own v))) = update (read d s) k v := by
  funext j
  by_cases hj : j = k
  · subst hj
    simp [read]
  · rw [read_update_of_ne hu hj, update_of_ne hj]

theorem read_update_view (hu : Unviewed s k) (h' : s k' = some (.own v)) (hne : k' ≠ k) :
    read d (update s k (some (.view k' f))) = update (read d s) k (f v) := by
  funext j
  by_cases hj : j = k
  · subst hj
    simp [read, hne, h']
  · rw [read_update_of_ne hu hj, update_of_ne hj]

end SyslogNg.ViewStore
