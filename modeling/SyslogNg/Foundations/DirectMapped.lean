import Mathlib.Tactic

/-!
# Direct-mapped caches without a validity flag

Each key has one slot of the cache. A slot holds the last key that was converted for it and the
answer, and a slot that was never used looks as if it held a key, too. The answer is put into a
buffer of the caller; a conversion that fails leaves the buffer as it is.
-/
namespace SyslogNg.DirectMapped

open Function

structure Slot (K V : Type*) where
  key : K
  value : V

variable {ι K V : Type*} [DecidableEq ι] [DecidableEq K]
variable (index : K → ι) (convert : K → Option V) (cache : ι → Slot K V) (k : K) (buffer : V)

def answer : V := (convert k).getD buffer

def find : V :=
  if k = (cache (index k)).key then (cache (index k)).value else answer convert k buffer

def fill : ι → Slot K V :=
  if k = (cache (index k)).key then cache
  else update cache (index k) ⟨k, answer convert k buffer⟩

/-- Each slot is unused, or has the answer for its key if there is one. -/
def Valid (unused : Slot K V) : Prop :=
  ∀ i, cache i = unused ∨ ∀ v, convert (cache i).key = some v → (cache i).value = v

/-- A lookup that finds its key finds it in a slot that was used, with an answer that is not left
from a conversion that failed. -/
def Fresh (unused : Slot K V) : Prop :=
  k = (cache (index k)).key → cache (index k) ≠ unused ∧
    ((convert k).isSome = true ∨ (cache (index k)).value = buffer)

variable {index convert cache k buffer} {unused : Slot K V}

omit [DecidableEq ι] [DecidableEq K] in
theorem valid_unused : Valid convert (fun _ : ι => unused) unused := fun _ => .inl rfl

theorem Valid.fill (h : Valid convert cache unused) :
    Valid convert (fill index convert cache k buffer) unused := by
  unfold DirectMapped.fill
  split_ifs with hk
  · exact h
  · intro i
    by_cases hi : i = index k
    · subst hi
      right
      intro v hv
      rw [update_self] at hv ⊢
      rw [answer, hv]
      rfl
    · rw [update_of_ne hi]
      exact h i

omit [DecidableEq ι]

/-- Whether a part of the buffer is the same with the cache: a slot that was never used has to
have the right part by chance. -/
theorem Valid.map_find_eq_iff {β : Type*} (f : V → β) (h : Valid convert cache unused) :
    f (find index convert cache k buffer) = f (answer convert k buffer) ↔
      (k = (cache (index k)).key →
        (cache (index k) = unused → f unused.value = f (answer convert k buffer)) ∧
        (cache (index k) ≠ unused →
          (convert k).isSome = true ∨ f (cache (index k)).value = f buffer)) := by
  by_cases hk : k = (cache (index k)).key
  · rw [find, if_pos hk, forall_prop_of_true hk]
    by_cases hs : cache (index k) = unused
    · simp [hs]
    · cases hc : convert k with
      | none => simp [answer, hc, hs]
      | some v =>
        have hv := (h (index k)).resolve_left hs v (by rw [← hk, hc])
        simp [answer, hc, hs, hv]
  · simp [find, hk]

/-- The cache makes no difference exactly for fresh lookups, if unused slots cannot be mistaken for
an answer. -/
theorem Valid.find_eq_iff (h : Valid convert cache unused)
    (hu : ∃ v, convert unused.key = some v ∧ v ≠ unused.value) :
    find index convert cache k buffer = answer convert k buffer ↔
      Fresh index convert cache k buffer unused := by
  refine (h.map_find_eq_iff id).trans (forall_congr' fun hk => ?_)
  by_cases hs : cache (index k) = unused
  · obtain ⟨v, hv, hne⟩ := hu
    rw [hs] at hk
    simp [answer, hk, hv, hne.symm]
  · simp [hs]

end SyslogNg.DirectMapped
