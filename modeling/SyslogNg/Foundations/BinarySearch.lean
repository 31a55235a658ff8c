import Mathlib.Tactic

/-!
# Open-coded binary search

The loop keeps two inclusive bounds and stops either on the wanted key or when
the bounds cross. The last lower bound is the insertion point, so one loop serves
both lookup and ordered insertion. Keys are read through a function, which lets a
caller look at the stored keys through a narrower view.
-/
namespace SyslogNg.BinarySearch

/-- Either the position of the wanted key, or the position it belongs to. -/
inductive Outcome
  | found (m : ℕ)
  | missing (l : ℕ)
  deriving DecidableEq, Repr

def search (key : ℕ → ℕ) (x : ℕ) : ℕ → ℤ → ℤ → Outcome
  | 0, l, _ => .missing l.toNat
  | fuel + 1, l, h =>
    if l ≤ h then
      let m := (l + h) / 2
      if key m.toNat = x then .found m.toNat
      else if key m.toNat > x then search key x fuel l (m - 1)
      else search key x fuel (m + 1) h
    else .missing l.toNat

def Increasing (key : ℕ → ℕ) (n : ℕ) : Prop :=
  ∀ i j, i < j → j < n → key i < key j

def Outcome.Correct (key : ℕ → ℕ) (x n : ℕ) : Outcome → Prop
  | .found m => m < n ∧ key m = x
  | .missing l => l ≤ n ∧ (∀ i < l, key i < x) ∧ ∀ i, l ≤ i → i < n → x < key i

variable {key : ℕ → ℕ} {x n : ℕ}

theorem search_correct (hk : Increasing key n) :
    ∀ (fuel : ℕ) (l h : ℤ), 0 ≤ l → l ≤ h + 1 → h < n → h - l < fuel →
      (∀ i : ℕ, (i : ℤ) < l → key i < x) → (∀ i : ℕ, h < i → i < n → x < key i) →
      (search key x fuel l h).Correct key x n := by
  intro fuel
  induction fuel with
  | zero =>
    intro l h hl hlh hn hf hlw hh
    refine ⟨by omega, fun i hi => hlw i (by omega), fun i hi hin => hh i (by omega) hin⟩
  | succ fuel ih =>
    intro l h hl hlh hn hf hlw hh
    rw [search]
    dsimp only
    split_ifs with hle heq hgt
    · exact ⟨by omega, heq⟩
    · apply ih l _ hl (by omega) (by omega) (by omega) hlw
      intro i hi hin
      by_cases hm : i = ((l + h) / 2).toNat
      · subst hm
        exact hgt
      · exact hgt.trans (hk _ _ (by omega) hin)
    · apply ih _ h (by omega) (by omega) hn (by omega) _ hh
      intro i hi
      by_cases hm : i = ((l + h) / 2).toNat
      · subst hm
        omega
      · have hlt := hk i ((l + h) / 2).toNat (by omega) (by omega)
        omega
    · refine ⟨by omega, fun i hi => hlw i (by omega), fun i hi hin => hh i (by omega) hin⟩

theorem search_all_correct (hk : Increasing key n) :
    (search key x n 0 ((n : ℤ) - 1)).Correct key x n := by
  apply search_correct hk <;> intros <;> omega

theorem search_all_found (hk : Increasing key n) {m : ℕ} (hm : m < n) (hx : key m = x) :
    search key x n 0 ((n : ℤ) - 1) = .found m := by
  have h := search_all_correct (x := x) hk
  cases hs : search key x n 0 ((n : ℤ) - 1) with
  | found m' =>
    rw [hs] at h
    obtain ⟨hm', hx'⟩ := h
    rcases lt_trichotomy m m' with hlt | rfl | hlt
    · have := hk m m' hlt hm'
      omega
    · rfl
    · have := hk m' m hlt hm
      omega
  | missing l =>
    rw [hs] at h
    obtain ⟨-, hl, hh⟩ := h
    by_cases hlm : m < l
    · have := hl m hlm
      omega
    · have := hh m (by omega) hm
      omega

/-- The loop sees the keys only through comparisons with the wanted key. -/
theorem search_congr {key' : ℕ → ℕ} (hc : ∀ i < n, (key i = x ↔ key' i = x) ∧
    (x < key i ↔ x < key' i)) : ∀ (fuel : ℕ) (l h : ℤ), 0 ≤ l → h < n →
      search key x fuel l h = search key' x fuel l h := by
  intro fuel
  induction fuel with
  | zero => intros; rfl
  | succ fuel ih =>
    intro l h hl hn
    rw [search, search]
    by_cases hle : l ≤ h
    · obtain ⟨heq, hgt⟩ := hc ((l + h) / 2).toNat (by omega)
      simp only [heq, hgt]
      rw [ih l _ hl (by omega), ih _ h (by omega) hn]
    · simp only [hle, if_false]

/-! ### Half-open bounds -/

/-- The loop with an exclusive upper bound, over keys that need not be distinct. -/
def find (key : ℕ → ℤ) (x : ℤ) : (fuel l u : ℕ) → Option ℕ
  | 0, _, _ => none
  | fuel + 1, l, u =>
    if l < u then
      let m := (l + u) / 2
      if key m > x then find key x fuel l m
      else if key m < x then find key x fuel (m + 1) u
      else some m
    else none

section find

variable {key : ℕ → ℤ} {x : ℤ} {n : ℕ}

def NonDecreasing (key : ℕ → ℤ) (n : ℕ) : Prop :=
  ∀ i j, i ≤ j → j < n → key i ≤ key j

theorem find_bounded : ∀ {fuel l u m : ℕ}, find key x fuel l u = some m → m < u ∧ key m = x := by
  intro fuel
  induction fuel with
  | zero =>
    intro l u m h
    simp [find] at h
  | succ fuel ih =>
    intro l u m h
    rw [find] at h
    dsimp only at h
    split_ifs at h with hlt hgt hl
    · obtain ⟨hm, hk⟩ := ih h
      exact ⟨by omega, hk⟩
    · exact ih h
    · cases h
      exact ⟨by omega, by omega⟩

/-- The loop misses no key. -/
theorem find_isSome (hk : NonDecreasing key n) {i : ℕ} (hx : key i = x) :
    ∀ {fuel l u : ℕ}, u ≤ n → u - l ≤ fuel → l ≤ i → i < u → (find key x fuel l u).isSome := by
  intro fuel
  induction fuel with
  | zero =>
    intro l u hun hf hl hu
    omega
  | succ fuel ih =>
    intro l u hun hf hl hu
    rw [find, if_pos (by omega)]
    dsimp only
    split_ifs with hgt hlt
    · apply ih (by omega) (by omega) hl
      by_contra hge
      have := hk ((l + u) / 2) i (by omega) (by omega)
      omega
    · apply ih hun (by omega) _ hu
      by_contra hge
      have := hk i ((l + u) / 2) (by omega) (by omega)
      omega
    · rfl

end find

end SyslogNg.BinarySearch
