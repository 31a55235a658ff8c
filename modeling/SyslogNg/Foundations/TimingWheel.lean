import Mathlib.Tactic

/-!
# Levels of a timing wheel

A level has `num` slots, each for one `unit` of time. It looks ahead: `first` is the first unit
that it may still hold, and entries of the `num` units from there on are in the slot of their unit
modulo `num`. When the entries of the first unit are taken out, the level looks one unit further
ahead. A unit of the next level is one revolution of this one.
-/
namespace SyslogNg.TimingWheel

open List Nat Function

variable {α : Type*} (target : α → ℕ)

/-- Every entry is in the slot of its unit, and its unit is one of the next `num`. -/
def Ahead (num unit first : ℕ) (slots : ℕ → List α) : Prop :=
  ∀ slot, ∀ e ∈ slots slot, target e / unit % num = slot ∧
    first ≤ target e / unit ∧ target e / unit < first + num

def put (num unit : ℕ) (slots : ℕ → List α) (e : α) : ℕ → List α :=
  update slots (target e / unit % num) (e :: slots (target e / unit % num))

def contents (num : ℕ) (slots : ℕ → List α) : Multiset α :=
  ∑ slot ∈ Finset.range num, (slots slot : Multiset α)

variable {target} {num unit first : ℕ} {slots : ℕ → List α} {e : α} {es : List α}

/-! ### Arithmetic -/

theorem eq_of_mod_eq {first t : ℕ} (hm : t % num = first % num) (hle : first ≤ t)
    (hlt : t < first + num) : t = first := by
  have hd : num ∣ t - first := (modEq_iff_dvd' hle).mp (Eq.symm hm)
  have hz : t - first = 0 := eq_zero_of_dvd_of_lt hd (by omega)
  omega

/-- A unit of the next level begins with a revolution, and ends with it. -/
theorem carry {t : ℕ} (hn : 0 < num) (hf : first % num = 0)
    (h : t / (unit * num) = first / num) : first ≤ t / unit ∧ t / unit < first + num := by
  rw [← Nat.div_div_eq_div_mul] at h
  have hb : num * (first / num) = first := by
    have := div_add_mod first num
    omega
  have hm := mod_lt (t / unit) hn
  have hs := div_add_mod (t / unit) num
  rw [h] at hs
  omega

theorem succ_mod {n : ℕ} (hn : 0 < num) :
    (n + 1) % num = if n % num = num - 1 then 0 else n % num + 1 := by
  have hlt := mod_lt n hn
  rw [← mod_add_mod n num 1]
  split_ifs with hl
  · rw [hl, Nat.sub_add_cancel hn, mod_self]
  · exact mod_eq_of_lt (by omega)

theorem succ_div_of_mod {n : ℕ} (h : (n + 1) % num = 0) : (n + 1) / num = n / num + 1 := by
  rw [Nat.succ_div, if_pos (dvd_of_mod_eq_zero h)]

theorem succ_div_of_mod_ne {n : ℕ} (h : (n + 1) % num ≠ 0) : (n + 1) / num = n / num := by
  rw [Nat.succ_div, if_neg fun hd => h (mod_eq_zero_of_dvd hd), add_zero]

/-! ### Entries ahead -/

section

variable (h : Ahead target num unit first slots)
include h

theorem Ahead.due (he : e ∈ slots (first % num)) : target e / unit = first := by
  obtain ⟨hs, hle, hlt⟩ := h _ e he
  exact eq_of_mod_eq hs hle hlt

theorem Ahead.advance : Ahead target num unit (first + 1) (update slots (first % num) []) := by
  intro slot e he
  by_cases hs : slot = first % num
  · subst hs
    simp at he
  · rw [update_of_ne hs] at he
    obtain ⟨hm, hle, hlt⟩ := h slot e he
    have hne : target e / unit ≠ first := by
      intro heq
      exact hs (hm.symm.trans (by rw [heq]))
    exact ⟨hm, by omega, by omega⟩

theorem Ahead.put (hle : first ≤ target e / unit) (hlt : target e / unit < first + num) :
    Ahead target num unit first (put target num unit slots e) := by
  intro slot e' he'
  by_cases hs : slot = target e / unit % num
  · subst hs
    rw [TimingWheel.put, update_self] at he'
    rcases mem_cons.mp he' with rfl | he'
    · exact ⟨rfl, hle, hlt⟩
    · exact h _ e' he'
  · rw [TimingWheel.put, update_of_ne hs] at he'
    exact h slot e' he'

theorem Ahead.putAll (hes : ∀ e ∈ es, first ≤ target e / unit ∧ target e / unit < first + num) :
    Ahead target num unit first (es.foldl (TimingWheel.put target num unit) slots) := by
  induction es generalizing slots with
  | nil => exact h
  | cons e es ih =>
    have he := hes e (mem_cons_self ..)
    exact ih (h.put he.1 he.2) fun e' he' => hes e' (mem_cons_of_mem _ he')

theorem Ahead.filter (p : α → Bool) :
    Ahead target num unit first fun slot => (slots slot).filter p :=
  fun slot e he => h slot e (mem_of_mem_filter he)

theorem Ahead.slot_lt (hn : 0 < num) {slot : ℕ} (he : e ∈ slots slot) : slot < num := by
  rw [← (h slot e he).1]
  exact mod_lt _ hn

end

/-! ### Contents -/

theorem mem_contents : e ∈ contents num slots ↔ ∃ slot < num, e ∈ slots slot := by
  simp [contents]

theorem Ahead.mem_contents (h : Ahead target num unit first slots) (hn : 0 < num) :
    e ∈ contents num slots ↔ ∃ slot, e ∈ slots slot := by
  rw [TimingWheel.mem_contents]
  constructor
  · rintro ⟨slot, -, he⟩
    exact ⟨slot, he⟩
  · rintro ⟨slot, he⟩
    exact ⟨slot, h.slot_lt hn he, he⟩

theorem contents_update (slots : ℕ → List α) {slot : ℕ} (hsl : slot < num) (l : List α) :
    contents num (update slots slot l) + slots slot = contents num slots + l := by
  have hm : slot ∈ Finset.range num := Finset.mem_range.mpr hsl
  have ho : ∀ l : List α, contents num (update slots slot l) =
      (l : Multiset α) + ∑ s ∈ (Finset.range num).erase slot, (slots s : Multiset α) := by
    intro l
    rw [contents, ← Finset.add_sum_erase _ _ hm, update_self]
    congr 1
    apply Finset.sum_congr rfl
    intro s hs
    rw [update_of_ne (Finset.ne_of_mem_erase hs)]
  have hsm := ho (slots slot)
  rw [update_eq_self] at hsm
  rw [ho l, hsm]
  abel

theorem contents_put (hn : 0 < num) :
    contents num (put target num unit slots e) = e ::ₘ contents num slots := by
  have h := contents_update slots (mod_lt (target e / unit) hn)
    (e :: slots (target e / unit % num))
  rw [← Multiset.cons_coe, Multiset.add_cons, ← Multiset.cons_add] at h
  exact add_right_cancel h

theorem contents_putAll (hn : 0 < num) (es : List α) (slots : ℕ → List α) :
    contents num (es.foldl (put target num unit) slots) = es + contents num slots := by
  induction es generalizing slots with
  | nil => simp
  | cons e es ih =>
    rw [foldl_cons, ih, contents_put hn, ← Multiset.cons_coe, Multiset.add_cons,
      Multiset.cons_add]

/-- What is taken out of a slot, and what is left. -/
theorem contents_clear {slot : ℕ} (hs : slot < num) :
    contents num slots = slots slot + contents num (update slots slot []) := by
  have h := contents_update slots hs []
  rw [Multiset.coe_nil, add_zero] at h
  rw [← h, add_comm]

theorem contents_filter (p : α → Bool) :
    contents num (fun slot => (slots slot).filter p) =
      (contents num slots).filter (p · = true) := by
  unfold contents
  induction num with
  | zero => simp
  | succ n ih => simp [Finset.sum_range_succ, ih]

end SyslogNg.TimingWheel
