import Mathlib.Tactic

/-!
# Loops of a deterministic step

A loop whose body either stops or goes on with one next state. If it can visit only finitely many
states, it ends exactly if none of them comes back to itself.
-/
namespace SyslogNg

open List Option

section Orbit

variable {S B : Type*} (next : S → Option S)

/-- The state after the given number of steps, if the loop did not end before. -/
def orbit : ℕ → S → Option S
  | 0, s => some s
  | n + 1, s => (next s).bind (orbit n)

def Visits (s t : S) : Prop := ∃ n, orbit next n s = some t

def Halts (s : S) : Prop := ∃ n, orbit next n s = none

/-- The loop, with what it works on and what each step does to it, for at most the given number
of steps. -/
def loop {T : Type*} (effect : S → T → T) : ℕ → S → T → Option T
  | 0, _, _ => none
  | n + 1, s, t => (next s).elim (some t) fun s' => loop effect n s' (effect s t)

/-- What the steps put out, in order. -/
def outputs (out : S → List B) : ℕ → S → List B
  | 0, _ => []
  | n + 1, s => out s ++ ((next s).elim [] (outputs out n))

variable {next} {s t : S} {m n : ℕ}

theorem orbit_add : orbit next (m + n) s = (orbit next m s).bind (orbit next n) := by
  induction m generalizing s with
  | zero => simp [orbit]
  | succ m ih =>
    rw [Nat.succ_add, orbit, orbit]
    cases next s with
    | none => rfl
    | some t => exact ih

theorem orbit_of_none (h : orbit next m s = none) (hle : m ≤ n) : orbit next n s = none := by
  obtain ⟨k, rfl⟩ := Nat.exists_eq_add_of_le hle
  rw [orbit_add, h]
  rfl

theorem Visits.refl : Visits next s s := ⟨0, rfl⟩

theorem Visits.head {u : S} (h : next s = some u) (hv : Visits next u t) : Visits next s t := by
  obtain ⟨n, hn⟩ := hv
  refine ⟨n + 1, ?_⟩
  rw [orbit, h]
  exact hn

theorem Visits.tail {u : S} (hv : Visits next s t) (h : next t = some u) : Visits next s u := by
  obtain ⟨n, hn⟩ := hv
  refine ⟨n + 1, ?_⟩
  rw [orbit_add, hn]
  simp [orbit, h]

theorem Visits.invariant {I : S → Prop} (hs : ∀ s t, I s → next s = some t → I t)
    (hv : Visits next s t) (h : I s) : I t := by
  obtain ⟨n, hn⟩ := hv
  induction n generalizing s with
  | zero =>
    cases hn
    exact h
  | succ n ih =>
    obtain ⟨u, hu, hr⟩ := bind_eq_some_iff.mp hn
    exact ih (hs s u h hu) hr

theorem loop_succ {T : Type*} {effect : S → T → T} {x : T} : loop next effect (n + 1) s x =
    (next s).elim (some x) fun t => loop next effect n t (effect s x) := rfl

theorem loop_isSome_iff {T : Type*} {effect : S → T → T} {x : T} :
    (loop next effect n s x).isSome ↔ orbit next n s = none := by
  induction n generalizing s x with
  | zero => simp [loop, orbit]
  | succ n ih =>
    rw [loop_succ, orbit]
    cases next s with
    | none => simp
    | some t => exact ih

theorem loop_invariant {T : Type*} {effect : S → T → T} {I : T → Prop}
    (hst : ∀ s x, I x → I (effect s x)) {x y : T} (h : I x)
    (hl : loop next effect n s x = some y) : I y := by
  induction n generalizing s x with
  | zero => cases hl
  | succ n ih =>
    rw [loop_succ] at hl
    cases hs : next s with
    | none =>
      rw [hs] at hl
      cases hl
      exact h
    | some t =>
      rw [hs] at hl
      exact ih (hst s x h) hl

theorem loop_of_none {T : Type*} {effect : S → T → T} {x : T} (h : next s = none) :
    loop next effect 1 s x = some x := by
  rw [loop_succ, h]
  rfl

theorem loop_of_some {T : Type*} {effect : S → T → T} {x : T} (h : next s = some t) :
    loop next effect (n + 1) s x = loop next effect n t (effect s x) := by
  rw [loop_succ, h]
  rfl

theorem loop_unique {T : Type*} {effect : S → T → T} {x y z : T}
    (hm : loop next effect m s x = some y) (hn : loop next effect n s x = some z) : y = z := by
  induction m generalizing n s x with
  | zero => cases hm
  | succ m ih =>
    cases n with
    | zero => cases hn
    | succ n =>
      rw [loop_succ] at hm hn
      cases hs : next s with
      | none =>
        rw [hs] at hm hn
        exact Option.some.inj (hm.symm.trans hn)
      | some t =>
        rw [hs] at hm hn
        exact ih hm hn

theorem forall_outputs {out : S → List B} {P : B → Prop} : (∀ n, ∀ b ∈ outputs next out n s, P b) ↔
      (∀ b ∈ out s, P b) ∧ ∀ t, next s = some t → ∀ n, ∀ b ∈ outputs next out n t, P b := by
  constructor
  · intro h
    refine ⟨fun b hb => h 1 b (mem_append_left _ hb), fun t ht n b hb => ?_⟩
    apply h (n + 1) b
    rw [outputs, ht]
    exact mem_append_right _ hb
  · rintro ⟨ho, hr⟩ n b hb
    cases n with
    | zero => exact absurd hb not_mem_nil
    | succ n =>
      rcases mem_append.mp hb with hb | hb
      · exact ho b hb
      · cases hs : next s with
        | none => simp [hs] at hb
        | some t => exact hr t hs n b (by simpa [hs] using hb)

theorem forall_outputs_of_some {out : S → List B} {P : List B → Prop} (hn : P [])
    (hs : next s = some t) :
    (∀ n, P (outputs next out n s)) ↔ ∀ n, P (out s ++ outputs next out n t) := by
  have hsc (n : ℕ) : outputs next out (n + 1) s = out s ++ outputs next out n t := by
    rw [outputs, hs]
    rfl
  constructor
  · intro h n
    rw [← hsc]
    exact h (n + 1)
  · intro h n
    cases n with
    | zero => exact hn
    | succ n =>
      rw [hsc]
      exact h n

theorem mem_outputs {out : S → List B} {b : B} :
    (∃ n, b ∈ outputs next out n s) ↔ ∃ t, Visits next s t ∧ b ∈ out t := by
  constructor
  · rintro ⟨n, hn⟩
    induction n generalizing s with
    | zero => simp [outputs] at hn
    | succ n ih =>
      rcases mem_append.mp hn with hb | hb
      · exact ⟨s, .refl, hb⟩
      · cases hs : next s with
        | none => simp [hs] at hb
        | some u =>
          obtain ⟨t, hv, hb⟩ := ih (by simpa [hs] using hb)
          exact ⟨t, hv.head hs, hb⟩
  · rintro ⟨t, ⟨n, hn⟩, hb⟩
    refine ⟨n + 1, ?_⟩
    induction n generalizing s with
    | zero =>
      cases hn
      exact mem_append_left _ hb
    | succ n ih =>
      obtain ⟨u, hu, hr⟩ := bind_eq_some_iff.mp hn
      rw [outputs, hu]
      exact mem_append_right _ (ih hr)

theorem orbit_cycle {period : ℕ} (h : orbit next period t = some t) (k : ℕ) :
    orbit next (k * period) t = some t := by
  induction k with
  | zero => simp [orbit]
  | succ k ih => rw [Nat.succ_mul, orbit_add, ih, bind_some, h]

theorem not_halts_of_cycle {period : ℕ} (hv : Visits next s t)
    (h : orbit next (period + 1) t = some t) : ¬Halts next s := by
  rintro ⟨n, hn⟩
  obtain ⟨m, hm⟩ := hv
  have hl : orbit next (m + n * (period + 1)) s = some t := by
    rw [orbit_add, hm, bind_some, orbit_cycle h]
  have hnn : orbit next (m + n * (period + 1)) s = none := by
    apply orbit_of_none hn
    have := Nat.le_mul_of_pos_right n (by omega : 0 < period + 1)
    omega
  rw [hnn] at hl
  cases hl

theorem halts_iff_acyclic (hf : {t | Visits next s t}.Finite) :
    Halts next s ↔ ∀ t, Visits next s t → ∀ period, orbit next (period + 1) t ≠ some t := by
  constructor
  · intro hh t hv period hc
    exact not_halts_of_cycle hv hc hh
  · intro ha
    by_contra hh
    -- the orbit never ends, so two of its states are the same
    have hso : ∀ n, ∃ t, orbit next n s = some t := fun n =>
      ne_none_iff_exists'.mp fun hn => hh ⟨n, hn⟩
    choose state hs using hso
    have := hf.to_subtype
    let visited (n : ℕ) : {t | Visits next s t} := ⟨state n, n, hs n⟩
    obtain ⟨a, b, hne, heq⟩ := Finite.exists_ne_map_eq_of_infinite visited
    have hsm : state a = state b := congrArg Subtype.val heq
    wlog hlt : a < b generalizing a b
    · exact this b a hne.symm heq.symm hsm.symm (by omega)
    obtain ⟨period, rfl⟩ := Nat.exists_eq_add_of_lt hlt
    apply ha (state a) ⟨a, hs a⟩ period
    have hb := hs (a + period + 1)
    rw [add_assoc, orbit_add, hs a, bind_some] at hb
    rw [hb, hsm, add_assoc]

end Orbit

end SyslogNg
