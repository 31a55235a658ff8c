import SyslogNg.Pipeline.Network

/-!
# Routing by the final and fallback flags

Which next hops a multiplexer calls, whatever they do with the message.
-/
namespace SyslogNg.Pipeline

open List Hops

variable {V D : Type*}

def Hops.flags : Hops V D → List PipeFlags
  | .nil => []
  | .cons flags _ rest => flags :: rest.flags

/-- The hop at position `j` was called and matched. -/
def Matched (calls : List Call) (j : ℕ) : Prop :=
  ∃ call ∈ calls, call.index = j ∧ call.matched = true

/-- No hop before position `k` ended the round. -/
def NoneFinal (flags : List PipeFlags) (fallback : Bool) (calls : List Call) (i k : ℕ) : Prop :=
  ∀ j < k, ∀ f, flags[j]? = some f → f.fallback = fallback → f.final = true →
    ¬Matched calls (i + j)

theorem matched_append {calls calls' : List Call} {j : ℕ} :
    Matched (calls ++ calls') j ↔ Matched calls j ∨ Matched calls' j := by
  simp [Matched, or_and_right, exists_or]

variable {call : Call}

theorem matched_cons {calls : List Call} {j : ℕ} :
    Matched (call :: calls) j ↔ call.index = j ∧ call.matched = true ∨ Matched calls j := by
  simp [Matched]

/-- What one round calls. -/
structure Pass.Routed (p : Pass V D) (flags : List PipeFlags) (round : Round) (i : ℕ)
    (delivered : Bool) : Prop where
  /-- A call is of a hop of this round, with its own flow control. -/
  called : ∀ call ∈ p.calls, ∃ j f, call.index = i + j ∧ flags[j]? = some f ∧
    f.fallback = round.fallback ∧ call.flowControl = (round.flowControl || f.hardFlowControl)
  once : ∀ k f, flags[k]? = some f → f.fallback = round.fallback →
    NoneFinal flags round.fallback p.calls i k → p.calls.countP (·.index = i + k) = 1
  never : ∀ k, ¬NoneFinal flags round.fallback p.calls i k →
    p.calls.countP (·.index = i + k) = 0
  delivered : p.delivered = true ↔ delivered = true ∨ ∃ call ∈ p.calls, call.matched = true

section

variable {flags : List PipeFlags} {f : PipeFlags} {fallback : Bool} {calls : List Call}
  {i k : ℕ} {round : Round} {delivered : Bool} {q : Pass V D}

theorem noneFinal_succ : NoneFinal (f :: flags) fallback calls i (k + 1) ↔
    (f.fallback = fallback → f.final = true → ¬Matched calls i) ∧
      NoneFinal flags fallback calls (i + 1) k := by
  constructor
  · intro h
    refine ⟨fun hf hfn => h 0 (by omega) f rfl hf hfn, fun j hj g hg hgf hfn => ?_⟩
    have := h (j + 1) (by omega) g hg hgf hfn
    rwa [show i + (j + 1) = i + 1 + j by omega] at this
  · rintro ⟨h0, h⟩ j hj g hg hgf hfn
    cases j with
    | zero =>
      cases hg
      exact h0 hgf hfn
    | succ j =>
      rw [show i + (j + 1) = i + 1 + j by omega]
      exact h j (by omega) g hg hgf hfn

theorem noneFinal_zero : NoneFinal flags fallback calls i 0 := fun _ hj => absurd hj (by omega)

theorem Pass.Routed.index_gt (h : q.Routed flags round (i + 1) delivered) :
    ∀ call ∈ q.calls, call.index ≠ i := by
  intro call hc
  obtain ⟨j, g, hi, -⟩ := h.called call hc
  omega

theorem Pass.Routed.skip (h : q.Routed flags round (i + 1) delivered)
    (hf : f.fallback ≠ round.fallback) : q.Routed (f :: flags) round i delivered := by
  have hz : ∀ {k}, NoneFinal (f :: flags) round.fallback q.calls i (k + 1) ↔
      NoneFinal flags round.fallback q.calls (i + 1) k := by
    intro k
    rw [noneFinal_succ]
    exact and_iff_right fun hfb => absurd hfb hf
  refine ⟨?_, ?_, ?_, h.delivered⟩
  · intro call hc
    obtain ⟨j, g, hi, hg⟩ := h.called call hc
    exact ⟨j + 1, g, by omega, hg⟩
  · intro k g hg hgf hn
    cases k with
    | zero =>
      cases hg
      exact absurd hgf hf
    | succ k =>
      rw [show i + (k + 1) = i + 1 + k by omega]
      exact h.once k g hg hgf (hz.mp hn)
  · intro k hn
    cases k with
    | zero => exact absurd noneFinal_zero hn
    | succ k =>
      rw [show i + (k + 1) = i + 1 + k by omega]
      exact h.never k (mt hz.mpr hn)

theorem countP_cons_of_ne {j : ℕ} (h : call.index ≠ j) :
    (call :: calls).countP (·.index = j) = calls.countP (·.index = j) := by
  rw [countP_cons_of_neg (by simpa using h)]

/-- A hop of this round that does not end it. -/
theorem Pass.Routed.cons {ops : List (Op V D)}
    (h : q.Routed flags round (i + 1) (delivered || call.matched))
    (hf : f.fallback = round.fallback) (hi : call.index = i)
    (hfl : call.flowControl = (round.flowControl || f.hardFlowControl))
    (hgo : f.final = true → call.matched = false) :
    (q.cons ops call).Routed (f :: flags) round i delivered := by
  have hmt : ∀ j, Matched (call :: q.calls) (i + 1 + j) ↔ Matched q.calls (i + 1 + j) := by
    intro j
    rw [matched_cons]
    exact or_iff_right fun hc => by omega
  have hs : ∀ {k}, NoneFinal (f :: flags) round.fallback (call :: q.calls) i (k + 1) ↔
      NoneFinal flags round.fallback q.calls (i + 1) k := by
    intro k
    rw [noneFinal_succ]
    simp only [NoneFinal, hmt]
    refine and_iff_right fun _ hfn hm => ?_
    rcases matched_cons.mp hm with ⟨-, hm⟩ | ⟨c, hc, hci, -⟩
    · rw [hgo hfn] at hm
      exact Bool.noConfusion hm
    · exact h.index_gt c hc hci
  refine ⟨?_, ?_, ?_, ?_⟩
  · intro c hc
    rcases mem_cons.mp hc with rfl | hc
    · exact ⟨0, f, hi, rfl, hf, hfl⟩
    · obtain ⟨j, g, hcj, hg⟩ := h.called c hc
      exact ⟨j + 1, g, by omega, hg⟩
  · intro k g hg hgf hn
    cases k with
    | zero =>
      have hn : q.calls.countP (·.index = i) = 0 := by
        simpa using h.index_gt
      rw [Pass.cons, add_zero, countP_cons_of_pos (by simpa using hi), hn]
    | succ k =>
      rw [Pass.cons, show i + (k + 1) = i + 1 + k by omega, countP_cons_of_ne (by omega)]
      exact h.once k g hg hgf (hs.mp hn)
  · intro k hn
    cases k with
    | zero => exact absurd noneFinal_zero hn
    | succ k =>
      rw [Pass.cons, show i + (k + 1) = i + 1 + k by omega, countP_cons_of_ne (by omega)]
      exact h.never k (mt hs.mpr hn)
  · rw [Pass.cons, h.delivered]
    simp [or_assoc]

/-- A final hop that matches ends the round. -/
theorem Pass.routed_final {ops : List (Op V D)} (hf : f.fallback = round.fallback)
    (hi : call.index = i) (hfl : call.flowControl = (round.flowControl || f.hardFlowControl))
    (hfn : f.final = true) (hm : call.matched = true) :
    ((⟨[], [], true⟩ : Pass V D).cons ops call).Routed (f :: flags) round i delivered := by
  have he : ∀ k, ¬NoneFinal (f :: flags) round.fallback [call] i (k + 1) := fun k h =>
    (noneFinal_succ.mp h).1 hf hfn ⟨call, mem_singleton_self _, hi, hm⟩
  refine ⟨?_, ?_, ?_, ?_⟩
  · intro c hc
    cases mem_singleton.mp hc
    exact ⟨0, f, hi, rfl, hf, hfl⟩
  · intro k g hg hgf hn
    cases k with
    | zero => simp [Pass.cons, hi]
    | succ k => exact absurd hn (he k)
  · intro k hn
    cases k with
    | zero => exact absurd noneFinal_zero hn
    | succ k =>
      rw [Pass.cons, countP_cons_of_ne (by omega)]
      rfl
  · simp [Pass.cons, hm]

end

theorem Hops.routed (ho : Hops V D) (round : Round) (i : ℕ) (delivered : Bool) (s : Store V) :
    (ho.queue round i delivered s).Routed ho.flags round i delivered := by
  cases ho with
  | nil =>
    refine ⟨by simp [queue], by simp [flags], ?_, by simp [queue]⟩
    simp [queue]
  | cons flags first rest =>
    by_cases hs : flags.fallback = round.fallback
    · rw [queue_cons _ _ _ _ _ hs]
      split_ifs with hb
      · obtain ⟨hm, hf⟩ := Bool.and_eq_true_iff.mp hb
        exact Pass.routed_final hs rfl rfl hf hm
      · refine (routed rest round (i + 1) _ _).cons hs rfl rfl fun hf => ?_
        change (round.run flags first rest delivered s).2 = false
        simpa [hf] using hb
    · rw [queue_cons_of_ne _ _ _ _ _ hs]
      exact (routed rest round (i + 1) delivered s).skip hs

theorem Hops.fallbackExists_of_flags (ho : Hops V D) {k : ℕ} {f : PipeFlags}
    (h : ho.flags[k]? = some f) (hf : f.fallback = true) : ho.fallbackExists = true := by
  match ho, k with
  | .cons flags first rest, 0 =>
    cases h
    simp [fallbackExists, hf]
  | .cons flags first rest, k + 1 =>
    have hr : rest.flags[k]? = some f := h
    simp [fallbackExists, rest.fallbackExists_of_flags hr hf]

section Rounds

variable {flags : List PipeFlags} {f : PipeFlags} {i : ℕ} {round : Round} {delivered : Bool}
  {p : Pass V D}

/-- Hops of the other kind are not called in a round. -/
theorem Pass.Routed.not_matched (h : p.Routed flags round 0 delivered) (hf : flags[i]? = some f)
    (hne : f.fallback ≠ round.fallback) :
    p.calls.countP (·.index = i) = 0 ∧ ¬Matched p.calls i := by
  have hn : ∀ call ∈ p.calls, call.index ≠ i := by
    rintro call hc rfl
    obtain ⟨j, g, hi, hg, hgf, -⟩ := h.called call hc
    rw [zero_add] at hi
    rw [← hi, hf] at hg
    cases hg
    exact hne hgf
  refine ⟨by simpa using hn, ?_⟩
  rintro ⟨call, hc, hi, -⟩
  exact hn call hc hi

/-- Nothing was delivered in a round if none of its hops matched. -/
theorem Pass.Routed.delivered_eq_false_iff (h : p.Routed flags round 0 false) :
    p.delivered = false ↔
      ∀ j g, flags[j]? = some g → g.fallback = round.fallback → ¬Matched p.calls j := by
  rw [← Bool.not_eq_true, h.delivered]
  constructor
  · rintro hn j g - - ⟨call, hc, -, hm⟩
    exact hn (.inr ⟨call, hc, hm⟩)
  · rintro hn (hf | ⟨call, hc, hm⟩)
    · exact Bool.noConfusion hf
    · obtain ⟨j, g, hi, hg, hgf, -⟩ := h.called call hc
      exact hn j g hg hgf ⟨call, hc, by omega, hm⟩

end Rounds

theorem noneFinal_congr {flags : List PipeFlags} {fallback : Bool} {calls calls' : List Call}
    {i k : ℕ} (h : ∀ j g, flags[j]? = some g → g.fallback = fallback →
      (Matched calls (i + j) ↔ Matched calls' (i + j))) :
    NoneFinal flags fallback calls i k ↔ NoneFinal flags fallback calls' i k := by
  constructor
  · intro hn j hj g hg hgf hf
    rw [← h j g hg hgf]
    exact hn j hj g hg hgf hf
  · intro hn j hj g hg hgf hf
    rw [h j g hg hgf]
    exact hn j hj g hg hgf hf

/-- The second round of a multiplexer: skipped, or over the fallback hops. -/
theorem Hops.rounds_calls (ho : Hops V D) (round : Round) (s : Store V) :
    ∃ p₀ p₁ : Pass V D, p₀.Routed ho.flags { round with fallback := false } 0 false ∧
      (ho.rounds round s).calls = p₀.calls ++ p₁.calls ∧
      (p₀.delivered = false ∧ p₁.Routed ho.flags { round with fallback := true } 0 false ∨
        p₁.calls = [] ∧ (ho.fallbackExists = false ∨ p₀.delivered = true)) := by
  have h₀ := ho.routed { round with fallback := false } 0 false s
  simp only [rounds]
  generalize ho.queue { round with fallback := false } 0 false s = p₀ at *
  by_cases hs : (ho.fallbackExists && !p₀.delivered) = true
  · rw [if_pos hs]
    have hd : p₀.delivered = false := by
      simpa using (Bool.and_eq_true_iff.mp hs).2
    exact ⟨p₀, _, h₀, rfl, .inl ⟨hd, ho.routed _ 0 false _⟩⟩
  · rw [if_neg hs]
    refine ⟨p₀, ⟨[], [], p₀.delivered⟩, h₀, rfl, .inr ⟨rfl, ?_⟩⟩
    simpa [or_iff_not_imp_left] using hs

open Classical in
/-- The calls of a multiplexer: which hops get the message, and with which flow control. -/
theorem multiplexer_routes (hops : Hops V D) (round : Round) (s : Store V) :
    (∀ call ∈ (hops.rounds round s).calls, ∃ f, hops.flags[call.index]? = some f ∧
      call.flowControl = (round.flowControl || f.hardFlowControl)) ∧
    (∀ i f, hops.flags[i]? = some f → f.fallback = false →
      (hops.rounds round s).calls.countP (·.index = i) =
        if NoneFinal hops.flags false (hops.rounds round s).calls 0 i then 1 else 0) ∧
    (∀ i f, hops.flags[i]? = some f → f.fallback = true →
      (hops.rounds round s).calls.countP (·.index = i) =
        if (∀ j g, hops.flags[j]? = some g → g.fallback = false →
            ¬Matched (hops.rounds round s).calls j) ∧
          NoneFinal hops.flags true (hops.rounds round s).calls 0 i then 1 else 0) := by
  obtain ⟨p₀, p₁, h₀, hcl, hs⟩ := hops.rounds_calls round s
  rw [hcl]
  -- neither round touches the hops of the other
  have hs₀ : ∀ i f, hops.flags[i]? = some f → f.fallback = true →
      p₀.calls.countP (·.index = i) = 0 ∧ ¬Matched p₀.calls i :=
    fun i f hf ht => h₀.not_matched hf (by simp [ht])
  have hs₁ : ∀ i f, hops.flags[i]? = some f → f.fallback = false →
      p₁.calls.countP (·.index = i) = 0 ∧ ¬Matched p₁.calls i := by
    intro i f hf hfl
    rcases hs with ⟨-, h₁⟩ | ⟨hnl, -⟩
    · exact h₁.not_matched hf (by simp [hfl])
    · simp [hnl, Matched]
  have hm₀ : ∀ j g, hops.flags[j]? = some g → g.fallback = false →
      (Matched (p₀.calls ++ p₁.calls) j ↔ Matched p₀.calls j) := by
    intro j g hg hfl
    rw [matched_append]
    exact or_iff_left (hs₁ j g hg hfl).2
  refine ⟨?_, ?_, ?_⟩
  · intro call hc
    rcases mem_append.mp hc with hc | hc
    · obtain ⟨j, f, hi, hf, -, hfw⟩ := h₀.called call hc
      exact ⟨f, by rw [hi, zero_add]; exact hf, hfw⟩
    · rcases hs with ⟨-, h₁⟩ | ⟨hnl, -⟩
      · obtain ⟨j, f, hi, hf, -, hfw⟩ := h₁.called call hc
        exact ⟨f, by rw [hi, zero_add]; exact hf, hfw⟩
      · simp [hnl] at hc
  · intro i f hf hfl
    have hn : NoneFinal hops.flags false (p₀.calls ++ p₁.calls) 0 i ↔
        NoneFinal hops.flags false p₀.calls 0 i :=
      noneFinal_congr fun j g hg hgf => by simpa using hm₀ j g hg hgf
    rw [countP_append, (hs₁ i f hf hfl).1, add_zero, if_congr hn rfl rfl]
    split_ifs with hfn
    · simpa using h₀.once i f hf hfl hfn
    · simpa using h₀.never i hfn
  · intro i f hf ht
    have hn : NoneFinal hops.flags true (p₀.calls ++ p₁.calls) 0 i ↔
        NoneFinal hops.flags true p₁.calls 0 i := by
      refine noneFinal_congr fun j g hg hgf => ?_
      rw [matched_append, zero_add]
      exact or_iff_right (hs₀ j g hg hgf).2
    have hd : (∀ j g, hops.flags[j]? = some g → g.fallback = false →
        ¬Matched (p₀.calls ++ p₁.calls) j) ↔ p₀.delivered = false := by
      rw [h₀.delivered_eq_false_iff]
      refine forall₄_congr fun j g hg hgf => ?_
      rw [hm₀ j g hg hgf]
    rw [countP_append, (hs₀ i f hf ht).1, zero_add, if_congr (and_congr hd hn) rfl rfl]
    rcases hs with ⟨hfl, h₁⟩ | ⟨hnl, hnt⟩
    · simp only [hfl, true_and]
      split_ifs with hfn
      · simpa using h₁.once i f hf ht hfn
      · simpa using h₁.never i hfn
    · have hdl : p₀.delivered = true :=
        hnt.resolve_left (by simp [hops.fallbackExists_of_flags hf ht])
      simp [hnl, hdl]

end SyslogNg.Pipeline
