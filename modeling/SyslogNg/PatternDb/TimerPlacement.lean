import SyslogNg.PatternDb.TimerWheel

/-!
# Where the timers are

Level by level, the wheel looks ahead: the first level from the current time on, and each further
level from the first of its slots that was not emptied by `timer_wheel_cascade`. This is the slot
behind the one of the time the level below looks ahead from, so it is emptied before the level
below runs out of it.
-/
namespace SyslogNg.PatternDb

open TimingWheel List Option Nat TWLevel

namespace TWLevel

variable {level : TWLevel} {first now base t : ℕ} {e : TWEntry} {es : List TWEntry}

theorem foldl_prepend (es : List TWEntry) (level : TWLevel) : es.foldl .prepend level =
    { level with slots := es.foldl (put TWEntry.target level.num level.unit) level.slots } := by
  induction es generalizing level with
  | nil => rfl
  | cons e es ih => rw [foldl_cons, ih, foldl_cons]; rfl

def contents (level : TWLevel) : Multiset TWEntry := TimingWheel.contents level.num level.slots

def Ahead (level : TWLevel) (first : ℕ) : Prop :=
  TimingWheel.Ahead TWEntry.target level.num level.unit first level.slots

/-- The number of slots and the shift do not change. -/
def shape (level : TWLevel) : ℕ × ℕ := (level.num, level.shift)

@[simp] theorem shape_foldl_prepend : (es.foldl .prepend level : TWLevel).shape = level.shape := by
  rw [foldl_prepend]
  rfl

@[simp] theorem shape_prepend : (level.prepend e).shape = level.shape := rfl

@[simp] theorem shape_clear (slot : ℕ) : (level.clear slot).shape = level.shape := rfl

@[simp] theorem shape_unlink (id : ℕ) : (level.unlink id).shape = level.shape := rfl

theorem contents_foldl_prepend (hn : 0 < level.num) :
    (es.foldl .prepend level : TWLevel).contents = es + level.contents := by
  rw [foldl_prepend]
  exact contents_putAll hn es level.slots

theorem contents_clear' {slot : ℕ} (hs : slot < level.num) :
    level.contents = level.slots slot + (level.clear slot).contents :=
  contents_clear hs

theorem Ahead.foldl_prepend (h : level.Ahead first)
    (hes : ∀ e ∈ es, first ≤ e.target / level.unit ∧ e.target / level.unit < first + level.num) :
    (es.foldl .prepend level : TWLevel).Ahead first := by
  rw [TWLevel.foldl_prepend]
  exact h.putAll hes

/-- A level without entries looks ahead from anywhere. -/
theorem Ahead.of_empty {first' : ℕ} (h : level.Ahead first) (hn : 0 < level.num)
    (hem : level.contents = 0) : level.Ahead first' := by
  intro slot e he
  have hm : e ∈ level.contents := (h.mem_contents hn).mpr ⟨slot, he⟩
  rw [hem] at hm
  exact absurd hm (Multiset.notMem_zero e)

theorem sourceSlot_eq (hn : 0 < level.num) :
    level.sourceSlot now = (now / level.unit + 1) % level.num := by
  rw [succ_mod hn]
  rfl

/-- Entries of the next unit of the level above. -/
theorem carry_target {unit : ℕ} (hu : level.unit = unit) (hn : 0 < level.num)
    (hen : (first + 1) % level.num = 0)
    (he : e.target / (unit * level.num) = first / level.num + 1) :
    first + 1 ≤ e.target / level.unit ∧ e.target / level.unit < first + 1 + level.num := by
  rw [hu]
  exact carry hn hen (he.trans (succ_div_of_mod hen).symm)

end TWLevel

/-! ### All levels -/

/-- Each level looks ahead, from `first` on in its units; the next one from the slot behind. -/
def Placed : ℕ → ℕ → List TWLevel → List TWEntry → Prop
  | unit, first, [], future => ∀ e ∈ future, first ≤ e.target / unit
  | unit, first, level :: rest, future =>
    (level.unit = unit ∧ 2 ≤ level.num) ∧ level.Ahead first ∧
      Placed (unit * level.num) (first / level.num + 1) rest future

def allEntries (levels : List TWLevel) (future : List TWEntry) : Multiset TWEntry :=
  (levels.map TWLevel.contents).sum + future

theorem allEntries_cons (level : TWLevel) (rest : List TWLevel) (future : List TWEntry) :
    allEntries (level :: rest) future = level.contents + allEntries rest future := by
  simp [allEntries, add_assoc]

section Cascade

variable {now base : ℕ} {future : List TWEntry} {rest : List TWLevel}

/-- Behind its last slot a level has run out of entries: the next slot of the level above is one
revolution of it. -/
theorem placed_cascade {level : TWLevel}
    {unit first : ℕ} (hu : level.unit = unit) (hnm : 2 ≤ level.num)
    (ha : level.Ahead (first + 1)) (hen : (first + 1) % level.num = 0)
    (hr : Placed (unit * level.num) (first / level.num + 1) rest future)
    (hn : first / level.num = now / (unit * level.num))
    (hbs : ∀ level' ∈ level :: rest, base / level'.span = now / level'.span ∧
      now + 2 * level'.span < 2 ^ 64) :
    Placed unit (first + 1) (cascade now base level rest future).1
      (cascade now base level rest future).2 := by
  induction rest generalizing level unit first with
  | nil =>
    obtain ⟨hsp, hf⟩ := hbs level (mem_singleton_self _)
    have hsp' : level.span = unit * level.num := by rw [TWLevel.span, hu]
    rw [hsp'] at hsp hf
    have hp : 0 < unit * level.num := by
      have : 0 < level.unit := Nat.two_pow_pos _
      rw [hu] at this
      positivity
    have hin : ∀ e : TWEntry,
        (e.target < (level.levelBase base + 2 * level.span) % 2 ^ 64) ↔
          e.target / (unit * level.num) < first / level.num + 2 := by
      intro e
      have hle : now / (unit * level.num) * (unit * level.num) ≤ now := div_mul_le_self _ _
      rw [levelBase, hsp', hsp, mod_eq_of_lt (by omega), hn, Nat.div_lt_iff_lt_mul hp, add_mul]
    refine ⟨⟨?_, ?_⟩, ?_, ?_⟩
    · rw [TWLevel.foldl_prepend]
      exact hu
    · rw [TWLevel.foldl_prepend]
      exact hnm
    · apply ha.foldl_prepend
      intro e he
      obtain ⟨hmm, he⟩ := mem_filter.mp he
      have hge := hr e hmm
      have hlt := (hin e).mp (of_decide_eq_true he)
      exact level.carry_target hu (by omega) hen (by omega)
    · rw [TWLevel.foldl_prepend]
      intro e he
      obtain ⟨hmm, he⟩ := mem_filter.mp he
      have hnt : ¬e.target < (level.levelBase base + 2 * level.span) % 2 ^ 64 := by
        simpa using he
      rw [hin e] at hnt
      change (first + 1) / level.num + 1 ≤ e.target / (unit * level.num)
      rw [succ_div_of_mod hen]
      omega
  | cons source rest ih =>
    obtain ⟨⟨hs, hsn⟩, hsh, hst⟩ := hr
    have hsl : source.sourceSlot now = (first / level.num + 1) % source.num := by
      rw [sourceSlot_eq (by omega), hs, hn]
    have hm : ((source.slots (source.sourceSlot now)).foldl .prepend level : TWLevel).Ahead
        (first + 1) := by
      apply ha.foldl_prepend
      intro e he
      rw [hsl] at he
      have hd := hsh.due he
      rw [hs] at hd
      exact level.carry_target hu (by omega) hen hd
    have hsr : (source.clear (source.sourceSlot now)).Ahead (first / level.num + 1 + 1) := by
      rw [hsl]
      exact hsh.advance
    have hl : (((source.slots (source.sourceSlot now)).foldl .prepend level : TWLevel).unit =
        unit ∧
        2 ≤ ((source.slots (source.sourceSlot now)).foldl .prepend level : TWLevel).num) := by
      rw [TWLevel.foldl_prepend]
      exact ⟨hu, hnm⟩
    have hln : ((source.slots (source.sourceSlot now)).foldl .prepend level : TWLevel).num =
        level.num := by rw [TWLevel.foldl_prepend]
    have hmd := mod_lt (first / level.num + 1) (by omega : 0 < source.num)
    simp only [cascade]
    split_ifs with hb
    · have hb' : (first / level.num + 1) % source.num < source.num - 1 := hsl ▸ hb
      have hsm : (first / level.num + 1 + 1) % source.num ≠ 0 := by
        rw [succ_mod (by omega), if_neg (by omega)]
        omega
      refine ⟨hl, hm, ?_⟩
      rw [hln, succ_div_of_mod hen]
      refine ⟨⟨hs, hsn⟩, hsr, ?_⟩
      change Placed (unit * level.num * source.num)
        ((first / level.num + 1 + 1) / source.num + 1) rest future
      rw [succ_div_of_mod_ne hsm]
      exact hst
    · have hls : (first / level.num + 1) % source.num = source.num - 1 := by
        have hge : ¬(first / level.num + 1) % source.num < source.num - 1 := hsl ▸ hb
        omega
      have hen' : (first / level.num + 1 + 1) % source.num = 0 := by
        rw [succ_mod (by omega), if_pos hls]
      have hn' : (first / level.num + 1) / source.num = now / (unit * level.num * source.num) := by
        have hne : (first / level.num + 1) % source.num ≠ 0 := by omega
        rw [succ_div_of_mod_ne hne, hn, Nat.div_div_eq_div_mul]
      refine ⟨hl, hm, ?_⟩
      rw [hln, succ_div_of_mod hen]
      refine ih hs hsn hsr hen' hst
        hn' fun level' hl' => ?_
      rcases mem_cons.mp hl' with rfl | hl'
      · exact hbs source (mem_cons_of_mem _ (mem_cons_self ..))
      · exact hbs level' (mem_cons_of_mem _ (mem_cons_of_mem _ hl'))

/-- Cascading moves entries, and does nothing else. -/
theorem allEntries_cascade {level : TWLevel} (hn : ∀ level' ∈ level :: rest, 0 < level'.num) :
    allEntries (cascade now base level rest future).1 (cascade now base level rest future).2 =
      allEntries (level :: rest) future := by
  induction rest generalizing level with
  | nil =>
    have hl := hn level (mem_singleton_self _)
    simp only [cascade, allEntries_cons, contents_foldl_prepend hl]
    simp only [allEntries, map_nil, sum_nil, zero_add]
    rw [add_right_comm, Multiset.coe_add, Multiset.coe_eq_coe.mpr (filter_append_perm _ future),
      add_comm]
  | cons source rest ih =>
    have hl := hn level (mem_cons_self ..)
    have hs := hn source (mem_cons_of_mem _ (mem_cons_self ..))
    have hsl : source.sourceSlot now < source.num := by
      rw [sourceSlot_eq hs]
      exact mod_lt _ hs
    have hc := source.contents_clear' hsl
    simp only [cascade]
    split_ifs with hb
    · simp only [allEntries_cons, contents_foldl_prepend hl, hc]
      abel
    · rw [allEntries_cons, ih fun level' hl' => ?_, contents_foldl_prepend hl]
      · simp only [allEntries_cons, hc]
        abel
      · rcases mem_cons.mp hl' with rfl | hl'
        · exact hs
        · exact hn level' (mem_cons_of_mem _ (mem_cons_of_mem _ hl'))

theorem shape_cascade {level : TWLevel} : (cascade now base level rest future).1.map TWLevel.shape =
      (level :: rest).map TWLevel.shape := by
  induction rest generalizing level with
  | nil => simp [cascade]
  | cons source rest ih =>
    simp only [cascade]
    split_ifs
    · simp
    · simp [ih]

end Cascade

section AddEntry

variable {now base unit first : ℕ} {e : TWEntry} {levels levels' : List TWLevel}
  {future : List TWEntry}

/-- The level that `timer_wheel_add_timer_entry` takes still looks ahead to the target. -/
def InSight (now base target : ℕ) : ℕ → ℕ → List TWLevel → Prop
  | unit, first, [] => first ≤ target / unit
  | unit, first, level :: rest =>
    (level.covers now base target = true →
      first ≤ target / unit ∧ target / unit < first + level.num) ∧
    (level.covers now base target = false →
      InSight now base target (unit * level.num) (first / level.num + 1) rest)

theorem placed_addTimerEntry (h : Placed unit first levels future)
    (hs : InSight now base e.target unit first levels) :
    (∀ levels', addTimerEntry now base e levels = some levels' → Placed unit first levels' future) ∧
    (addTimerEntry now base e levels = none → Placed unit first levels (e :: future)) := by
  induction levels generalizing unit first with
  | nil =>
    refine ⟨fun levels' heq => ?_, fun _ e' he' => ?_⟩
    · cases heq
    rcases mem_cons.mp he' with rfl | he'
    · exact hs
    · exact h e' he'
  | cons level rest ih =>
    obtain ⟨⟨hu, hnm⟩, ha, hr⟩ := h
    simp only [addTimerEntry]
    split_ifs with hc
    · obtain ⟨hle, hlt⟩ := hs.1 hc
      refine ⟨fun levels' heq => ?_, fun heq => ?_⟩
      · cases heq
        rw [← hu] at hle hlt
        exact ⟨⟨hu, hnm⟩, ha.put hle hlt, hr⟩
      · cases heq
    · obtain ⟨hsm, hn⟩ := ih hr (hs.2 (by simpa using hc))
      refine ⟨fun levels' heq => ?_, fun heq => ?_⟩
      · obtain ⟨rest', hr', rfl⟩ := map_eq_some_iff.mp heq
        exact ⟨⟨hu, hnm⟩, ha, hsm rest' hr'⟩
      · exact ⟨⟨hu, hnm⟩, ha, hn (map_eq_none_iff.mp heq)⟩

theorem allEntries_addTimerEntry (hn : ∀ level ∈ levels, 0 < level.num)
    (heq : addTimerEntry now base e levels = some levels') :
    allEntries levels' future = e ::ₘ allEntries levels future := by
  induction levels generalizing levels' with
  | nil => cases heq
  | cons level rest ih =>
    simp only [addTimerEntry] at heq
    split_ifs at heq
    · cases heq
      have hp : (level.prepend e).contents = e ::ₘ level.contents :=
        contents_put (hn level (mem_cons_self ..))
      rw [allEntries_cons, hp, Multiset.cons_add, allEntries_cons]
    · obtain ⟨rest', hr', rfl⟩ := map_eq_some_iff.mp heq
      rw [allEntries_cons, ih (fun level' h => hn level' (mem_cons_of_mem _ h)) hr',
        Multiset.add_cons, allEntries_cons]

theorem shape_addTimerEntry (heq : addTimerEntry now base e levels = some levels') :
    levels'.map TWLevel.shape = levels.map TWLevel.shape := by
  induction levels generalizing levels' with
  | nil => cases heq
  | cons level rest ih =>
    simp only [addTimerEntry] at heq
    split_ifs at heq
    · cases heq
      simp
    · obtain ⟨rest', hr', rfl⟩ := map_eq_some_iff.mp heq
      simp [ih hr']

end AddEntry

section Unlink

variable {unit first : ℕ} {levels : List TWLevel} {future : List TWEntry}

theorem placed_unlink (id : ℕ) (h : Placed unit first levels future) :
    Placed unit first (levels.map (·.unlink id)) (future.filter (·.id != id)) := by
  induction levels generalizing unit first with
  | nil => exact fun e he => h e (mem_of_mem_filter he)
  | cons level rest ih => exact ⟨h.1, h.2.1.filter _, ih h.2.2⟩

theorem allEntries_unlink (id : ℕ) :
    allEntries (levels.map (·.unlink id)) (future.filter (·.id != id)) =
      (allEntries levels future).filter (fun e => (e.id != id) = true) := by
  induction levels with
  | nil => simp only [allEntries, map_nil, sum_nil, zero_add, Multiset.filter_coe,
      Bool.decide_eq_true]
  | cons level rest ih =>
    have hl : (level.unlink id).contents =
        level.contents.filter (fun e => (e.id != id) = true) := contents_filter _
    rw [map_cons, allEntries_cons, hl, ih, allEntries_cons, Multiset.filter_add]

/-- In a wheel without entries every level looks ahead from anywhere. -/
theorem placed_of_empty {first' : ℕ} (h : Placed unit first levels future)
    (hem : allEntries levels future = 0) : Placed unit first' levels future := by
  induction levels generalizing unit first first' with
  | nil =>
    intro e he
    have hm : e ∈ allEntries [] future := by simpa [allEntries] using he
    rw [hem] at hm
    exact absurd hm (Multiset.notMem_zero e)
  | cons level rest ih =>
    obtain ⟨⟨hu, hn⟩, ha, hr⟩ := h
    rw [allEntries_cons, add_eq_zero] at hem
    exact ⟨⟨hu, hn⟩, ha.of_empty (by omega) hem.1, ih hr hem.2⟩

end Unlink

/-! ### The wheel -/

/-- When a timer with this target may be added: not a whole revolution of the first level ahead at
the start of one; and on the next revolution of a further level only before the slot of the current
time, once the next slot of the level above was emptied. -/
structure OnTime (now target : ℕ) : Prop where
  first : ¬(now % 1024 = 0 ∧ target = now + 1024)
  second : ¬(now / 2 ^ 10 % 64 = 63 ∧ target / 2 ^ 10 = now / 2 ^ 10 + 64)
  third : ¬(4031 ≤ now / 2 ^ 10 % 2 ^ 12 ∧ target / 2 ^ 22 = now / 2 ^ 22 + 1 ∧
    now / 2 ^ 16 % 64 ≤ target / 2 ^ 16 % 64)
  fourth : ¬(257983 ≤ now / 2 ^ 10 % 2 ^ 18 ∧ target / 2 ^ 28 = now / 2 ^ 28 + 1 ∧
    now / 2 ^ 22 % 64 ≤ target / 2 ^ 22 % 64)

instance (now target : ℕ) : Decidable (OnTime now target) :=
  decidable_of_iff (¬(now % 1024 = 0 ∧ target = now + 1024) ∧
    ¬(now / 2 ^ 10 % 64 = 63 ∧ target / 2 ^ 10 = now / 2 ^ 10 + 64) ∧
    ¬(4031 ≤ now / 2 ^ 10 % 2 ^ 12 ∧ target / 2 ^ 22 = now / 2 ^ 22 + 1 ∧
      now / 2 ^ 16 % 64 ≤ target / 2 ^ 16 % 64) ∧
    ¬(257983 ≤ now / 2 ^ 10 % 2 ^ 18 ∧ target / 2 ^ 28 = now / 2 ^ 28 + 1 ∧
      now / 2 ^ 22 % 64 ≤ target / 2 ^ 22 % 64))
    ⟨fun h => ⟨h.1, h.2.1, h.2.2.1, h.2.2.2⟩, fun h => ⟨h.first, h.second, h.third, h.fourth⟩⟩

/-- The level is taken up to the end of its revolution, and on the next revolution before the slot
of the current time. -/
theorem TWLevel.covers_iff {num shift unit span now : ℕ} (slots : ℕ → List TWEntry) (target : ℕ)
    (hu : 2 ^ shift = unit) (hs : unit * num = span) (hd : 1024 ∣ span)
    (hf : now + 2 * span < 2 ^ 64) :
    (TWLevel.mk num shift slots).covers now (now / 1024 * 1024) target = true ↔
      target ≤ now / span * span + span ∨
      (target < now / span * span + span * 2 ∧ target / unit % num < now / unit % num) := by
  subst hu
  have hs' : (TWLevel.mk num shift slots).span = span := hs
  have hb : (TWLevel.mk num shift slots).levelBase (now / 1024 * 1024) = now / span * span := by
    obtain ⟨k, rfl⟩ := hd
    rw [levelBase, hs', mul_comm (now / 1024), Nat.mul_div_mul_left _ _ (by norm_num),
      Nat.div_div_eq_div_mul]
  have hle := div_mul_le_self now span
  rw [covers, hb, hs', mod_eq_of_lt (by omega), mod_eq_of_lt (by omega)]
  simp [slotOf, TWLevel.unit]

namespace TimerWheel

variable {w : TimerWheel} {e : TWEntry}

def entries (w : TimerWheel) : Multiset TWEntry := allEntries w.levels w.future

structure Arranged (w : TimerWheel) : Prop where
  shape : w.levels.map TWLevel.shape = [(1024, 0), (64, 10), (64, 16), (64, 22)]
  base : w.base = w.now / 1024 * 1024
  fits : w.now + 2 ^ 29 < 2 ^ 64
  placed : Placed 1 w.now w.levels w.future

/-- The levels are those of `timer_wheel_new`, and the first one begins at `base`. -/
structure Framed (w : TimerWheel) : Prop where
  shape : w.levels.map TWLevel.shape = [(1024, 0), (64, 10), (64, 16), (64, 22)]
  base : w.base = w.now / 1024 * 1024

theorem Arranged.framed (h : w.Arranged) : w.Framed := ⟨h.shape, h.base⟩

theorem Framed.exists_levels (h : w.Framed) : ∃ s₀ s₁ s₂ s₃,
    w.levels = [⟨1024, 0, s₀⟩, ⟨64, 10, s₁⟩, ⟨64, 16, s₂⟩, ⟨64, 22, s₃⟩] := by
  have hs := h.shape
  simp only [map_eq_cons_iff, map_eq_nil_iff] at hs
  obtain ⟨⟨_, _, s₀⟩, _, hl, h₀, ⟨_, _, s₁⟩, _, rfl, h₁, ⟨_, _, s₂⟩, _, rfl, h₂,
    ⟨_, _, s₃⟩, _, rfl, h₃, rfl⟩ := hs
  cases h₀
  cases h₁
  cases h₂
  cases h₃
  exact ⟨s₀, s₁, s₂, s₃, hl⟩

theorem inSight {target : ℕ} (h : w.Arranged) (hle : w.now ≤ target)
    (htm : OnTime w.now target) : InSight w.now w.base target 1 w.now w.levels := by
  obtain ⟨s₀, s₁, s₂, s₃, hl⟩ := h.framed.exists_levels
  have hft := h.fits
  have hb := h.base
  obtain ⟨hfr, hs, ht, hf⟩ := htm
  rw [hl, hb]
  generalize w.now = now at *
  have h₀ := TWLevel.covers_iff s₀ target (rfl : 2 ^ 0 = 1) (rfl : 1 * 1024 = 1024)
    (by norm_num) (by omega : now + 2 * 1024 < 2 ^ 64)
  have h₁ := TWLevel.covers_iff s₁ target (rfl : 2 ^ 10 = 1024) (rfl : 1024 * 64 = 65536)
    (by norm_num) (by omega : now + 2 * 65536 < 2 ^ 64)
  have h₂ := TWLevel.covers_iff s₂ target (rfl : 2 ^ 16 = 65536) (rfl : 65536 * 64 = 4194304)
    (by norm_num) (by omega : now + 2 * 4194304 < 2 ^ 64)
  have h₃ := TWLevel.covers_iff s₃ target (rfl : 2 ^ 22 = 4194304)
    (rfl : 4194304 * 64 = 268435456) (by norm_num) (by omega : now + 2 * 268435456 < 2 ^ 64)
  simp only [InSight, ← Bool.not_eq_true, h₀, h₁, h₂, h₃]
  clear h₀ h₁ h₂ h₃
  refine ⟨fun h => ?_, fun h₀ => ⟨fun h => ?_, fun h₁ => ⟨fun h => ?_, fun h₂ => ⟨fun h => ?_,
    fun h₃ => ?_⟩⟩⟩⟩
  · clear hs ht hf
    omega
  · clear hfr hs ht hf
    omega
  · clear hfr ht hf h₀
    omega
  · clear hfr hs hf h₀ h₁
    omega
  · clear hfr hs ht h₀ h₁ h₂
    omega

theorem Framed.num_pos (h : w.Framed) : ∀ level ∈ w.levels, 0 < level.num := by
  obtain ⟨s₀, s₁, s₂, s₃, hl⟩ := h.exists_levels
  simp [hl]

theorem arranged_new : new.Arranged where
  shape := rfl
  base := rfl
  fits := by decide
  placed := by
    have hem : ∀ bits shift first, (TWLevel.new bits shift).Ahead first :=
      fun _ _ _ _ _ he => absurd he not_mem_nil
    exact ⟨⟨rfl, by decide⟩, hem _ _ _, ⟨rfl, by decide⟩, hem _ _ _, ⟨rfl, by decide⟩,
      hem _ _ _, ⟨rfl, by decide⟩, hem _ _ _, fun _ he => absurd he not_mem_nil⟩

@[simp] theorem now_addEntry (w : TimerWheel) (e : TWEntry) : (w.addEntry e).now = w.now := by
  unfold addEntry
  split <;> rfl

@[simp] theorem numTimers_addEntry (w : TimerWheel) (e : TWEntry) :
    (w.addEntry e).numTimers = w.numTimers := by
  unfold addEntry
  split <;> rfl

theorem Framed.addEntry (h : w.Framed) (e : TWEntry) : (w.addEntry e).Framed := by
  unfold TimerWheel.addEntry
  split
  · next levels heq => exact ⟨(shape_addTimerEntry heq).trans h.shape, h.base⟩
  · exact ⟨h.shape, h.base⟩

theorem Arranged.addEntry (h : w.Arranged) (hle : w.now ≤ e.target)
    (ht : OnTime w.now e.target) : (w.addEntry e).Arranged := by
  obtain ⟨hs, hn⟩ := placed_addTimerEntry h.placed (inSight h hle ht)
  have hf := h.framed.addEntry e
  unfold TimerWheel.addEntry at hf ⊢
  split at hf
  · next levels heq => exact ⟨hf.shape, hf.base, h.fits, hs _ heq⟩
  · next heq => exact ⟨hf.shape, hf.base, h.fits, hn heq⟩

theorem Arranged.entries_addEntry (h : w.Arranged) : (w.addEntry e).entries = e ::ₘ w.entries := by
  unfold TimerWheel.addEntry
  split
  · next levels heq => exact allEntries_addTimerEntry h.framed.num_pos heq
  · rw [entries, allEntries, ← Multiset.cons_coe, Multiset.add_cons, entries, allEntries]

theorem Framed.unlink (h : w.Framed) (id : ℕ) : (w.unlink id).Framed where
  shape := by
    rw [← h.shape, TimerWheel.unlink, List.map_map]
    exact map_congr_left fun level _ => rfl
  base := h.base

theorem Arranged.unlink (h : w.Arranged) (id : ℕ) : (w.unlink id).Arranged where
  shape := (h.framed.unlink id).shape
  base := h.base
  fits := h.fits
  placed := placed_unlink id h.placed

theorem entries_unlink (id : ℕ) :
    (w.unlink id).entries = w.entries.filter (fun e => (e.id != id) = true) :=
  allEntries_unlink id

theorem Arranged.jump {newNow : ℕ} (h : w.Arranged) (he : w.entries = 0)
    (hf : newNow + 2 ^ 29 < 2 ^ 64) : (w.jump newNow).Arranged where
  shape := h.shape
  base := rfl
  fits := hf
  placed := placed_of_empty h.placed he

theorem Arranged.exists_cons (h : w.Arranged) : ∃ level rest, w.levels = level :: rest ∧
    level.num = 1024 ∧ level.unit = 1 ∧ level.Ahead w.now ∧
    Placed 1024 (w.now / 1024 + 1) rest w.future := by
  obtain ⟨s₀, s₁, s₂, s₃, hl⟩ := h.framed.exists_levels
  have hp := h.placed
  rw [hl] at hp
  refine ⟨_, _, hl, rfl, rfl, hp.2.1, ?_⟩
  have hr := hp.2.2
  exact hr

/-- What expires is due. -/
theorem Arranged.target_of_expire (h : w.Arranged) (he : e ∈ w.expire.1) : e.target = w.now := by
  obtain ⟨level, rest, hl, hn, hu, ha, -⟩ := h.exists_cons
  simp only [expire, hl, slotOf, hu, Nat.div_one] at he
  have hd := ha.due he
  rwa [hu, Nat.div_one] at hd

theorem Arranged.entries_expire (h : w.Arranged) : w.entries = w.expire.1 + w.expire.2.entries := by
  obtain ⟨level, rest, hl, hn, hu, ha, -⟩ := h.exists_cons
  have hs : level.slotOf w.now < level.num := mod_lt _ (by omega)
  simp only [expire, hl, entries, allEntries_cons]
  rw [level.contents_clear' hs, add_assoc]

/-- Every revolution begins at a multiple of 1024. -/
theorem Framed.base_div (h : w.Framed) (hf : w.now + 2 ^ 29 < 2 ^ 64) : ∀ level ∈ w.levels,
    w.base / level.span = w.now / level.span ∧ w.now + 2 * level.span < 2 ^ 64 := by
  obtain ⟨s₀, s₁, s₂, s₃, hl⟩ := h.exists_levels
  have hb := h.base
  rw [hl]
  norm_num [TWLevel.span, TWLevel.unit]
  omega

theorem Framed.expire (h : w.Framed) : w.expire.2.Framed := by
  obtain ⟨s₀, s₁, s₂, s₃, hl⟩ := h.exists_levels
  simp only [TimerWheel.expire, hl]
  exact ⟨rfl, h.base⟩

theorem Framed.next (h : w.Framed) (hf : w.now + 1 < 2 ^ 64) : w.next.Framed := by
  obtain ⟨s₀, s₁, s₂, s₃, hl⟩ := h.exists_levels
  have hs := h.shape
  have hb := h.base
  rw [hl] at hs
  simp only [TimerWheel.next, hl, slotOf, TWLevel.unit, pow_zero, Nat.div_one]
  split_ifs with hls
  · refine ⟨shape_cascade.trans hs, ?_⟩
    dsimp only
    omega
  · exact ⟨hs, hb.trans (by rw [succ_div_of_mod_ne (by omega : (w.now + 1) % 1024 ≠ 0)])⟩

/-- The time goes on, behind the last slot of a revolution after cascading. -/
theorem arranged_next {level : TWLevel} {rest : List TWLevel} (h : w.Framed)
    (hl : w.levels = level :: rest) (hn : level.num = 1024) (hu : level.unit = 1)
    (hf : w.now + 1 + 2 ^ 29 < 2 ^ 64) (ha : level.Ahead (w.now + 1))
    (hr : Placed 1024 (w.now / 1024 + 1) rest w.future) :
    w.next.Arranged ∧ w.next.entries = w.entries := by
  have hsl : level.slotOf w.now = w.now % 1024 := by
    rw [slotOf, hu, hn, Nat.div_one]
  have hd := h.base_div (by omega)
  have hp := h.num_pos
  have hfr := h.next (by omega)
  rw [hl] at hd hp
  simp only [next, hl, hsl, hn, entries] at hfr ⊢
  split_ifs at hfr ⊢ with hls
  · have he : (w.now + 1) % 1024 = 0 := by omega
    refine ⟨⟨hfr.shape, hfr.base, hf, ?_⟩, allEntries_cascade hp⟩
    refine placed_cascade hu (by omega) ha (by rwa [hn]) ?_ ?_ hd
    · rw [hn, one_mul]
      exact hr
    · rw [hn, one_mul]
  · have hsm : (w.now + 1) / 1024 = w.now / 1024 := succ_div_of_mod_ne (by omega)
    refine ⟨⟨hfr.shape, hfr.base, hf, ⟨⟨hu, by omega⟩, ha, ?_⟩⟩, rfl⟩
    rw [hn, one_mul, hsm]
    exact hr

/-- The wheel behind the calls: the first level looks ahead from the next time on. -/
theorem Arranged.expire (h : w.Arranged) : ∃ level rest, w.expire.2.levels = level :: rest ∧
    level.num = 1024 ∧ level.unit = 1 ∧ level.Ahead (w.now + 1) ∧
    Placed 1024 (w.now / 1024 + 1) rest w.expire.2.future := by
  obtain ⟨level, rest, hl, hn, hu, ha, hr⟩ := h.exists_cons
  have hsl : level.slotOf w.now = w.now % level.num := by
    rw [slotOf, hu, Nat.div_one]
  simp only [TimerWheel.expire, hl, hsl]
  exact ⟨_, _, rfl, hn, hu, ha.advance, hr⟩

@[simp] theorem now_next (w : TimerWheel) : w.next.now = w.now + 1 := by
  unfold next
  split
  · rfl
  · split_ifs <;> rfl

@[simp] theorem numTimers_next (w : TimerWheel) : w.next.numTimers = w.numTimers := by
  unfold next
  split
  · rfl
  · split_ifs <;> rfl

@[simp] theorem now_expire (w : TimerWheel) : w.expire.2.now = w.now := by
  unfold expire
  split <;> rfl

theorem Arranged.next_expire (h : w.Arranged) (hf : w.now + 1 + 2 ^ 29 < 2 ^ 64) :
    w.expire.2.next.Arranged ∧ w.expire.2.next.entries = w.expire.2.entries := by
  obtain ⟨level, rest, hl, hn, hu, ha, hr⟩ := h.expire
  rw [← now_expire w] at hf ha hr
  exact arranged_next h.framed.expire hl hn hu hf ha hr

theorem Arranged.jump_expire (h : w.Arranged) (he : w.expire.2.entries = 0) {newNow : ℕ}
    (hf : newNow + 2 ^ 29 < 2 ^ 64) : (w.expire.2.jump newNow).Arranged := by
  obtain ⟨level, rest, hl, hn, hu, ha, hr⟩ := h.expire
  rw [entries, hl, allEntries_cons, add_eq_zero] at he
  refine ⟨h.framed.expire.shape, rfl, hf, ?_⟩
  change Placed 1 newNow w.expire.2.levels w.expire.2.future
  rw [hl]
  refine ⟨⟨hu, by omega⟩, ha.of_empty (by omega) he.1, ?_⟩
  rw [hn, one_mul]
  exact placed_of_empty hr he.2

end TimerWheel

end SyslogNg.PatternDb
