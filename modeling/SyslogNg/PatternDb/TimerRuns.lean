import SyslogNg.Foundations.Run
import SyslogNg.PatternDb.TimerPlacement

/-!
# Runs of the timer wheel

A run adds, modifies and deletes timers and sets the time. Each timer is called back once, when the
time of the wheel is the target it was given last, as long as no timer is added with a target that
the wheel takes for another revolution.
-/
namespace SyslogNg.PatternDb

open List Nat Function TimerWheel

/-- A wheel with what was asked of it: the largest time that was set, the target each timer was
given last, the timers that were deleted, and the calls with the time of the wheel at each. -/
structure Timers where
  wheel : TimerWheel
  time : ℕ
  given : ℕ → Option ℕ
  deleted : ℕ → Bool
  log : List (ℕ × ℕ)

inductive TimerOp
  | addTimer (id timeout : ℕ)
  | modTimer (id timeout : ℕ)
  | delTimer (id : ℕ)
  | setTime (newNow : ℕ)
  deriving DecidableEq

namespace Timers

def start : Timers := ⟨.new, 0, fun _ => none, fun _ => false, []⟩

def callbacks (s : Timers) (id : ℕ) : List ℕ := (s.log.filter (·.1 == id)).map (·.2)

def apply (s : Timers) : TimerOp → Timers
  | .addTimer id timeout =>
    { s with
      wheel := s.wheel.addTimer id timeout
      given := update s.given id (some (s.wheel.now + timeout)) }
  | .modTimer id timeout =>
    { s with
      wheel := s.wheel.modTimer id timeout
      given := update s.given id (some (s.wheel.now + timeout)) }
  | .delTimer id =>
    { s with
      wheel := s.wheel.delTimer id
      deleted := update s.deleted id true }
  | .setTime newNow =>
    { s with
      wheel := (s.wheel.setTime newNow).2
      time := max s.time newNow
      log := s.log ++ (s.wheel.setTime newNow).1 }

/-- A timer is added once; it is freed when it is called back or deleted. -/
def Allowed (s : Timers) : TimerOp → Prop
  | .addTimer id _ => s.given id = none
  | .modTimer id _ | .delTimer id =>
    (s.given id).isSome ∧ s.deleted id = false ∧ s.callbacks id = []
  | .setTime _ => True

/-- No time overflows, there are fewer than 2^32 timers, and the target is not one that the wheel
takes for another revolution. -/
def Timely (s : Timers) : TimerOp → Prop
  | .addTimer _ timeout =>
    s.wheel.now + timeout < 2 ^ 64 ∧ OnTime s.wheel.now (s.wheel.now + timeout) ∧
      s.wheel.numTimers + 1 < 2 ^ 32
  | .modTimer _ timeout =>
    s.wheel.now + timeout < 2 ^ 64 ∧ OnTime s.wheel.now (s.wheel.now + timeout)
  | .delTimer _ => True
  | .setTime newNow => newNow + 2 ^ 29 < 2 ^ 64

instance (s : Timers) : (op : TimerOp) → Decidable (s.Allowed op)
  | .addTimer id _ => inferInstanceAs (Decidable (s.given id = none))
  | .modTimer id _ | .delTimer id => inferInstanceAs
      (Decidable ((s.given id).isSome ∧ s.deleted id = false ∧ s.callbacks id = []))
  | .setTime _ => .isTrue trivial

instance (s : Timers) : (op : TimerOp) → Decidable (s.Timely op)
  | .addTimer _ timeout => inferInstanceAs (Decidable (s.wheel.now + timeout < 2 ^ 64 ∧
      OnTime s.wheel.now (s.wheel.now + timeout) ∧ s.wheel.numTimers + 1 < 2 ^ 32))
  | .modTimer _ timeout => inferInstanceAs (Decidable (s.wheel.now + timeout < 2 ^ 64 ∧
      OnTime s.wheel.now (s.wheel.now + timeout)))
  | .delTimer _ => .isTrue trivial
  | .setTime newNow => inferInstanceAs (Decidable (newNow + 2 ^ 29 < 2 ^ 64))

/-- The wheel has come to the largest time that was set. A timer that was not deleted was called
back once, at its target, if this time is later than the target, and not at all otherwise; a deleted
one was not called back. -/
def Exact (s : Timers) : Prop :=
  s.wheel.now = s.time ∧
  (∀ id target, s.given id = some target → s.deleted id = false →
    s.callbacks id = if target < s.time then [target] else []) ∧
  ∀ id, s.deleted id = true → s.callbacks id = []

end Timers

def timerSystem : System Timers TimerOp where
  init s := s = .start
  step s op s' := s.Allowed op ∧ s' = s.apply op

/-! ### What one call keeps -/

theorem le_target_of_placed {unit first : ℕ} {levels : List TWLevel} {future : List TWEntry}
    (h : Placed unit first levels future) {e : TWEntry} (he : e ∈ allEntries levels future) :
    first ≤ e.target / unit := by
  induction levels generalizing unit first with
  | nil => exact h e (by simpa [allEntries] using he)
  | cons level rest ih =>
    obtain ⟨⟨hu, hn⟩, ha, hr⟩ := h
    rw [allEntries_cons, Multiset.mem_add] at he
    rcases he with he | he
    · obtain ⟨slot, he⟩ := (ha.mem_contents (by omega)).mp he
      rw [← hu]
      exact (ha slot e he).2.1
    · have hle := ih hr he
      rw [← Nat.div_div_eq_div_mul, Nat.le_div_iff_mul_le (by omega)] at hle
      have hlt : first < level.num * (first / level.num + 1) := lt_mul_div_succ _ (by omega)
      rw [mul_comm] at hlt
      omega

theorem filter_id_of_nodup {l : List TWEntry} (hn : (l.map TWEntry.id).Nodup) {e : TWEntry}
    (he : e ∈ l) : l.filter (·.id == e.id) = [e] := by
  induction l with
  | nil => simp at he
  | cons a l ih =>
    rw [map_cons, nodup_cons] at hn
    rcases mem_cons.mp he with rfl | he
    · have hnn : l.filter (·.id == e.id) = [] := by
        rw [filter_eq_nil_iff]
        intro b hb hid
        exact hn.1 (List.mem_map.mpr ⟨b, hb, beq_iff_eq.mp hid⟩)
      rw [filter_cons_of_pos (by simp), hnn]
    · have hne : (a.id == e.id) = false := by
        apply beq_false_of_ne
        intro hid
        exact hn.1 (List.mem_map.mpr ⟨e, he, hid.symm⟩)
      rw [filter_cons_of_neg (by simp [hne]), ih hn.2 he]

namespace Timers

variable {s : Timers} {id timeout : ℕ}

structure Inv (s : Timers) : Prop where
  arranged : s.wheel.Arranged
  count : s.wheel.numTimers = s.wheel.entries.card
  few : s.wheel.numTimers < 2 ^ 32
  nodup : (s.wheel.entries.map TWEntry.id).Nodup
  pending : ∀ e ∈ s.wheel.entries,
    s.given e.id = some e.target ∧ s.deleted e.id = false ∧ s.callbacks e.id = []
  settled : ∀ id target, s.given id = some target → s.deleted id = false →
    ⟨id, target⟩ ∈ s.wheel.entries ∨ (s.callbacks id = [target] ∧ target < s.wheel.now)
  gone : ∀ id, s.given id = none ∨ s.deleted id = true → s.callbacks id = []
  fresh : ∀ id, s.given id = none → s.deleted id = false

theorem Inv.exact (h : s.Inv) (ht : s.wheel.now = s.time) : s.Exact := by
  refine ⟨ht, fun id target hg hd => ?_, fun id hd => h.gone id (.inr hd)⟩
  rw [← ht]
  rcases h.settled id target hg hd with hm | ⟨hc, hlt⟩
  · have hle := le_target_of_placed h.arranged.placed hm
    rw [Nat.div_one] at hle
    rw [(h.pending _ hm).2.2, if_neg hle.not_gt]
  · rw [hc, if_pos hlt]

theorem entries_new : TimerWheel.new.entries = 0 := by
  have he : ∀ bits shift, (TWLevel.new bits shift).contents = 0 := by
    intro bits shift
    simp [TWLevel.new, TWLevel.contents, TimingWheel.contents]
  simp only [entries, new, allEntries_cons, he]
  rfl

theorem inv_start : start.Inv := by
  have he : start.wheel.entries = 0 := entries_new
  refine ⟨arranged_new, ?_, Nat.two_pow_pos 32, ?_, ?_, ?_, ?_, ?_⟩
  · rw [he]
    rfl
  · rw [he]
    exact Multiset.nodup_zero
  · simp [he]
  · simp [start]
  · simp [start, callbacks]
  · simp [start]

section

variable (h : s.Inv)
include h

theorem Inv.mem_entries (hl : (s.given id).isSome ∧ s.deleted id = false ∧ s.callbacks id = []) :
    ∃ target, s.given id = some target ∧ ⟨id, target⟩ ∈ s.wheel.entries := by
  obtain ⟨target, hg⟩ := Option.isSome_iff_exists.mp hl.1
  rcases h.settled id target hg hl.2.1 with hm | ⟨hc, -⟩
  · exact ⟨target, hg, hm⟩
  · rw [hl.2.2] at hc
    cases hc

/-- Exactly one entry is unlinked. -/
theorem Inv.entries_eq_cons {target : ℕ} (hm : ⟨id, target⟩ ∈ s.wheel.entries) :
    s.wheel.entries = ⟨id, target⟩ ::ₘ (s.wheel.unlink id).entries := by
  obtain ⟨rest, hr⟩ := Multiset.exists_cons_of_mem hm
  have hn := h.nodup
  rw [hr, Multiset.map_cons, Multiset.nodup_cons] at hn
  rw [entries_unlink, hr]
  congr 1
  rw [Multiset.filter_cons_of_neg _ (by simp), Multiset.filter_eq_self.mpr]
  intro e he
  rw [bne_iff_ne]
  intro hid
  exact hn.1 (Multiset.mem_map.mpr ⟨e, he, hid⟩)

/-- A timer gets a target, and everything else is as it was. -/
theorem Inv.give {w : TimerWheel} {target : ℕ} {others : Multiset TWEntry}
    (ha : w.Arranged) (hnw : w.now = s.wheel.now)
    (hcn : w.numTimers = w.entries.card) (hf : w.numTimers < 2 ^ 32)
    (hen : w.entries = ⟨id, target⟩ ::ₘ others)
    (ho : ∀ e, e ∈ others ↔ e ∈ s.wheel.entries ∧ e.id ≠ id)
    (hn : (others.map TWEntry.id).Nodup) (hd : s.deleted id = false) (hcl : s.callbacks id = []) :
    Inv { s with wheel := w, given := update s.given id (some target) } := by
  have hs : ∀ id', id' ≠ id →
      update s.given id (some target) id' = s.given id' :=
    fun _ hne => update_of_ne hne ..
  refine ⟨ha, hcn, hf, ?_, ?_, ?_, ?_, ?_⟩
  · rw [hen, Multiset.map_cons, Multiset.nodup_cons]
    refine ⟨fun hm => ?_, hn⟩
    obtain ⟨e, he, hid⟩ := Multiset.mem_map.mp hm
    exact ((ho e).mp he).2 hid
  · intro e he
    rw [hen, Multiset.mem_cons] at he
    rcases he with rfl | he
    · exact ⟨update_self .., hd, hcl⟩
    · obtain ⟨hm, hne⟩ := (ho e).mp he
      obtain ⟨hg, hr⟩ := h.pending e hm
      exact ⟨(hs e.id hne).trans hg, hr⟩
  · intro id' target' hg hd'
    by_cases hid : id' = id
    · subst hid
      have hsl : update s.given id' (some target) id' = some target :=
        update_self ..
      have ht : some target = some target' := hsl.symm.trans hg
      cases ht
      exact .inl (hen ▸ Multiset.mem_cons_self _ _)
    · rcases h.settled id' target' ((hs id' hid).symm.trans hg) hd' with hm | hc
      · exact .inl (hen ▸ Multiset.mem_cons_of_mem ((ho _).mpr ⟨hm, hid⟩))
      · exact .inr ⟨hc.1, hnw ▸ hc.2⟩
  · intro id' hgn
    by_cases hid : id' = id
    · exact hid ▸ hcl
    · exact h.gone id' (hgn.imp_left (hs id' hid).symm.trans)
  · intro id' hg
    by_cases hid : id' = id
    · exact hid ▸ hd
    · exact h.fresh id' ((hs id' hid).symm.trans hg)

theorem inv_addTimer (hn : s.given id = none)
    (hok : s.Timely (.addTimer id timeout)) : (s.apply (.addTimer id timeout)).Inv := by
  obtain ⟨hf, ht, hfw⟩ := hok
  have hen : (s.wheel.addTimer id timeout).entries =
      ⟨id, s.wheel.now + timeout⟩ ::ₘ s.wheel.entries := by
    rw [← mod_eq_of_lt hf]
    exact h.arranged.entries_addEntry
  have hnm : (s.wheel.addTimer id timeout).numTimers = s.wheel.numTimers + 1 :=
    mod_eq_of_lt hfw
  have ha : (s.wheel.addTimer id timeout).Arranged := by
    have had := h.arranged.addEntry (e := ⟨id, (s.wheel.now + timeout) % 2 ^ 64⟩)
      (by rw [mod_eq_of_lt hf]; exact Nat.le_add_right ..)
      (by rw [mod_eq_of_lt hf]; exact ht)
    exact { had with }
  refine h.give ha (now_addEntry ..) ?_ (hnm ▸ hfw) hen ?_ h.nodup
    (h.fresh id hn) (h.gone id (.inl hn))
  · rw [hnm, hen, Multiset.card_cons, h.count]
  · intro e
    refine ⟨fun he => ⟨he, ?_⟩, And.left⟩
    rintro rfl
    have hg := (h.pending e he).1
    rw [hn] at hg
    cases hg

theorem inv_modTimer (hl : s.Allowed (.modTimer id timeout))
    (hok : s.Timely (.modTimer id timeout)) : (s.apply (.modTimer id timeout)).Inv := by
  obtain ⟨hf, ht⟩ := hok
  obtain ⟨target, -, hm⟩ := h.mem_entries hl
  have hc := h.entries_eq_cons hm
  have hu := h.arranged.unlink id
  have he : (s.wheel.modTimer id timeout).entries =
      ⟨id, s.wheel.now + timeout⟩ ::ₘ (s.wheel.unlink id).entries := by
    rw [← mod_eq_of_lt hf]
    exact hu.entries_addEntry
  have hnm : (s.wheel.modTimer id timeout).numTimers = s.wheel.numTimers :=
    numTimers_addEntry ..
  have ha : (s.wheel.modTimer id timeout).Arranged := by
    apply hu.addEntry
    · rw [mod_eq_of_lt hf]
      exact Nat.le_add_right ..
    · rw [mod_eq_of_lt hf]
      exact ht
  refine h.give ha (now_addEntry ..) ?_ (hnm ▸ h.few) he ?_ ?_
    hl.2.1 hl.2.2
  · rw [hnm, he, Multiset.card_cons, h.count, hc, Multiset.card_cons]
  · intro e
    rw [entries_unlink, Multiset.mem_filter, bne_iff_ne]
  · have hn := h.nodup
    rw [hc, Multiset.map_cons, Multiset.nodup_cons] at hn
    exact hn.2

theorem inv_delTimer (hl : s.Allowed (.delTimer id)) : (s.apply (.delTimer id)).Inv := by
  obtain ⟨target, -, hm⟩ := h.mem_entries hl
  have hcn := h.entries_eq_cons hm
  have hu := h.arranged.unlink id
  have hen : (s.wheel.delTimer id).entries = (s.wheel.unlink id).entries := by
    simp only [entries, delTimer]
  have ho : ∀ e, e ∈ (s.wheel.delTimer id).entries ↔ e ∈ s.wheel.entries ∧ e.id ≠ id := by
    intro e
    rw [hen, entries_unlink, Multiset.mem_filter, bne_iff_ne]
  have hco := h.count
  have hf := h.few
  rw [hcn, Multiset.card_cons] at hco
  have hnm : (s.wheel.delTimer id).numTimers = (s.wheel.unlink id).entries.card := by
    change (s.wheel.numTimers + (2 ^ 32 - 1)) % 2 ^ 32 = _
    omega
  have hw : (s.apply (.delTimer id)).wheel = s.wheel.delTimer id := rfl
  refine ⟨⟨hu.shape, hu.base, hu.fits, hu.placed⟩, ?_, ?_, ?_, ?_, ?_, ?_, ?_⟩
  · rw [hw, hnm, hen]
  · rw [hw]
    omega
  · have hn := h.nodup
    rw [hcn, Multiset.map_cons, Multiset.nodup_cons] at hn
    rw [hw, hen]
    exact hn.2
  · intro e he
    obtain ⟨hm, hne⟩ := (ho e).mp he
    have hp := h.pending e hm
    exact ⟨hp.1, (update_of_ne hne ..).trans hp.2.1, hp.2.2⟩
  · intro id' target' hg hd
    have hid : id' ≠ id := by
      rintro rfl
      simp [apply] at hd
    rw [show (s.apply (.delTimer id)).deleted id' = s.deleted id' from
      update_of_ne hid ..] at hd
    rcases h.settled id' target' hg hd with hm | hc
    · exact .inl ((ho _).mpr ⟨hm, hid⟩)
    · exact .inr hc
  · intro id' hgn
    by_cases hid : id' = id
    · exact hid ▸ hl.2.2
    · rw [show (s.apply (.delTimer id)).deleted id' = s.deleted id' from
        update_of_ne hid ..] at hgn
      exact h.gone id' hgn
  · intro id' hg
    have hid : id' ≠ id := by
      rintro rfl
      have hs := hl.1
      rw [show s.given id' = none from hg] at hs
      cases hs
    exact (update_of_ne hid ..).trans (h.fresh id' hg)

end

/-! ### The passing of time -/

def passed (s : Timers) (r : List (ℕ × ℕ) × TimerWheel) : Timers :=
  { s with wheel := r.2, log := s.log ++ r.1 }

theorem callbacks_passed (s : Timers) (expired : List TWEntry) (now : ℕ) (w : TimerWheel)
    (id : ℕ) : (s.passed (expired.map fun e => (e.id, now), w)).callbacks id =
      s.callbacks id ++ (expired.filter (·.id == id)).map fun _ => now := by
  simp [callbacks, passed, List.filter_map, comp_def]

theorem Inv.numTimers_expire (h : s.Inv) :
    s.wheel.expire.2.numTimers = s.wheel.expire.2.entries.card ∧
      s.wheel.expire.2.numTimers ≤ s.wheel.numTimers := by
  obtain ⟨level, rest, hl, -⟩ := h.arranged.exists_cons
  have hc := congrArg Multiset.card h.arranged.entries_expire
  rw [Multiset.card_add, Multiset.coe_card, ← h.count] at hc
  have hf := h.few
  have hn : s.wheel.expire.2.numTimers =
      (s.wheel.numTimers + (2 ^ 32 - s.wheel.expire.1.length % 2 ^ 32)) % 2 ^ 32 := by
    simp only [expire, hl]
  omega

/-- The entries that are due are called back; the wheel behind may be at any later time. -/
theorem Inv.passed_expire (h : s.Inv) {w : TimerWheel} (ha : w.Arranged)
    (hen : w.entries = s.wheel.expire.2.entries)
    (hnm : w.numTimers = s.wheel.expire.2.numTimers) (hlt : s.wheel.now < w.now) :
    (s.passed (s.wheel.expire.1.map fun e => (e.id, s.wheel.now), w)).Inv := by
  have hs := h.arranged.entries_expire
  have hnd := h.nodup
  rw [hs, Multiset.map_add, Multiset.nodup_add] at hnd
  obtain ⟨hex, hl, hds⟩ := hnd
  have hm : ∀ e ∈ s.wheel.expire.1, e ∈ s.wheel.entries := by
    intro e he
    rw [hs]
    exact Multiset.mem_add.mpr (.inl (Multiset.mem_coe.mpr he))
  -- who is not called back now
  have hq : ∀ id, (∀ e ∈ s.wheel.expire.1, e.id ≠ id) →
      (s.passed (s.wheel.expire.1.map fun e => (e.id, s.wheel.now), w)).callbacks id =
        s.callbacks id := by
    intro id hid
    have hn : s.wheel.expire.1.filter (·.id == id) = [] := by
      rw [filter_eq_nil_iff]
      intro e he heq
      exact hid e he (beq_iff_eq.mp heq)
    rw [callbacks_passed, hn, map_nil, append_nil]
  refine ⟨ha, ?_, ?_, ?_, ?_, ?_, ?_, h.fresh⟩
  · exact hnm.trans (h.numTimers_expire.1.trans (congrArg Multiset.card hen.symm))
  · exact hnm ▸ lt_of_le_of_lt h.numTimers_expire.2 h.few
  · exact hen ▸ hl
  · intro e he
    have he' : e ∈ s.wheel.expire.2.entries := hen ▸ he
    have hin : e ∈ s.wheel.entries := by
      rw [hs]
      exact Multiset.mem_add.mpr (.inr he')
    obtain ⟨hg, hd, hc⟩ := h.pending e hin
    refine ⟨hg, hd, (hq e.id fun e' he'' hid => ?_).trans hc⟩
    exact Multiset.disjoint_left.mp hds
      (Multiset.mem_map_of_mem TWEntry.id (Multiset.mem_coe.mpr he''))
      (hid ▸ Multiset.mem_map_of_mem TWEntry.id he')
  · intro id target hg hd
    rcases h.settled id target hg hd with hin | ⟨hc, hp⟩
    · rw [hs, Multiset.mem_add] at hin
      rcases hin with hin | hin
      · have hdu : target = s.wheel.now := h.arranged.target_of_expire (Multiset.mem_coe.mp hin)
        refine .inr ⟨?_, hdu ▸ hlt⟩
        rw [callbacks_passed, (h.pending _ (hm _ hin)).2.2,
          filter_id_of_nodup hex (Multiset.mem_coe.mp hin), hdu]
        rfl
      · exact .inl (hen ▸ hin)
    · refine .inr ⟨(hq id fun e he hid => ?_).trans hc, hp.trans hlt⟩
      have hn := (h.pending e (hm e he)).2.2
      rw [hid, hc] at hn
      cases hn
  · intro id hgn
    refine (hq id fun e he hid => ?_).trans (h.gone id hgn)
    obtain ⟨hg, hd, -⟩ := h.pending e (hm e he)
    rw [hid] at hg hd
    rcases hgn with hgn | hgn
    · rw [show s.given id = none from hgn] at hg
      cases hg
    · rw [show s.deleted id = true from hgn] at hd
      cases hd

theorem inv_advance {newNow n : ℕ} (h : s.Inv) (hn : s.wheel.now + n = newNow)
    (hf : newNow + 2 ^ 29 < 2 ^ 64) : (s.passed (s.wheel.advance newNow n)).Inv := by
  induction n generalizing s with
  | zero =>
    rw [advance, passed, append_nil]
    exact h
  | succ n ih =>
    obtain ⟨hc, -⟩ := h.numTimers_expire
    simp only [advance]
    split_ifs with hem
    · rw [hem] at hc
      have hnn : s.wheel.expire.2.entries = 0 := Multiset.card_eq_zero.mp hc.symm
      refine h.passed_expire (h.arranged.jump_expire hnn hf) rfl rfl ?_
      change s.wheel.now < newNow
      omega
    · obtain ⟨ha, he⟩ := h.arranged.next_expire (by omega)
      have hnw : s.wheel.expire.2.next.now = s.wheel.now + 1 := by simp
      have hs := h.passed_expire ha he (numTimers_next _) (by omega)
      have hr := ih hs (by change s.wheel.expire.2.next.now + n = newNow; omega)
      simp only [passed, append_assoc] at hr ⊢
      exact hr

theorem inv_setTime {newNow : ℕ} (h : s.Inv) (hok : s.Timely (.setTime newNow)) :
    (s.apply (.setTime newNow)).Inv := by
  suffices hp : (s.passed (s.wheel.setTime newNow)).Inv from { hp with }
  unfold setTime
  split_ifs with hp hn
  · rw [passed, append_nil]
    exact h
  · have hc := h.count
    rw [hn] at hc
    have he : s.wheel.entries = 0 := Multiset.card_eq_zero.mp hc.symm
    rw [passed, append_nil]
    refine ⟨h.arranged.jump he hok, h.count, h.few, h.nodup, h.pending, ?_, h.gone, h.fresh⟩
    intro id target hg hd
    rcases h.settled id target hg hd with hm | ⟨hcl, hlt⟩
    · exact .inl hm
    · refine .inr ⟨hcl, ?_⟩
      change target < newNow
      omega
  · exact inv_advance h (by omega) hok

theorem inv_apply {op : TimerOp} (h : s.Inv) (ha : s.Allowed op) (hok : s.Timely op) :
    (s.apply op).Inv := by
  cases op with
  | addTimer id timeout => exact inv_addTimer h ha hok
  | modTimer id timeout => exact inv_modTimer h ha hok
  | delTimer id => exact inv_delTimer h ha
  | setTime newNow => exact inv_setTime h hok

/-! ### The time of the wheel -/

theorem now_advance {w : TimerWheel} {newNow n : ℕ} (h : w.now + n = newNow) :
    (w.advance newNow n).2.now = newNow := by
  induction n generalizing w with
  | zero => exact h
  | succ n ih =>
    simp only [advance]
    split_ifs
    · rfl
    · exact ih (by simp only [now_next, now_expire]; omega)

theorem now_setTime (w : TimerWheel) (newNow : ℕ) :
    (w.setTime newNow).2.now = max w.now newNow := by
  unfold setTime
  split_ifs with hp
  · exact (max_eq_left hp).symm
  · exact (max_eq_right (not_le.mp hp).le).symm
  · rw [now_advance (by omega), max_eq_right (by omega)]

theorem now_apply (h : s.wheel.now = s.time) (op : TimerOp) :
    (s.apply op).wheel.now = (s.apply op).time := by
  cases op with
  | addTimer id timeout => exact (now_addEntry ..).trans h
  | modTimer id timeout => exact (now_addEntry ..).trans h
  | delTimer id => exact h
  | setTime newNow => exact (now_setTime ..).trans (congrArg (max · newNow) h)

/-! ### Exactness -/

/-- In every run whose timers are added on time, the wheel comes to the largest time that is set,
every timer that is not deleted is called back exactly once, when the time of the wheel is the
target it was given last, and no deleted timer is called back. -/
theorem timer_exact (h : (timerSystem.restrict Timely).Reachable s) : s.Exact := by
  have hi : s.Inv ∧ s.wheel.now = s.time := by
    refine h.invariant (I := fun s => s.Inv ∧ s.wheel.now = s.time) ?_ ?_
    · rintro _ rfl
      exact ⟨inv_start, rfl⟩
    · rintro s op _ ⟨hi, ht⟩ ⟨hok, ha, rfl⟩
      exact ⟨inv_apply hi ha hok, now_apply ht op⟩
  exact hi.1.exact hi.2

theorem reachable_of_along {ops : List TimerOp}
    (h : Along apply (fun s op => s.Timely op ∧ s.Allowed op) start ops) :
    (timerSystem.restrict Timely).Reachable (ops.foldl apply start) :=
  System.Reachable.trans_run (.init rfl)
    (h.run (M := timerSystem.restrict Timely) fun _ _ hok => ⟨hok.1, hok.2, rfl⟩)

/-- One timer is called back, another one is moved to a later time and a third one deleted. -/
theorem timer_exact_moved : ∃ s : Timers, s.callbacks 0 = [7] ∧ s.callbacks 1 = [] ∧
    s.callbacks 2 = [] ∧ s.given 1 = some 70005 ∧ s.time = 20 ∧ s.Exact := by
  let ops : List TimerOp := [.addTimer 0 7, .addTimer 1 10, .addTimer 2 12, .setTime 5,
    .modTimer 1 70000, .delTimer 2, .setTime 20]
  have ha : Along apply (fun s op => s.Timely op ∧ s.Allowed op) start ops := by
    decide +kernel
  exact ⟨ops.foldl apply start, by decide +kernel, by decide +kernel, by decide +kernel,
    by decide +kernel, by decide +kernel, timer_exact (reachable_of_along ha)⟩

/-- A timer that is added at the start of a revolution for its end is called back at once. -/
theorem timer_tooEarly : ∃ s : Timers, timerSystem.Reachable s ∧ s.given 0 = some 1024 ∧
    s.deleted 0 = false ∧ s.callbacks 0 = [0] ∧ ¬s.Exact := by
  let added := start.apply (.addTimer 0 1024)
  have hc : (added.apply (.setTime 1)).callbacks 0 = [0] := by decide +kernel
  have ha : timerSystem.Reachable added :=
    .step (a := TimerOp.addTimer 0 1024) (.init rfl) ⟨rfl, rfl⟩
  have hs := ha.step (a := TimerOp.setTime 1) ⟨trivial, rfl⟩
  refine ⟨added.apply (.setTime 1), hs, rfl, rfl, hc, fun he => ?_⟩
  have hcl := he.2.1 0 1024 rfl rfl
  rw [hc] at hcl
  cases hcl

end Timers
end SyslogNg.PatternDb
