import SyslogNg.Pipeline.InPlace

/-!
# Isolation of log paths

The traversal works on shared message objects. It does to them what the way of one object says, so
all elements and destinations see what the configuration means exactly if no branch finds what
another one left, and no change reaches a queue.
-/
namespace SyslogNg.Pipeline

open Store List Round Outcome Pipe Function

variable {V D S : Type*} {s s' : Store V} {m : ℕ} {e : Option ℕ × Option ℕ} {o : Object V}
  {ops ops' : List (Op V D)} {t t' : Trace V D} {flowControl b : Bool}

/-- Contents at the time an element looks at them or a destination gets them. -/
def Op.observation (s : Store V) : Op V D → List (Obs V D)
  | .eval m => [.seen (s.content m)]
  | .deliver d m _ => [.handed d (s.content m)]
  | _ => []

def observe : Store V → List (Op V D) → List (Obs V D)
  | _, [] => []
  | s, op :: ops => op.observation s ++ observe (s.apply op) ops

theorem observe_append (s : Store V) (ops ops' : List (Op V D)) :
    observe s (ops ++ ops') = observe s ops ++ observe (s.applyAll ops) ops' := by
  induction ops generalizing s with
  | nil => rfl
  | cons op ops ih => simp [observe, ih]

/-- Messages in queues stay as they are. -/
def Store.Spares (s : Store V) (op : Op V D) : Prop :=
  ∀ q, s.queued q = true → (s.apply op).content q = s.content q

/-! ### The store as seen from one object -/

namespace Store

structure Shows (s : Store V) (m : ℕ) (e : Option ℕ × Option ℕ) (o : Object V) : Prop where
  content : s.content m = o.content
  referenced : s.referenced m = o.referenced
  queued : s.queued m = o.queued
  payload : s.payload.Tracks s.size s.queued m e.1 o.values
  tags : s.tags.Tracks s.size s.queued m e.2 o.tags

structure Within (s s' : Store V) (m : ℕ) : Prop where
  payload : Cow.Within s.payload s'.payload s.size s'.size s.queued s'.queued m
  tags : Cow.Within s.tags s'.tags s.size s'.size s.queued s'.queued m
  referenced : ∀ q < s.size, q ≠ m → s'.referenced q = s.referenced q

theorem Shows.exists_clone (h : s.Shows m e o) :
    ∃ e', Cow.Cloned s.payload m s.size (s.cloneCow m).payload e'.1 ∧
      Cow.Cloned s.tags m s.size (s.cloneCow m).tags e'.2 ∧
      (s.cloneCow m).Shows s.size e' o.clone := by
  have hcp : Cow.Cloned s.payload m s.size (s.cloneCow m).payload
    (some (s.payload.handle m).cell) :=
    .share
  obtain ⟨entry, hct, hpt⟩ : ∃ entry, Cow.Cloned s.tags m s.size (s.cloneCow m).tags entry ∧
      o.clone.tags = ⟨entry.isNone, false, false⟩ := by
    have hn : o.content.2 = s.tags.read m := congrArg Prod.snd h.content.symm
    simp only [Object.clone, cloneCow, hn]
    split_ifs with h0
    · exact ⟨none, .copy, by simp [h0]⟩
    · exact ⟨_, .share, by simp [h0]⟩
  have hq : s.queued s.size = false := by
    by_contra hn
    exact (h.payload.watched_lt s.size (by simpa using hn)).false
  exact ⟨(some (s.payload.handle m).cell, entry), hcp, hct,
    (Prod.ext hcp.read_new hct.read_new).trans h.content, by simp [cloneCow, Object.clone], hq,
    h.payload.clone hcp, hpt ▸ h.tags.clone hct⟩

theorem Within.trans {s₁ : Store V} (h : s.Within s₁ m) (h' : s₁.Within s' m) (hm : m < s.size) :
    s.Within s' m :=
  ⟨h.payload.trans h'.payload hm, h.tags.trans h'.tags hm, fun q hq hne =>
    (h'.referenced q (hq.trans_le h.payload.size_le) hne).trans (h.referenced q hq hne)⟩

end Store

/-- The operations do to the store what the trace says. -/
structure Follows (s : Store V) (ops : List (Op V D)) (m : ℕ) (e : Option ℕ × Option ℕ)
    (t : Trace V D) : Prop where
  lt : m < s.size
  obs : observe s ops = t.obs
  kept : Along Store.apply Spares s ops ↔ t.kept
  shows : (s.applyAll ops).Shows m e t.object
  within : s.Within (s.applyAll ops) m

namespace Follows

theorem append (h : Follows s ops m e t) (h' : Follows (s.applyAll ops) ops' m e t') :
    Follows s (ops ++ ops') m e (t.append t') where
  lt := h.lt
  obs := by
    rw [observe_append, h.obs, h'.obs]
    rfl
  kept := along_append.trans (and_congr h.kept h'.kept)
  shows := by
    rw [applyAll_append]
    exact h'.shows
  within := by
    rw [applyAll_append]
    exact h.within.trans h'.within h.lt

theorem congr (h : Follows s ops m e t) (ho : t'.obs = t.obs) (hk : t'.kept ↔ t.kept)
    (hb : t'.object = t.object) : Follows s ops m e t' :=
  ⟨h.lt, h.obs.trans ho.symm, h.kept.trans hk.symm, hb ▸ h.shows, h.within⟩

/-- Operations on the counters only. -/
theorem idle (h : s.Shows m e o) (hi : ∀ op ∈ ops, s.apply op = s ∧ op.observation s = []) :
    Follows s ops m e ⟨[], b, True, True, o⟩ := by
  induction ops with
  | nil => exact ⟨h.payload.lt, rfl, iff_of_true trivial trivial, h, .refl, .refl, fun _ _ _ => rfl⟩
  | cons op ops ih =>
    obtain ⟨ha, ho⟩ := hi op mem_cons_self
    obtain ⟨hl, hob, hk, hs, hw⟩ := ih fun op' hop => hi op' (mem_cons_of_mem _ hop)
    refine ⟨hl, ?_, ?_, ?_, ?_⟩
    · simp [observe, ho, ha, hob]
    · refine iff_of_true ⟨fun q _ => by rw [ha], ?_⟩ trivial
      rw [ha]
      exact hk.mpr trivial
    · rwa [applyAll_cons, ha]
    · rwa [applyAll_cons, ha]

theorem drop (h : s.Shows m e o) :
    Follows s (drop m : List (Op V D)) m e ⟨[], b, True, True, o⟩ :=
  idle h (by simp [Pipeline.drop, Store.apply, Op.observation])

theorem append_drop (h : Follows s ops m e t) : Follows s (ops ++ Pipeline.drop m) m e t :=
  (h.append (drop (b := true) h.shows)).congr (append_nil _).symm (and_true _).symm.to_iff rfl

theorem setValues (h : s.Shows m e o) (v : V) : Follows s [(.setValues m v : Op V D)] m e
    ⟨[], b, o.values.exposed o.queued = true → v = o.content.1, True,
      { o with content := (v, o.content.2), values := o.values.write }⟩ where
  lt := h.payload.lt
  obs := rfl
  kept := by
    have hk := h.payload.kept_write_iff (a := v)
    rw [h.queued, show s.payload.read m = o.content.1 from congrArg Prod.fst h.content] at hk
    rw [← hk]
    simp [Along, Spares, Store.apply, Store.content]
  shows :=
    ⟨Prod.ext Cow.read_write_self (congrArg Prod.snd h.content :), h.referenced, h.queued,
      h.payload.write, h.tags⟩
  within := ⟨.write, .refl, fun _ _ _ => rfl⟩

theorem setTags (h : s.Shows m e o) (tags : TagSet) : Follows s [(.setTags m tags : Op V D)] m e
    ⟨[], b, o.tags.exposed o.queued = true → tags = o.content.2, True,
      { o with content := (o.content.1, tags), tags := o.tags.write }⟩ where
  lt := h.payload.lt
  obs := rfl
  kept := by
    have hk := h.tags.kept_write_iff (a := tags)
    rw [h.queued, show s.tags.read m = o.content.2 from congrArg Prod.snd h.content] at hk
    rw [← hk]
    simp [Along, Spares, Store.apply, Store.content]
  shows :=
    ⟨Prod.ext (congrArg Prod.fst h.content :) Cow.read_write_self, h.referenced, h.queued,
      h.payload, h.tags.write⟩
  within := ⟨.refl, .write, fun _ _ _ => rfl⟩

theorem deliver (h : s.Shows m e o) (d : D) (flowControl : Bool) :
    Follows s [(.deliver d m flowControl : Op V D)] m e
      ⟨[.handed d o.content], b, True, True, o.queue⟩ where
  lt := h.payload.lt
  obs := by simp [observe, Op.observation, h.content]
  kept := iff_of_true ⟨fun _ _ => rfl, trivial⟩ trivial
  shows :=
    ⟨h.content, update_self .., update_self .., h.payload.watch, h.tags.watch⟩
  within := ⟨.watch true, .watch true, fun _ _ hne => update_of_ne hne _ _⟩

/-- Work on a clone. -/
theorem aside (h : s.Shows m e o) (hf : ∀ e', (s.cloneCow m).Shows s.size e' o.clone →
      Follows (s.cloneCow m) ops s.size e' t) :
    Follows s (.clone m s.size :: ops) m e { t with object := o.back t.object } := by
  have hm := h.payload.lt
  obtain ⟨e', hcp, hct, hs₀⟩ := h.exists_clone
  obtain ⟨hl, hob, hk, hs, hw⟩ := hf _ hs₀
  have hp := h.payload.back hcp hw.payload hs.payload
  have ht := h.tags.back hct hw.tags hs.tags
  obtain ⟨hwp, -, hrp, hwm⟩ := hw.payload.of_clone hcp hm (h.payload.bound m hm)
  obtain ⟨hwt, -, hrt, -⟩ := hw.tags.of_clone hct hm (h.tags.bound m hm)
  have hrf : ∀ q < s.size, ((s.cloneCow m).applyAll ops).referenced q =
      update s.referenced m true q := by
    intro q hlt
    rw [hw.referenced q (hlt.trans (Nat.lt_succ_self _)) hlt.ne]
    exact update_of_ne hlt.ne _ _
  rw [hs.queued] at hp ht
  refine ⟨hm, hob, ?_, ⟨(Prod.ext hrp hrt).trans h.content, ?_, hwm.trans h.queued, hp, ht⟩,
    hwp, hwt, fun q hlt hne => ?_⟩
  · -- cloning itself changes nothing that was there
    refine (and_iff_right fun q hqq => ?_).trans hk
    have hlt := h.payload.watched_lt q hqq
    exact Prod.ext (hcp.read_old (h.payload.bound q hlt) hlt.ne)
      (hct.read_old (h.tags.bound q hlt) hlt.ne)
  · exact (hrf m hm).trans (update_self ..)
  · exact (hrf q hlt).trans (update_of_ne hne _ _)

theorem outcome (h : s.Shows m e o) (out : Outcome V) :
    Follows s (.eval m :: out.ops m : List (Op V D)) m e
      ⟨[.seen o.content], b, o.Keeps out, True, o.store out⟩ := by
  have he : Follows s [(.eval m : Op V D)] m e ⟨[.seen o.content], b, True, True, o⟩ :=
    ⟨h.payload.lt, by simp [observe, Op.observation, h.content],
      iff_of_true ⟨fun _ _ => rfl, trivial⟩ trivial, h, .refl, .refl, fun _ _ _ => rfl⟩
  rcases out with ⟨_ | v, _ | tags, matched⟩
  · exact he.congr rfl (by simp [Object.Keeps]) rfl
  · exact (he.append (setTags (b := b) h tags)).congr rfl (by simp [Object.Keeps, Trace.append]) rfl
  · exact (he.append (setValues (b := b) h v)).congr rfl (by simp [Object.Keeps, Trace.append]) rfl
  · have hv := setValues (D := D) (b := b) h v
    exact (he.append (hv.append (setTags (b := b) hv.shows tags))).congr rfl
      (by simp [Object.Keeps, Trace.append]) rfl

theorem deliveries (h : s.Shows m e o) (drivers : List D) :
    Follows s (deliveries drivers flowControl m) m e
      ⟨drivers.map (.handed · o.content), b, True, True, drivers.foldl (fun o _ => o.queue) o⟩ := by
  induction drivers generalizing s o with
  | nil => exact idle h (by simp [Pipeline.deliveries])
  | cons d drivers ih =>
    have hi : Follows s [(.addAck m : Op V D), .ref m] m e ⟨[], b, True, True, o⟩ :=
      idle h (by simp [Store.apply, Op.observation])
    have hd := hi.append (deliver (b := b) hi.shows d flowControl)
    exact (hd.append (ih hd.shows)).congr rfl (by simp [Trace.append]) rfl

end Follows

/-! ### Traversals -/

def Round.fork (round : Round) (c : V × TagSet) : Fork V :=
  ⟨c, round.fallback, round.fallbackExists, round.hasNext⟩

def Pipe.Followed (p : Pipe V D) : Prop :=
  ∀ {s : Store V} {m : ℕ} {e : Option ℕ × Option ℕ} {o : Object V} (flowControl : Bool),
    s.Shows m e o → Follows s (p.queue flowControl m s).1 m e (p.inPlace o) ∧
      (p.queue flowControl m s).2 = (p.inPlace o).matched

def Hops.Followed (ho : Hops V D) : Prop :=
  ∀ {s : Store V} {e : Option ℕ × Option ℕ} {o : Object V} (round : Round) (c : V × TagSet) (i : ℕ)
    (delivered : Bool), s.Shows round.m e o →
      Follows s (ho.queue round i delivered s).ops round.m e
      (ho.inPlace (round.fork c) delivered o) ∧
      (ho.queue round i delivered s).delivered = (ho.inPlace (round.fork c) delivered o).matched

theorem Pipe.Followed.process {next : Pipe V D} (hn : next.Followed) (pipe : ProcessPipe V) :
    (Pipe.process pipe next).Followed := by
  intro s m e o flowControl h
  have ho := Follows.outcome (D := D) (b := false) h (pipe.process o.content)
  simp only [Pipe.queue, Pipe.inPlace, h.content]
  split_ifs
  · obtain ⟨hf, hr⟩ := hn flowControl ho.shows
    exact ⟨ho.append hf, hr⟩
  · exact ⟨ho.append_drop, rfl⟩

theorem Pipe.followed_group (drivers : List D) : (Pipe.group drivers : Pipe V D).Followed := by
  intro s m e o flowControl h
  exact ⟨(Follows.deliveries h drivers).append_drop, rfl⟩

theorem Hops.Followed.rounds {ho : Hops V D} (hh : ho.Followed) (round : Round) (c : V × TagSet)
    (h : s.Shows round.m e o) :
    Follows s (ho.rounds round s).ops round.m e (ho.inPlaceRounds (round.fork c) o) := by
  obtain ⟨hf, hr⟩ := hh { round with fallback := false } c 0 false h
  simp only [Hops.rounds, Hops.inPlaceRounds]
  rw [show ({ round.fork c with fallback := false } : Fork V) =
    ({ round with fallback := false } : Round).fork c from rfl, ← hr]
  split_ifs
  · exact hf.append (hh { round with fallback := true } c 0 false hf.shows).1
  · rw [append_nil]
    exact hf

theorem Pipe.Followed.mpx {ho : Hops V D} {next : Pipe V D} (hh : ho.Followed)
    (hn : next.Followed) : (Pipe.mpx ho next).Followed := by
  intro s m e o flowControl h
  rw [Pipe.queue_mpx]
  have hf := hh.rounds ⟨m, false, ho.fallbackExists, !next.isNull, flowControl⟩ o.content h
  obtain ⟨hf', hr⟩ := hn flowControl hf.shows
  exact ⟨hf.append { hf' with }, hr⟩

section Hop

variable {round : Round} {flags : PipeFlags} {first : Pipe V D} {rest : Hops V D} {delivered : Bool}

theorem Store.Shows.clones_eq (h : s.Shows round.m e o) (c : V × TagSet) :
    round.clones flags rest delivered s = o.aside flags rest (round.fork c) delivered := by
  simp only [Round.clones, h.referenced]
  rfl

theorem Pipe.Followed.hop (hf : first.Followed) (h : s.Shows round.m e o) (c : V × TagSet)
    (flags : PipeFlags) (rest : Hops V D) (delivered : Bool) :
    Follows s (round.hopOps flags first rest delivered s) round.m e
        (o.hop first (round.fork c) (o.aside flags rest (round.fork c) delivered)) ∧
      (round.run flags first rest delivered s).2 =
        (o.hop first (round.fork c) (o.aside flags rest (round.fork c) delivered)).matched := by
  simp only [Round.hopOps, Round.run, h.clones_eq c]
  have hi : Follows s [(.addAck round.m : Op V D), .ref round.m] round.m e
      ⟨[], true, True, True, o⟩ :=
    .idle h (by simp [Store.apply, Op.observation])
  cases o.aside flags rest (round.fork c) delivered with
  | false =>
    obtain ⟨hf', hr⟩ := hf (round.flowControl || flags.hardFlowControl) hi.shows
    exact ⟨(hi.append hf').congr rfl (by simp [Object.hop, Trace.append, Trace.givenTo])
      rfl, hr⟩
  | true =>
    obtain ⟨_, -, -, hs⟩ := h.exists_clone
    obtain ⟨-, hm⟩ := hf (round.flowControl || flags.hardFlowControl) hs
    have ha := Follows.aside (D := D) hi.shows fun e' hs =>
      (hf (round.flowControl || flags.hardFlowControl) hs).1
    exact ⟨(hi.append ha).congr rfl (by simp [Object.hop, Trace.append, Trace.givenTo])
      rfl, hm⟩

end Hop

theorem Hops.Followed.cons {first : Pipe V D} {rest : Hops V D} (flags : PipeFlags)
    (hf : first.Followed) (hr : rest.Followed) : (Hops.cons flags first rest).Followed := by
  intro s e o round c i delivered h
  by_cases hs : flags.fallback = round.fallback
  · obtain ⟨hf', hm⟩ := hf.hop h c flags rest delivered
    rw [Hops.queue_cons _ _ _ _ _ hs, Hops.inPlace_cons _ _ _ _ hs]
    simp only [← hm]
    split_ifs with hfn
    · refine ⟨?_, (hm ▸ (Bool.and_eq_true_iff.mp hfn).1).symm⟩
      simpa only [Pass.cons, append_nil] using hf'
    · obtain ⟨hf₂, hr₂⟩ :=
        hr round c (i + 1) (delivered || (round.run flags first rest delivered s).2)
        hf'.shows
      exact ⟨hf'.append hf₂, hr₂⟩
  · rw [Hops.queue_cons_of_ne _ _ _ _ _ hs, Hops.inPlace_cons_of_ne _ _ _ _ hs]
    exact hr round c (i + 1) delivered h

mutual

theorem Pipe.followed : (p : Pipe V D) → p.Followed
  | .null => fun _ h => ⟨.drop h, rfl⟩
  | .process pipe next => Pipe.Followed.process next.followed pipe
  | .group drivers => Pipe.followed_group drivers
  | .mpx ho next => Pipe.Followed.mpx ho.followed next.followed

theorem Hops.followed : (ho : Hops V D) → ho.Followed
  | .nil => fun _ _ _ _ h => ⟨.idle h (by simp [Hops.queue]), rfl⟩
  | .cons flags first rest => Hops.Followed.cons flags first.followed rest.followed

end

/-! ### Whole configurations -/

end SyslogNg.Pipeline
