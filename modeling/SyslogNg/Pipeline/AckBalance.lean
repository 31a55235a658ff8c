import SyslogNg.Foundations.TokenTree
import SyslogNg.LogMsg.RefCount
import SyslogNg.Pipeline.Network

/-!
# One ack for each message of a source

The source thread walks through the pipeline while the destinations ack what they got. Each
traversal of a pipe gives up exactly one ack and one reference of the message it was called with;
the counters of a message and of its clones are trees of tokens.
-/
namespace SyslogNg.Pipeline

open LogMsg Round Function

variable {V D : Type*}

/-! ### The acks and references the source thread has -/

def take (f : ℕ → ℕ) (m : ℕ) : ℕ → ℕ := update f m (f m + 1)

def give (f : ℕ → ℕ) (m : ℕ) : ℕ → ℕ := update f m (f m - 1)

/-- The number of messages, and how many acks and references of each the source thread still has
to pass on or to give back. -/
structure Held where
  size : ℕ
  acks : ℕ → ℕ
  refs : ℕ → ℕ

namespace Held

def apply (h : Held) : Op V D → Held
  | .eval _ | .setValues .. | .setTags .. => h
  | .addAck m => { h with acks := take h.acks m }
  | .ref m => { h with refs := take h.refs m }
  | .ack m => { h with acks := give h.acks m }
  | .unref m => { h with refs := give h.refs m }
  | .deliver _ m _ => { h with acks := give h.acks m, refs := give h.refs m }
  | .clone m clone =>
    ⟨h.size + 1, update (give h.acks m) clone 1, update (give h.refs m) clone 1⟩

/-- The thread has an ack and a reference of the message it works on. -/
def Has (h : Held) (m : ℕ) : Prop := 0 < h.acks m ∧ 0 < h.refs m

def Owns (h : Held) : Op V D → Prop
  | .eval m | .setValues m _ | .setTags m _ | .addAck m | .ref m | .ack m | .deliver _ m _ =>
    h.Has m
  | .unref m => 0 < h.refs m
  | .clone m clone => h.Has m ∧ clone = h.size

structure On (h : Held) (m : ℕ) : Prop where
  has : h.Has m
  fresh : ∀ c, h.size ≤ c → h.acks c = 0 ∧ h.refs c = 0

/-- One ack and one reference of `m` less, after which there are `n` messages. -/
def spend (h : Held) (m n : ℕ) : Held := ⟨n, give h.acks m, give h.refs m⟩

/-- The operations give up one ack and one reference of `m`. -/
def Spends (h : Held) (m : ℕ) (s : Store V) (ops : List (Op V D)) : Prop :=
  Along apply Owns h ops ∧ ops.foldl apply h = h.spend m (s.applyAll ops).size

/-- All that they take is given up again. -/
def Keeps (h : Held) (s : Store V) (ops : List (Op V D)) : Prop :=
  Along apply Owns h ops ∧ ops.foldl apply h = { h with size := (s.applyAll ops).size }

variable {h : Held} {m : ℕ} {s : Store V} {ops ops' : List (Op V D)}

theorem On.lt (h' : h.On m) : m < h.size := by
  by_contra hge
  have := h'.fresh m (by omega)
  have := h'.has.1
  omega

theorem Keeps.on (hk : h.Keeps s ops) (hs : h.size = s.size) (hon : h.On m) :
    (ops.foldl apply h).On m := by
  have hle := s.size_le ops
  rw [hk.2]
  exact ⟨hon.has, fun c hc => hon.fresh c ((hs.trans_le hle).trans hc)⟩

theorem Keeps.size (hk : h.Keeps s ops) : (ops.foldl apply h).size = (s.applyAll ops).size := by
  rw [hk.2]

theorem keeps_nil (hs : h.size = s.size) : h.Keeps s ([] : List (Op V D)) := by
  obtain ⟨size, acks, refs⟩ := h
  subst hs
  exact ⟨trivial, rfl⟩

theorem Keeps.append (hk : h.Keeps s ops) (hk' : (ops.foldl apply h).Keeps (s.applyAll ops) ops') :
    h.Keeps s (ops ++ ops') := by
  refine ⟨along_append.mpr ⟨hk.1, hk'.1⟩, ?_⟩
  rw [List.foldl_append, hk'.2, hk.2, Store.applyAll_append]

theorem Keeps.spends (hk : h.Keeps s ops)
    (hs : (ops.foldl apply h).Spends m (s.applyAll ops) ops') : h.Spends m s (ops ++ ops') := by
  refine ⟨along_append.mpr ⟨hk.1, hs.1⟩, ?_⟩
  rw [List.foldl_append, hs.2, hk.2, Store.applyAll_append]
  rfl

theorem spends_drop (hon : h.On m) (hs : h.size = s.size) :
    h.Spends m s (drop m : List (Op V D)) :=
  ⟨⟨hon.has, hon.has.2, trivial⟩, by simp [drop, spend, apply, Store.apply, hs]⟩

end Held

open Held

section Pieces

variable {h : Held} {m : ℕ} {s : Store V}

theorem Outcome.keeps_ops (out : Outcome V) (hon : h.On m) (hs : h.size = s.size) :
    h.Keeps s (.eval m :: out.ops m : List (Op V D)) := by
  have hp := hon.has
  rcases out with ⟨_ | v, _ | t, b⟩ <;>
    simp [Outcome.ops, Keeps, Along, Owns, Held.apply, Store.apply, hs.symm, hp]

@[simp]
theorem give_take (f : ℕ → ℕ) (m : ℕ) : give (take f m) m = f := by
  simp [give, take]

theorem keeps_deliveries (drivers : List D) (flowControl : Bool) (hon : h.On m)
    (hs : h.size = s.size) : h.Keeps s (deliveries drivers flowControl m : List (Op V D)) := by
  induction drivers generalizing h s with
  | nil => exact keeps_nil hs
  | cons d drivers ih =>
    have hp := hon.has
    have hf : h.Keeps s [.addAck m, .ref m, .deliver d m flowControl] := by
      refine ⟨⟨hp, ?_, ?_, trivial⟩, ?_⟩
      · simp [Owns, Has, Held.apply, take, hp.2]
      · simp [Owns, Has, Held.apply, take]
      · simp [Held.apply, Store.apply, hs]
    exact hf.append (ih (hf.on hs hon) hf.size)

/-- What a hop is given is one more ack and reference, of the message or of a clone of it. -/
theorem Round.along_nextOps (round : Round) (clone : Bool) (hon : h.On round.m)
    (hs : h.size = s.size) : Along Held.apply Owns h (round.nextOps clone s : List (Op V D)) ∧
      ((round.nextOps clone s : List (Op V D)).foldl Held.apply h).On (round.nextMsg clone s) ∧
      ((round.nextOps clone s : List (Op V D)).foldl Held.apply h).size =
        (s.applyAll (round.nextOps clone s : List (Op V D))).size ∧
      ∀ n, ((round.nextOps clone s : List (Op V D)).foldl Held.apply h).spend
        (round.nextMsg clone s) n = { h with size := n } := by
  have hp := hon.has
  have hlt := hon.lt
  have hr : ({ h with acks := take h.acks round.m } : Held).Has round.m := by
    simp [Has, take, hp.2]
  cases clone with
  | false =>
    refine ⟨⟨hp, hr, trivial⟩, ⟨?_, fun c hc => ?_⟩, hs, fun n => ?_⟩
    · simp [nextOps, nextMsg, Held.apply, Has, take]
    · have hc' : h.size ≤ c := hc
      simp [nextOps, Held.apply, take, (hlt.trans_le hc').ne', hon.fresh c hc']
    · simp [nextOps, nextMsg, Held.apply, spend]
  | true =>
    have hf := hon.fresh s.size hs.le
    refine ⟨⟨hp, hr, ⟨?_, hs.symm⟩, trivial⟩, ⟨?_, fun c hc => ?_⟩, ?_, fun n => ?_⟩
    · simp [Held.apply, Has, take]
    · simp [nextOps, nextMsg, Held.apply, Has]
    · have hc' : h.size + 1 ≤ c := hc
      have hne : c ≠ s.size := by omega
      simp [nextOps, Held.apply, hne, hon.fresh c (by omega)]
    · simp [nextOps, Held.apply, Store.apply, Store.cloneCow, hs]
    · simp [nextOps, nextMsg, Held.apply, spend, give, take, hf]

end Pieces

def Pipe.Balanced (p : Pipe V D) : Prop :=
  ∀ (flowControl : Bool) (m : ℕ) (s : Store V) (h : Held), h.On m → h.size = s.size →
    h.Spends m s (p.queue flowControl m s).1

def Hops.Balanced (hops : Hops V D) : Prop :=
  ∀ (round : Round) (i : ℕ) (delivered : Bool) (s : Store V) (h : Held), h.On round.m →
    h.size = s.size → h.Keeps s (hops.queue round i delivered s).ops

theorem Pipe.balanced_process {pipe : ProcessPipe V} {next : Pipe V D} (hn : next.Balanced) :
    (Pipe.process pipe next).Balanced := by
  intro flowControl m s h hon hs
  have hk := Outcome.keeps_ops (D := D) (pipe.process (s.content m)) hon hs
  simp only [Pipe.queue]
  split_ifs
  · exact hk.spends (hn flowControl m _ _ (hk.on hs hon) hk.size)
  · exact hk.spends (spends_drop (hk.on hs hon) hk.size)

theorem Pipe.balanced_group (drivers : List D) : (Pipe.group drivers : Pipe V D).Balanced := by
  intro flowControl m s h hon hs
  have hk := keeps_deliveries drivers flowControl hon hs
  exact hk.spends (spends_drop (hk.on hs hon) hk.size)

theorem Hops.balanced_rounds {ho : Hops V D} (hh : ho.Balanced) (round : Round)
    (s : Store V) (h : Held) (hon : h.On round.m) (hs : h.size = s.size) :
    h.Keeps s (ho.rounds round s).ops := by
  have hf := hh { round with fallback := false } 0 false s h hon hs
  refine hf.append ?_
  split_ifs
  · exact hh { round with fallback := true } 0 false _ _ (hf.on hs hon) hf.size
  · exact keeps_nil hf.size

theorem Pipe.balanced_mpx {ho : Hops V D} {next : Pipe V D} (hh : ho.Balanced)
    (hn : next.Balanced) : (Pipe.mpx ho next).Balanced := by
  intro flowControl m s h hon hs
  rw [Pipe.queue_mpx]
  have hk := Hops.balanced_rounds hh
    ⟨m, false, ho.fallbackExists, !next.isNull, flowControl⟩ s h hon hs
  exact hk.spends (hn flowControl m _ _ (hk.on hs hon) hk.size)

theorem Round.keeps_hopOps {round : Round} (flags : PipeFlags) {first : Pipe V D}
    (rest : Hops V D) (delivered : Bool) {s : Store V} {h : Held} (hf : first.Balanced)
    (hon : h.On round.m) (hs : h.size = s.size) :
    h.Keeps s (round.hopOps flags first rest delivered s) := by
  obtain ⟨ha, hn, hsz, hsp⟩ := round.along_nextOps (D := D)
    (round.clones flags rest delivered s) hon hs
  obtain ⟨hrn, hr⟩ := hf (round.flowControl || flags.hardFlowControl) _ _ _ hn hsz
  refine ⟨along_append.mpr ⟨ha, hrn⟩, ?_⟩
  rw [hopOps, List.foldl_append, Store.applyAll_append]
  exact hr.trans (hsp _)

theorem Hops.balanced_cons {flags : PipeFlags} {first : Pipe V D} {rest : Hops V D}
    (hf : first.Balanced) (hr : rest.Balanced) : (Hops.cons flags first rest).Balanced := by
  intro round i delivered s h hon hs
  by_cases hsk : flags.fallback = round.fallback
  · rw [Hops.queue_cons _ _ _ _ _ hsk]
    have hk := keeps_hopOps flags rest delivered hf hon hs
    refine hk.append ?_
    split_ifs
    · exact keeps_nil hk.size
    · exact hr round (i + 1) _ _ _ (hk.on hs hon) hk.size
  · rw [Hops.queue_cons_of_ne _ _ _ _ _ hsk]
    exact hr round (i + 1) delivered s h hon hs

mutual

theorem Pipe.balanced : (p : Pipe V D) → p.Balanced
  | .null => fun _ _ _ _ hon hs => spends_drop hon hs
  | .process _ next => Pipe.balanced_process next.balanced
  | .group drivers => Pipe.balanced_group drivers
  | .mpx ho next => Pipe.balanced_mpx ho.balanced next.balanced

theorem Hops.balanced : (ho : Hops V D) → ho.Balanced
  | .nil => fun _ _ _ _ _ _ hs => keeps_nil hs
  | .cons _ first rest => Hops.balanced_cons first.balanced rest.balanced

end

end SyslogNg.Pipeline
