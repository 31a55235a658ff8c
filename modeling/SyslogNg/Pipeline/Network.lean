import SyslogNg.Pipeline.Message

/-!
# Pipes and multiplexers

`log_pipe_queue` over the pipes a configuration is wired into: processing elements
(`lib/filter.c`, `lib/logrewrite.c`, `lib/logparser.c`), multiplexers (`lib/logmpx.c`) and
groups of destination drivers (`lib/dgroup.c`). The traversal gives the operations on messages
in order, and whether `path_options->matched` was left alone.
-/
namespace SyslogNg.Pipeline

universe u v

variable {V : Type u} {D : Type v}

/-- What an element does to a message: new values, new tags, and whether it lets it pass. -/
structure Outcome (V : Type*) where
  values : Option V
  tags : Option TagSet
  matched : Bool

def Outcome.result (out : Outcome V) (c : V × TagSet) : V × TagSet :=
  (out.values.getD c.1, out.tags.getD c.2)

/-- A processing element; `clone` is whether it has `PIF_CLONE` set by its constructor. -/
structure ProcessPipe (V : Type*) where
  clone : Bool
  process : V × TagSet → Outcome V

/-- The verdict of a filter, and the values it sets if it stores its matches. -/
abbrev FilterExpr (V : Type*) := V × TagSet → Bool × Option V

/-- The flags a multiplexer looks at in its next hops. -/
structure PipeFlags where
  fallback : Bool
  final : Bool
  clone : Bool
  hardFlowControl : Bool

mutual

/-- A pipe with everything behind it. -/
inductive Pipe (V : Type u) (D : Type v)
  /-- `pipe_next` is `NULL`. -/
  | null
  | process (pipe : ProcessPipe V) (next : Pipe V D)
  | mpx (hops : Hops V D) (next : Pipe V D)
  | group (drivers : List D)

/-- The next hops of a multiplexer, each with the flags of its first pipe. -/
inductive Hops (V : Type u) (D : Type v)
  | nil
  | cons (flags : PipeFlags) (first : Pipe V D) (rest : Hops V D)

end

def Pipe.isNull : Pipe V D → Bool
  | .null => true
  | _ => false

namespace Hops

def isNil : Hops V D → Bool
  | .nil => true
  | .cons .. => false

def fallbackExists : Hops V D → Bool
  | .nil => false
  | .cons flags _ rest => flags.fallback || fallbackExists rest

end Hops

/-- What stays the same in one round of the loop of `log_multiplexer_queue`. -/
structure Round where
  m : ℕ
  fallback : Bool
  fallbackExists : Bool
  hasNext : Bool
  flowControl : Bool

def Round.last (r : Round) (rest : Hops V D) (delivered : Bool) : Bool :=
  !r.hasNext && rest.isNil && (!r.fallbackExists || delivered || r.fallback)

def Round.clones (r : Round) (flags : PipeFlags) (rest : Hops V D) (delivered : Bool)
    (s : Store V) : Bool := flags.clone && (s.referenced r.m || !r.last rest delivered)

def Round.nextMsg (r : Round) (clone : Bool) (s : Store V) : ℕ := if clone then s.size else r.m

/-- The reference is for the hop, or for the clone, which keeps it as long as it lives. -/
def Round.nextOps (r : Round) (clone : Bool) (s : Store V) : List (Op V D) :=
  .addAck r.m :: .ref r.m :: if clone then [.clone r.m s.size] else []

/-- A next hop that was given the message, or a clone of it, and whether it matched. -/
structure Call where
  index : ℕ
  m : ℕ
  flowControl : Bool
  matched : Bool
  deriving DecidableEq

/-- What one round did, and `delivered` after it. -/
structure Pass (V : Type u) (D : Type v) where
  ops : List (Op V D)
  calls : List Call
  delivered : Bool

def Pass.cons (ops : List (Op V D)) (call : Call) (p : Pass V D) : Pass V D :=
  ⟨ops ++ p.ops, call :: p.calls, p.delivered⟩

def Outcome.ops (out : Outcome V) (m : ℕ) : List (Op V D) :=
  (out.values.map fun v => .setValues m v).toList ++ (out.tags.map fun t => .setTags m t).toList

/-- `log_msg_drop` -/
def drop (m : ℕ) : List (Op V D) := [.ack m, .unref m]

def deliveries (drivers : List D) (flowControl : Bool) (m : ℕ) : List (Op V D) :=
  drivers.flatMap fun d => [.addAck m, .ref m, .deliver d m flowControl]

mutual

def Pipe.queue : Pipe V D → Bool → ℕ → Store V → List (Op V D) × Bool
  | .null, _, m, _ => (drop m, true)
  | .process pipe next, flowControl, m, s =>
    let out := pipe.process (s.content m)
    let ops := .eval m :: out.ops m
    if out.matched then
      let r := next.queue flowControl m (s.applyAll ops)
      (ops ++ r.1, r.2)
    else (ops ++ drop m, false)
  | .group drivers, flowControl, m, _ => (deliveries drivers flowControl m ++ drop m, true)
  | .mpx hops next, flowControl, m, s =>
    let round : Round := ⟨m, false, hops.fallbackExists, !next.isNull, flowControl⟩
    let p₀ := hops.queue round 0 false s
    let s₁ := s.applyAll p₀.ops
    let p₁ := if hops.fallbackExists && !p₀.delivered then
      hops.queue { round with fallback := true } 0 false s₁ else ⟨[], [], p₀.delivered⟩
    let r := next.queue flowControl m (s₁.applyAll p₁.ops)
    (p₀.ops ++ p₁.ops ++ r.1, r.2)

/-- One round over the next hops from position `i` on. -/
def Hops.queue : Hops V D → Round → ℕ → Bool → Store V → Pass V D
  | .nil, _, _, delivered, _ => ⟨[], [], delivered⟩
  | .cons flags first rest, round, i, delivered, s =>
    if flags.fallback = round.fallback then
      let clone := round.clones flags rest delivered s
      let m := round.nextMsg clone s
      let ops : List (Op V D) := round.nextOps clone s
      let flowControl := round.flowControl || flags.hardFlowControl
      let r := first.queue flowControl m (s.applyAll ops)
      -- `break` leaves the round only
      (if r.2 && flags.final then ⟨[], [], true⟩
        else rest.queue round (i + 1) (delivered || r.2) (s.applyAll (ops ++ r.1))).cons
        (ops ++ r.1) ⟨i, m, flowControl, r.2⟩
    else rest.queue round (i + 1) delivered s

end

section

variable (round : Round) (flags : PipeFlags) (first : Pipe V D) (rest : Hops V D) (i : ℕ)
  (delivered : Bool) (s : Store V)

/-- What the pipes behind a hop do with the message they get. -/
def Round.run : List (Op V D) × Bool :=
  let clone := round.clones flags rest delivered s
  let ops : List (Op V D) := round.nextOps clone s
  first.queue (round.flowControl || flags.hardFlowControl) (round.nextMsg clone s) (s.applyAll ops)

def Round.hopOps : List (Op V D) :=
  round.nextOps (round.clones flags rest delivered s) s ++
    (round.run flags first rest delivered s).1

def Round.call : Call :=
  ⟨i, round.nextMsg (round.clones flags rest delivered s) s,
    round.flowControl || flags.hardFlowControl, (round.run flags first rest delivered s).2⟩

variable {round flags}

theorem Hops.queue_cons (h : flags.fallback = round.fallback) :
    (Hops.cons flags first rest).queue round i delivered s =
      (if (round.run flags first rest delivered s).2 && flags.final then ⟨[], [], true⟩
        else rest.queue round (i + 1) (delivered || (round.run flags first rest delivered s).2)
          (s.applyAll (round.hopOps flags first rest delivered s))).cons
        (round.hopOps flags first rest delivered s)
        (round.call flags first rest i delivered s) := by
  rw [Hops.queue, if_pos h]
  rfl

theorem Hops.queue_cons_of_ne (h : flags.fallback ≠ round.fallback) :
    (Hops.cons flags first rest).queue round i delivered s =
      rest.queue round (i + 1) delivered s := by
  rw [Hops.queue, if_neg h]

end

def Hops.rounds (hops : Hops V D) (round : Round) (s : Store V) : Pass V D :=
  let p₀ := hops.queue { round with fallback := false } 0 false s
  let p₁ := if hops.fallbackExists && !p₀.delivered then
    hops.queue { round with fallback := true } 0 false (s.applyAll p₀.ops)
    else ⟨[], [], p₀.delivered⟩
  ⟨p₀.ops ++ p₁.ops, p₀.calls ++ p₁.calls, p₁.delivered⟩

theorem Pipe.queue_mpx (ho : Hops V D) (next : Pipe V D) (flowControl : Bool) (m : ℕ)
    (s : Store V) : (Pipe.mpx ho next).queue flowControl m s =
      (let p := ho.rounds ⟨m, false, ho.fallbackExists, !next.isNull, flowControl⟩ s
      let r := next.queue flowControl m (s.applyAll p.ops)
      (p.ops ++ r.1, r.2)) := by
  simp only [Pipe.queue, Hops.rounds, Store.applyAll_append]

end SyslogNg.Pipeline
