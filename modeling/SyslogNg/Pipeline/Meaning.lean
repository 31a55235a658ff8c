import SyslogNg.Pipeline.Center

/-!
# What a configuration means

Log statements as functions on the contents of a message: every branch gets the contents as
they are where it forks off, and an element changes what comes after it on its own path. The
wiring into pipes keeps this meaning.
-/
namespace SyslogNg.Pipeline

open List Option

variable {V D S : Type*}

/-- Contents as seen by a processing element, or as handed to a destination. -/
inductive Obs (V D : Type*)
  | seen (c : V × TagSet)
  | handed (driver : D) (c : V × TagSet)
  deriving DecidableEq

/-- The elements of a rule, up to the first one that does not match. -/
def evalRule : List (ProcessPipe V) → V × TagSet → List (Obs V D) × Option (V × TagSet)
  | [], c => ([], some c)
  | pipe :: rule, c =>
    let out := pipe.process c
    if out.matched then
      let r := evalRule rule (out.result c)
      (.seen c :: r.1, r.2)
    else ([.seen c], none)

def Item.eval : Item V D S → V × TagSet → List (Obs V D) × Option (V × TagSet)
  | .source _, c => ([], some c)
  | .filter rule, c | .parser rule, c | .rewrite rule, c => evalRule rule c
  | .destination drivers, c => (drivers.map (.handed · c), some c)

def evalItems : List (Item V D S) → V × TagSet → List (Obs V D) × Option (V × TagSet)
  | [], c => ([], some c)
  | item :: items, c =>
    let r := item.eval c
    match r.2 with
    | none => r
    | some c' => (r.1 ++ (evalItems items c').1, (evalItems items c').2)

mutual

def Conn.eval : Conn V D S → V × TagSet → List (Obs V D) × Bool
  | ⟨items, forks, _⟩, c =>
    let r := evalItems items c
    match r.2 with
    | none => (r.1, false)
    | some c' =>
      let p₀ := evalRound forks false false c'
      (r.1 ++ (p₀.1 ++ if p₀.2 then [] else (evalRound forks true false c').1), true)

/-- The fallback statements, or the others, up to a final one that matches. -/
def evalRound : List (Conn V D S) → Bool → Bool → V × TagSet → List (Obs V D) × Bool
  | [], _, delivered, _ => ([], delivered)
  | conn :: conns, fallback, delivered, c =>
    if conn.flags.fallback = fallback then
      let r := conn.eval c
      if r.2 && conn.flags.final then (r.1, true)
      else
        let q := evalRound conns fallback (delivered || r.2) c
        (r.1 ++ q.1, q.2)
    else evalRound conns fallback delivered c

end

mutual

def Pipe.eval : Pipe V D → V × TagSet → List (Obs V D) × Bool
  | .null, _ => ([], true)
  | .process pipe next, c =>
    let out := pipe.process c
    if out.matched then
      let r := next.eval (out.result c)
      (.seen c :: r.1, r.2)
    else ([.seen c], false)
  | .group drivers, c => (drivers.map (.handed · c), true)
  | .mpx hops next, c =>
    let p₀ := hops.eval false false c
    let r := next.eval c
    (p₀.1 ++ (if hops.fallbackExists && !p₀.2 then (hops.eval true false c).1 else []) ++ r.1, r.2)

def Hops.eval : Hops V D → Bool → Bool → V × TagSet → List (Obs V D) × Bool
  | .nil, _, delivered, _ => ([], delivered)
  | .cons flags first rest, fallback, delivered, c =>
    if flags.fallback = fallback then
      let r := first.eval c
      if r.2 && flags.final then (r.1, true)
      else
        let q := rest.eval fallback (delivered || r.2) c
        (r.1 ++ q.1, q.2)
    else rest.eval fallback delivered c

end

/-! ### The wiring keeps the meaning -/

theorem Hops.eval_fallback_eq_nil {ho : Hops V D} (h : ho.fallbackExists = false)
    (delivered : Bool) (c : V × TagSet) : ho.eval true delivered c = ([], delivered) := by
  match ho with
  | .nil => rfl
  | .cons flags first rest =>
    simp only [Hops.fallbackExists, Bool.or_eq_false_iff] at h
    simp only [Hops.eval, h.1, Bool.false_eq_true, if_false]
    exact eval_fallback_eq_nil h.2 delivered c

/-- A multiplexer without anything behind it. -/
theorem Pipe.eval_mpx_null (ho : Hops V D) (c : V × TagSet) : (Pipe.mpx ho .null).eval c =
    ((ho.eval false false c).1 ++
      (if (ho.eval false false c).2 then [] else (ho.eval true false c).1), true) := by
  simp only [Pipe.eval, append_nil]
  cases hd : (ho.eval false false c).2 with
  | true => simp
  | false =>
    cases hf : ho.fallbackExists with
    | true => simp
    | false => simp [Hops.eval_fallback_eq_nil hf]

/-- The multiplexer for nested blocks is left out if there are none. -/
theorem Pipe.eval_tail (ho : Hops V D) (c : V × TagSet) :
    (if ho.isNil then Pipe.null else .mpx ho .null).eval c = ((ho.eval false false c).1 ++
        (if (ho.eval false false c).2 then [] else (ho.eval true false c).1), true) := by
  cases ho with
  | nil => rfl
  | cons flags first rest => exact Pipe.eval_mpx_null _ c

theorem eval_rule (rule : List (ProcessPipe V)) (next : Pipe V D) (c : V × TagSet) :
    (rule.foldr Pipe.process next).eval c = match (evalRule rule c : List (Obs V D) × _).2 with
      | none => ((evalRule rule c).1, false)
      | some c' => ((evalRule rule c).1 ++ (next.eval c').1, (next.eval c').2) := by
  induction rule generalizing c with
  | nil => simp [evalRule]
  | cons pipe rule ih =>
    simp only [foldr_cons, Pipe.eval, evalRule]
    cases hm : (pipe.process c).matched with
    | false => simp
    | true =>
      simp only [if_true, ih]
      cases hr : (evalRule rule ((pipe.process c).result c) : List (Obs V D) × _).2 <;> simp

theorem eval_append (item : Item V D S) (next : Pipe V D) (c : V × TagSet) :
    (item.append next).eval c = match (item.eval c).2 with
      | none => ((item.eval c).1, false)
      | some c' => ((item.eval c).1 ++ (next.eval c').1, (next.eval c').2) := by
  cases item with
  | source name => simp [Item.append, Item.eval]
  | filter rule => exact eval_rule rule next c
  | parser rule => exact eval_rule rule next c
  | rewrite rule => exact eval_rule rule next c
  | destination drivers =>
    simp [Item.append, Item.eval, Pipe.eval, Hops.eval, Hops.fallbackExists]

theorem eval_chain (items : List (Item V D S)) (tail : Pipe V D) (c : V × TagSet) :
    (items.foldr (fun item next => item.append next) tail).eval c = match (evalItems items c).2 with
      | none => ((evalItems items c).1, false)
      | some c' => ((evalItems items c).1 ++ (tail.eval c').1, (tail.eval c').2) := by
  induction items generalizing c with
  | nil => simp [evalItems]
  | cons item items ih =>
    simp only [foldr_cons, eval_append, evalItems]
    cases hi : (item.eval c).2 with
    | none => simp [hi]
    | some c' =>
      simp only [ih]
      cases hr : (evalItems items c').2 <;> simp

mutual

theorem Conn.eval_initPipeLine {conn : Conn V D S} {toplevel parent : Bool}
    {out : PipeFlags × Pipe V D} (h : conn.initPipeLine toplevel parent = some out)
    (c : V × TagSet) : out.1.fallback = conn.flags.fallback ∧ out.1.final = conn.flags.final ∧
      out.2.eval c = conn.eval c := by
  match conn with
  | ⟨items, forks, flags⟩ =>
    obtain ⟨-, h⟩ := ite_none_left_eq_some.mp h
    obtain ⟨ho, hh, h⟩ := bind_eq_some_iff.mp h
    obtain ⟨-, h⟩ := ite_none_left_eq_some.mp h
    cases h
    refine ⟨rfl, rfl, ?_⟩
    have hf := fun fallback delivered c' => eval_initForks hh fallback delivered c'
    simp only [eval_chain, Conn.eval, Pipe.eval_tail, hf]

theorem eval_initForks {forks : List (Conn V D S)} {flowControl : Bool} {ho : Hops V D}
    (h : initForks forks flowControl = some ho) (fallback delivered : Bool) (c : V × TagSet) :
    ho.eval fallback delivered c = evalRound forks fallback delivered c := by
  match forks with
  | [] =>
    cases h
    rfl
  | conn :: forks =>
    obtain ⟨first, hfr, hrs⟩ := bind_eq_some_iff.mp h
    obtain ⟨rest, hfo, rfl⟩ := map_eq_some_iff.mp hrs
    obtain ⟨hf, hfn, he⟩ := Conn.eval_initPipeLine hfr c
    have hr := fun delivered => eval_initForks hfo fallback delivered c
    simp only [Hops.eval, evalRound, hf, hfn, he, hr]

end

variable {conns : List (Conn V D S)}

end SyslogNg.Pipeline
