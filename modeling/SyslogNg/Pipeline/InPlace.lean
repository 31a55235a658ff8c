import SyslogNg.Pipeline.Meaning

/-!
# The way of one message object

What a pipe does as seen from the object it is given: the contents, and who else reads what is
written to it. A branch of a multiplexer works on the object itself, or aside on a clone. Compared
with the meaning of the configuration, a branch can find contents that an earlier one left in the
object, and a change can reach a message in the queue of a destination.
-/
namespace SyslogNg.Pipeline

open List

variable {V D : Type*}

structure Object (V : Type*) where
  content : V × TagSet
  referenced : Bool
  queued : Bool
  values : Part
  tags : Part

namespace Object

variable (o : Object V)

def new (values : V) (tags : TagSet) : Object V :=
  ⟨(values, tags), false, false, ⟨true, false, false⟩, ⟨true, false, false⟩⟩

def store (out : Outcome V) : Object V where
  content := out.result o.content
  referenced := o.referenced
  queued := o.queued
  values := if out.values.isSome then o.values.write else o.values
  tags := if out.tags.isSome then o.tags.write else o.tags

/-- What is stored makes no difference for a message in the queue of a destination. -/
def Keeps (out : Outcome V) : Prop :=
  (∀ v ∈ out.values, o.values.exposed o.queued = true → v = o.content.1) ∧
    ∀ t ∈ out.tags, o.tags.exposed o.queued = true → t = o.content.2

def queue : Object V := { o with referenced := true, queued := true }

/-- A clone has the payload in common with the object, and its tags unless they are inline. -/
def clone : Object V :=
  ⟨o.content, false, false, ⟨false, false, false⟩, ⟨o.content.2.numTags = 0, false, false⟩⟩

/-- The object after the work on its clone `c`. -/
def back (c : Object V) : Object V :=
  { o with
    referenced := true
    values := o.values.lend (c.values.reads c.queued)
    tags := o.tags.lend (c.tags.reads c.queued) }

end Object

/-- What is seen on the way, whether the message matched, whether the messages in queues stay as
they are, whether all branches that look at the message are `given` what their multiplexer got, and
the object in the end. -/
structure Trace (V D : Type*) where
  obs : List (Obs V D)
  matched : Bool
  kept : Prop
  given : Prop
  object : Object V

namespace Trace

def append (t t' : Trace V D) : Trace V D :=
  ⟨t.obs ++ t'.obs, t'.matched, t.kept ∧ t'.kept, t.given ∧ t'.given, t'.object⟩

/-- It was `c'` that was given where the multiplexer got `c`. -/
def givenTo (t : Trace V D) (c' c : V × TagSet) : Trace V D :=
  { t with given := (c' = c ∨ t.obs = []) ∧ t.given }

end Trace

/-- What the hops of a multiplexer have in common in one round. -/
structure Fork (V : Type*) where
  content : V × TagSet
  fallback : Bool
  fallbackExists : Bool
  hasNext : Bool

/-- Nobody gets the message after the hop before `rest`. -/
def Fork.last (f : Fork V) (rest : Hops V D) (delivered : Bool) : Bool :=
  !f.hasNext && rest.isNil && (!f.fallbackExists || delivered || f.fallback)

mutual

def Pipe.inPlace : Pipe V D → Object V → Trace V D
  | .null, o => ⟨[], true, True, True, o⟩
  | .process pipe next, o =>
    let out := pipe.process o.content
    let t : Trace V D := ⟨[.seen o.content], false, o.Keeps out, True, o.store out⟩
    if out.matched then t.append (next.inPlace t.object) else t
  | .group drivers, o =>
    ⟨drivers.map (.handed · o.content), true, True, True, drivers.foldl (fun o _ => o.queue) o⟩
  | .mpx hops next, o =>
    let fork : Fork V := ⟨o.content, false, hops.fallbackExists, !next.isNull⟩
    let t₀ := hops.inPlace fork false o
    let t := if hops.fallbackExists && !t₀.matched then
      t₀.append (hops.inPlace { fork with fallback := true } false t₀.object) else t₀
    t.append ((next.inPlace t.object).givenTo t.object.content o.content)

/-- For the hops, `matched` is whether the message was delivered to one of them. -/
def Hops.inPlace : Hops V D → Fork V → Bool → Object V → Trace V D
  | .nil, _, delivered, o => ⟨[], delivered, True, True, o⟩
  | .cons flags first rest, fork, delivered, o =>
    if flags.fallback = fork.fallback then
      -- a hop that changes the message needs a clone, unless nobody else has it or gets it
      let aside := flags.clone && (o.referenced || !fork.last rest delivered)
      let r := (first.inPlace (if aside then o.clone else o)).givenTo o.content fork.content
      let t := { r with object := if aside then o.back r.object else r.object }
      if t.matched && flags.final then t
      else t.append (rest.inPlace fork (delivered || t.matched) t.object)
    else rest.inPlace fork delivered o

end

section Cons

variable (flags : PipeFlags) (first : Pipe V D) (rest : Hops V D) (fork : Fork V) (delivered : Bool)
  (o : Object V)

def Object.aside : Bool := flags.clone && (o.referenced || !fork.last rest delivered)

/-- What a hop does. -/
def Object.hop (aside : Bool) : Trace V D :=
  let r := (first.inPlace (if aside then o.clone else o)).givenTo o.content fork.content
  { r with object := if aside then o.back r.object else r.object }

variable {flags fork}

theorem Hops.inPlace_cons (h : flags.fallback = fork.fallback) :
    (Hops.cons flags first rest).inPlace fork delivered o =
      (let t := o.hop first fork (o.aside flags rest fork delivered)
      if t.matched && flags.final then t
      else t.append (rest.inPlace fork (delivered || t.matched) t.object)) := by
  rw [Hops.inPlace, if_pos h]
  rfl

theorem Hops.inPlace_cons_of_ne (h : flags.fallback ≠ fork.fallback) :
    (Hops.cons flags first rest).inPlace fork delivered o = rest.inPlace fork delivered o := by
  rw [Hops.inPlace, if_neg h]

end Cons

/-- Both rounds of a multiplexer. -/
def Hops.inPlaceRounds (ho : Hops V D) (fork : Fork V) (o : Object V) : Trace V D :=
  let t := ho.inPlace { fork with fallback := false } false o
  if ho.fallbackExists && !t.matched then
    t.append (ho.inPlace { fork with fallback := true } false t.object) else t

theorem Pipe.inPlace_mpx (ho : Hops V D) (next : Pipe V D) (o : Object V) :
    (Pipe.mpx ho next).inPlace o =
      (let t := ho.inPlaceRounds ⟨o.content, false, ho.fallbackExists, !next.isNull⟩ o
      t.append ((next.inPlace t.object).givenTo t.object.content o.content)) := by
  rw [Pipe.inPlace]
  rfl

def Hops.evalRounds (ho : Hops V D) (c : V × TagSet) : List (Obs V D) :=
  (ho.eval false false c).1 ++
    if ho.fallbackExists && !(ho.eval false false c).2 then (ho.eval true false c).1 else []

theorem Pipe.eval_mpx (ho : Hops V D) (next : Pipe V D) (c : V × TagSet) :
    (Pipe.mpx ho next).eval c = (ho.evalRounds c ++ (next.eval c).1, (next.eval c).2) := by
  rw [Pipe.eval]
  rfl

/-! ### The first to look -/

def Obs.content : Obs V D → V × TagSet
  | .seen c | .handed _ c => c

/-- The first to look, if anybody does, sees `c`. -/
def Headed (l : List (Obs V D)) (c : V × TagSet) : Prop := ∀ a ∈ l.head?, a.content = c

theorem Headed.append {l l' : List (Obs V D)} {c : V × TagSet} (h : Headed l c)
    (h' : l = [] → Headed l' c) : Headed (l ++ l') c := by
  cases l with
  | nil => exact h' rfl
  | cons a l => exact h

theorem headed_handed (drivers : List D) (c : V × TagSet) :
    Headed (drivers.map (.handed · c)) c := by
  cases drivers <;> simp [Headed, Obs.content]

mutual

theorem Pipe.headed_eval (p : Pipe V D) (c : V × TagSet) : Headed (p.eval c).1 c := by
  match p with
  | .null => simp [Pipe.eval, Headed]
  | .process pipe next =>
    simp only [Pipe.eval]
    split_ifs <;> simp [Headed, Obs.content]
  | .group drivers => exact headed_handed drivers c
  | .mpx ho next =>
    rw [Pipe.eval_mpx]
    refine ((ho.headed_eval false false c).append fun _ => ?_).append fun _ => next.headed_eval c
    split_ifs
    · exact ho.headed_eval true false c
    · simp [Headed]

theorem Hops.headed_eval (ho : Hops V D) (fallback delivered : Bool) (c : V × TagSet) :
    Headed (ho.eval fallback delivered c).1 c := by
  match ho with
  | .nil => simp [Hops.eval, Headed]
  | .cons flags first rest =>
    simp only [Hops.eval]
    split_ifs
    · exact first.headed_eval c
    · exact (first.headed_eval c).append fun _ => rest.headed_eval _ _ c
    · exact rest.headed_eval _ _ c

end

mutual

/-- If nobody looks, the contents make no difference. -/
theorem Pipe.eval_of_nil (p : Pipe V D) {c : V × TagSet} (h : (p.eval c).1 = []) (c' : V × TagSet) :
    p.eval c' = p.eval c := by
  match p with
  | .null => rfl
  | .process pipe next =>
    simp only [Pipe.eval] at h
    split_ifs at h
  | .group drivers => simp_all [Pipe.eval]
  | .mpx ho next =>
    rw [Pipe.eval_mpx] at h
    simp only [Hops.evalRounds, append_eq_nil_iff] at h
    obtain ⟨⟨h₀, h₁⟩, hn⟩ := h
    simp only [Pipe.eval, next.eval_of_nil hn c', ho.eval_of_nil h₀ c']
    split_ifs at h₁ ⊢
    · rw [ho.eval_of_nil h₁ c']
    · rfl

theorem Hops.eval_of_nil (ho : Hops V D) {fallback delivered : Bool} {c : V × TagSet}
    (h : (ho.eval fallback delivered c).1 = []) (c' : V × TagSet) :
    ho.eval fallback delivered c' = ho.eval fallback delivered c := by
  match ho with
  | .nil => rfl
  | .cons flags first rest =>
    simp only [Hops.eval] at h ⊢
    split_ifs at h with hs hf
    · simp only [if_pos hs, first.eval_of_nil h c', if_pos hf]
    · obtain ⟨hf', hr⟩ := append_eq_nil_iff.mp h
      simp only [if_pos hs, first.eval_of_nil hf' c', if_neg hf, rest.eval_of_nil hr c']
    · simp only [if_neg hs, rest.eval_of_nil h c']

end

/-- What is seen comes from the object, and what nobody sees does not change. -/
structure Trace.From (t : Trace V D) (o : Object V) : Prop where
  headed : Headed t.obs o.content
  unseen : t.obs = [] → t.object.content = o.content

theorem Trace.From.append {t t' : Trace V D} {o : Object V} (h : t.From o)
    (h' : t'.From t.object) : (t.append t').From o := by
  refine ⟨h.headed.append fun hn => h.unseen hn ▸ h'.headed, fun hn => ?_⟩
  obtain ⟨hn, hn'⟩ := append_eq_nil_iff.mp hn
  exact (h'.unseen hn').trans (h.unseen hn)

mutual

theorem Pipe.inPlace_from (p : Pipe V D) (o : Object V) : (p.inPlace o).From o := by
  match p with
  | .null => exact ⟨by simp [Pipe.inPlace, Headed], fun _ => rfl⟩
  | .process pipe next =>
    have ht : Trace.From (⟨[.seen o.content], false, o.Keeps (pipe.process o.content), True,
        o.store (pipe.process o.content)⟩ : Trace V D) o :=
      ⟨by simp [Headed, Obs.content], by simp⟩
    simp only [Pipe.inPlace]
    split_ifs
    · exact ht.append (next.inPlace_from _)
    · exact ht
  | .group drivers =>
    refine ⟨headed_handed drivers _, fun hn => ?_⟩
    obtain rfl := map_eq_nil_iff.mp hn
    rfl
  | .mpx ho next =>
    rw [Pipe.inPlace_mpx]
    refine Trace.From.append ?_ { next.inPlace_from _ with }
    simp only [Hops.inPlaceRounds]
    split_ifs
    · exact (ho.inPlace_from _ _ o).append (ho.inPlace_from _ _ _)
    · exact ho.inPlace_from _ _ o

theorem Hops.inPlace_from (ho : Hops V D) (fork : Fork V) (delivered : Bool) (o : Object V) :
    (ho.inPlace fork delivered o).From o := by
  match ho with
  | .nil => exact ⟨by simp [Hops.inPlace, Headed], fun _ => rfl⟩
  | .cons flags first rest =>
    by_cases hs : flags.fallback = fork.fallback
    · have hf : ∀ aside, (o.hop first fork aside).From o := fun aside => by
        cases aside with
        | true => exact ⟨(first.inPlace_from o.clone).headed, fun _ => rfl⟩
        | false => exact { first.inPlace_from o with }
      rw [Hops.inPlace_cons _ _ _ _ hs]
      dsimp only
      split_ifs
      · exact hf _
      · exact (hf _).append (rest.inPlace_from _ _ _)
    · rw [Hops.inPlace_cons_of_ne _ _ _ _ hs]
      exact rest.inPlace_from fork delivered o

end

/-! ### Compared with the meaning -/

/-- The two differ in an observation, after the same ones. -/
def Differ {α : Type*} (l l' : List α) : Prop :=
  ∃ p a b r r', l = p ++ a :: r ∧ l' = p ++ b :: r' ∧ a ≠ b

section Differ

variable {α : Type*} {l l' : List α}

theorem Differ.ne (h : Differ l l') : l ≠ l' := by
  obtain ⟨p, a, b, r, r', rfl, rfl, hne⟩ := h
  intro he
  exact hne (List.cons.inj (List.append_cancel_left he)).1

theorem Differ.ne_nil (h : Differ l l') : l ≠ [] ∧ l' ≠ [] := by
  obtain ⟨p, a, b, r, r', rfl, rfl, -⟩ := h
  simp

theorem Differ.append_left (h : Differ l l') (p : List α) : Differ (p ++ l) (p ++ l') := by
  obtain ⟨q, a, b, r, r', rfl, rfl, hne⟩ := h
  exact ⟨p ++ q, a, b, r, r', (append_assoc ..).symm, (append_assoc ..).symm, hne⟩

theorem Differ.append (h : Differ l l') (r r' : List α) : Differ (l ++ r) (l' ++ r') := by
  obtain ⟨p, a, b, q, q', rfl, rfl, hne⟩ := h
  exact ⟨p, a, b, q ++ r, q' ++ r', by simp, by simp, hne⟩

end Differ

theorem Headed.differ {l l' : List (Obs V D)} {c c' : V × TagSet} (h : Headed l c)
    (h' : Headed l' c') (hne : c ≠ c') (hl : l ≠ []) (hl' : l' ≠ []) : Differ l l' := by
  obtain ⟨a, r, rfl⟩ := exists_cons_of_ne_nil hl
  obtain ⟨b, r', rfl⟩ := exists_cons_of_ne_nil hl'
  refine ⟨[], a, b, r, r', rfl, rfl, ?_⟩
  rintro rfl
  exact hne ((h a rfl).symm.trans (h' a rfl))

/-- A trace shows what is meant, if what it takes is given, and something else otherwise. -/
structure Trace.Shows (t : Trace V D) (e : List (Obs V D) × Bool) : Prop where
  same : t.given → (t.obs, t.matched) = e
  differ : ¬t.given → Differ t.obs e.1

namespace Trace.Shows

variable {t t' : Trace V D} {e e' : List (Obs V D) × Bool}

theorem of_given (h : t.given) (he : (t.obs, t.matched) = e) : t.Shows e :=
  ⟨fun _ => he, fun hn => absurd h hn⟩

theorem append (h : t.Shows e) (h' : t'.Shows e') : (t.append t').Shows (e.1 ++ e'.1, e'.2) := by
  constructor
  · rintro ⟨hg, hg'⟩
    rw [← h.same hg, ← h'.same hg']
    rfl
  · intro hn
    by_cases hg : t.given
    · have hd := (h'.differ fun hg' => hn ⟨hg, hg'⟩).append_left t.obs
      rwa [← h.same hg]
    · exact (h.differ hg).append _ _

/-- A pipe that is given something else shows so, unless it does not look. -/
theorem givenTo {p : Pipe V D} {c c' : V × TagSet} (h : t.Shows (p.eval c'))
    (hd : Headed t.obs c') : (t.givenTo c' c).Shows (p.eval c) := by
  have hnil : t.obs = [] ↔ (p.eval c').1 = [] := by
    by_cases hg : t.given
    · rw [← h.same hg]
    · exact iff_of_false (h.differ hg).ne_nil.1 (h.differ hg).ne_nil.2
  constructor
  · rintro ⟨rfl | hn, hg⟩
    · exact h.same hg
    · rw [p.eval_of_nil (hnil.mp hn) c]
      exact h.same hg
  · intro hn
    by_cases hc : c' = c
    · subst hc
      exact h.differ fun hg => hn ⟨.inl rfl, hg⟩
    · have ho : t.obs ≠ [] := fun ho => (h.differ fun hg => hn ⟨.inr ho, hg⟩).ne_nil.1 ho
      refine hd.differ (p.headed_eval c) hc ho fun he => ho (hnil.mpr ?_)
      rw [p.eval_of_nil he c', he]

/-- Whatever comes after what already showed something else. -/
theorem of_not_given (h : t.Shows e) (hg : ¬t.given) (ht : t' = t ∨ ∃ q, t' = t.append q)
    (he : ∃ r, e'.1 = e.1 ++ r) : t'.Shows e' := by
  obtain ⟨r, hr⟩ := he
  have hd := (h.differ hg).append
  rcases ht with rfl | ⟨q, rfl⟩
  · exact ⟨fun hn => absurd hn hg, fun _ => by simpa [hr] using hd [] r⟩
  · exact ⟨fun hn => absurd hn.1 hg, fun _ => hr ▸ hd q.obs r⟩

end Trace.Shows

theorem Hops.shows_rounds {ho : Hops V D} (f : Fork V) (o : Object V)
    (hh : ∀ fallback o, (ho.inPlace { f with fallback := fallback } false o).Shows
      (ho.eval fallback false f.content)) :
    ∃ b, (ho.inPlaceRounds f o).Shows (ho.evalRounds f.content, b) := by
  have hs := hh false o
  simp only [Hops.inPlaceRounds, Hops.evalRounds]
  generalize ho.inPlace { f with fallback := false } false o = t at hs ⊢
  by_cases hg : t.given
  · rw [← congrArg Prod.snd (hs.same hg)]
    split_ifs
    · exact ⟨_, hs.append (hh true t.object)⟩
    · rw [append_nil]
      exact ⟨_, hs⟩
  · refine ⟨false, hs.of_not_given hg ?_ ⟨_, rfl⟩⟩
    split_ifs
    · exact .inr ⟨_, rfl⟩
    · exact .inl rfl

mutual

theorem Pipe.shows (p : Pipe V D) (o : Object V) : (p.inPlace o).Shows (p.eval o.content) := by
  match p with
  | .null => exact .of_given trivial rfl
  | .group _ => exact .of_given trivial rfl
  | .process pipe next =>
    have hf : Trace.Shows (⟨[.seen o.content], false, o.Keeps (pipe.process o.content), True,
        o.store (pipe.process o.content)⟩ : Trace V D) ([.seen o.content], false) :=
      .of_given trivial rfl
    simp only [Pipe.inPlace, Pipe.eval]
    split_ifs
    · exact hf.append (next.shows _)
    · exact hf
  | .mpx ho next =>
    rw [Pipe.inPlace_mpx, Pipe.eval_mpx]
    obtain ⟨_, hr⟩ := Hops.shows_rounds ⟨o.content, false, ho.fallbackExists, !next.isNull⟩ o
      fun fallback o => ho.shows _ false o
    exact hr.append ((next.shows _).givenTo (next.inPlace_from _).headed)

theorem Hops.shows (ho : Hops V D) (f : Fork V) (delivered : Bool) (o : Object V) :
    (ho.inPlace f delivered o).Shows (ho.eval f.fallback delivered f.content) := by
  match ho with
  | .nil => exact .of_given trivial rfl
  | .cons flags first rest =>
    by_cases hs : flags.fallback = f.fallback
    · have hf : ∀ aside, (o.hop first f aside).Shows (first.eval f.content) := fun aside => by
        cases aside with
        | true => exact { (first.shows o.clone).givenTo (first.inPlace_from o.clone).headed with }
        | false => exact { (first.shows o).givenTo (first.inPlace_from o).headed with }
      have hsh := hf (o.aside flags rest f delivered)
      rw [Hops.inPlace_cons _ _ _ _ hs]
      simp only [Hops.eval, if_pos hs]
      generalize o.hop first f (o.aside flags rest f delivered) = t at hsh ⊢
      by_cases hg : t.given
      · rw [← congrArg Prod.snd (hsh.same hg)]
        dsimp only
        split_ifs with hfn
        · rw [← hsh.same hg]
          exact .of_given hg (by simp [(Bool.and_eq_true_iff.mp hfn).1])
        · exact hsh.append (rest.shows f _ t.object)
      · refine hsh.of_not_given hg ?_ ?_
        · split_ifs
          · exact .inl rfl
          · exact .inr ⟨_, rfl⟩
        · split_ifs
          · exact ⟨[], (append_nil _).symm⟩
          · exact ⟨_, rfl⟩
    · rw [Hops.inPlace_cons_of_ne _ _ _ _ hs]
      simp only [Hops.eval, if_neg hs]
      exact rest.shows f delivered o

end

end SyslogNg.Pipeline
