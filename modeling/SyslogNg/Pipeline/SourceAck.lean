import SyslogNg.Pipeline.AckBalance

/-!
# One call of the source's ack function

The source thread walks through the pipeline while the destinations ack what they got, in any
order. A message and its clones are a tree of counters; `ack_func` of a clone acks the original,
that of the source's message is the source's own. A clone that is freed gives up the reference
of its original.
-/
namespace SyslogNg.Pipeline

open LogMsg List Option Nat Function

variable {V D : Type*}

structure AckState (V D : Type*) where
  ackNeeded : Bool
  /-- What the source thread is still going to do. -/
  rest : List (Op V D)
  words : ℕ → Word
  original : ℕ → Option ℕ
  /-- Deliveries a destination has not acked yet, each with a reference. -/
  owed : List (D × ℕ)
  /-- Calls of `log_msg_clone_ack` that did not get to the original yet. The thread in it does
  nothing else before, which is not needed here. -/
  cloneAcks : List (ℕ × AckType)
  /-- References that are still to be given up. -/
  refs : List ℕ
  /-- Calls of the source's ack function. -/
  calls : List AckType

inductive AckLabel
  | source
  | destination (i : ℕ) (type : AckType)
  | cloneAck (i : ℕ)
  /-- A destination takes another reference, for a queue or a backlog. -/
  | ref (i : ℕ)
  | unref (i : ℕ)
  deriving DecidableEq

def noWindow : Tls := ⟨false, false, 0, 0, false, false⟩

def Op.isUnref : Op V D → Bool
  | .unref _ => true
  | _ => false

namespace AckState

/-- The ack function of the source gives up the reference of `log_source_queue`. -/
def ack (s : AckState V D) (ackNeeded : Bool) (m : ℕ) (type : AckType) : AckState V D :=
  let out := LogMsg.ack (s.words m) noWindow ackNeeded type
  let s := { s with words := update s.words m out.1 }
  match out.2.2, s.original m with
  | none, _ => s
  | some type, none => { s with calls := s.calls ++ [type], refs := m :: s.refs }
  | some type, some original => { s with cloneAcks := (original, type) :: s.cloneAcks }

def addAck (s : AckState V D) (m : ℕ) (word : Word) : AckState V D :=
  { s with words := update s.words m (LogMsg.addAck word noWindow s.ackNeeded).1 }

/-- `none` if the assertion fails. -/
def ref (s : AckState V D) (m : ℕ) : Option (AckState V D) :=
  (LogMsg.ref (s.words m) noWindow).map fun out => { s with words := update s.words m out.1 }

/-- With `log_msg_free` up to the `log_msg_unref` of the original. -/
def unref (s : AckState V D) (m : ℕ) : Option (AckState V D) :=
  (LogMsg.unref (s.words m) noWindow).map fun out =>
    { s with
      words := update s.words m out.1
      refs := if out.2.2 then (s.original m).toList ++ s.refs else s.refs }

def apply (s : AckState V D) : Op V D → Option (AckState V D)
  | .eval _ | .setValues .. | .setTags .. => some s
  | .addAck m => some (s.addAck m (s.words m))
  | .ref m => s.ref m
  | .ack m => some (s.ack s.ackNeeded m .processed)
  | .unref m => s.unref m
  -- the counters of a clone start with one reference and no ack
  | .clone m clone =>
    some { s.addAck clone 1#32 with original := update s.original clone (some m) }
  | .deliver driver m _ => some { s with owed := (driver, m) :: s.owed }

def exec (s : AckState V D) : AckLabel → Option (AckState V D)
  | .source => s.rest.head?.bind fun op => { s with rest := s.rest.tail }.apply op
  | .destination i type =>
    s.owed[i]?.map fun owed =>
      { s with owed := s.owed.eraseIdx i, refs := owed.2 :: s.refs }.ack s.ackNeeded owed.2 type
  | .cloneAck i =>
    s.cloneAcks[i]?.map fun call =>
      { s with cloneAcks := s.cloneAcks.eraseIdx i }.ack true call.1 call.2
  | .ref i =>
    s.owed[i]?.bind fun owed => (s.ref owed.2).map fun s => { s with refs := owed.2 :: s.refs }
  | .unref i => s.refs[i]?.bind fun m => { s with refs := s.refs.eraseIdx i }.unref m

/-- There is something to do for the label. -/
def Due (s : AckState V D) : AckLabel → Prop
  | .source => s.rest ≠ []
  | .destination i _ | .ref i => i < s.owed.length
  | .cloneAck i => i < s.cloneAcks.length
  | .unref i => i < s.refs.length

/-- A message on its way into `p` with one ack and one reference to be given back. The other
reference is kept for the ack function. -/
def start (p : Pipe V D) (values : V) (tags : TagSet) (ackNeeded flowControl : Bool) :
    AckState V D where
  ackNeeded := ackNeeded
  rest := (p.queue flowControl 0 (Store.new values tags)).1
  words := fun _ => (LogMsg.addAck 2#32 noWindow ackNeeded).1
  original := fun _ => none
  owed := []
  cloneAcks := []
  refs := []
  calls := []

/-- Nobody has an ack of the message or of a clone any more. -/
def finished (s : AckState V D) : Bool :=
  s.rest.all Op.isUnref && s.owed.isEmpty && s.cloneAcks.isEmpty

/-- The counter of a message that gets one more ack or reference is not at its maximum. -/
def Room (s : AckState V D) : Op V D → Prop
  | .addAck m => valueToAck (s.words m) + 1 < 2 ^ 15
  | .ref m => valueToRef (s.words m) + 1 < 2 ^ 15
  | _ => True

instance (s : AckState V D) : (op : Op V D) → Decidable (s.Room op)
  | .addAck _ | .ref _ => Nat.decLt _ _
  | .eval _ | .setValues .. | .setTags .. | .ack _ | .unref _ | .clone .. | .deliver .. =>
    .isTrue trivial

def RoomNext (s : AckState V D) : AckLabel → Prop
  | .source => ∀ op ∈ s.rest.head?, s.Room op
  | .ref i => ∀ owed ∈ s.owed[i]?, s.Room (.ref owed.2 : Op V D)
  | _ => True

instance (s : AckState V D) : (a : AckLabel) → Decidable (s.RoomNext a)
  | .source => inferInstanceAs (Decidable (∀ op ∈ s.rest.head?, s.Room op))
  | .ref i => inferInstanceAs (Decidable (∀ owed ∈ s.owed[i]?, s.Room (.ref owed.2 : Op V D)))
  | .destination .. | .cloneAck _ | .unref _ => .isTrue trivial

end AckState

def ackSystem (p : Pipe V D) (values : V) (tags : TagSet) (ackNeeded flowControl : Bool) :
    System (AckState V D) AckLabel where
  init s := s = .start p values tags ackNeeded flowControl
  step s a s' := s.exec a = some s'

namespace AckState

variable {s s' : AckState V D} {h h' : Held} {m n : ℕ} {type : AckType}

/-- One of the counters of `n` messages. -/
def tree (s : AckState V D) (field : Word → ℕ) (n : ℕ) : TokenTree :=
  ⟨n, fun m => field (s.words m), s.original⟩

/-- Who has acks of `m`: the source thread, the destinations, and clones on their way. -/
def ackClaims (s : AckState V D) (held : ℕ → ℕ) (m : ℕ) : ℕ :=
  held m + s.owed.countP (m = ·.2) + s.cloneAcks.countP (m = ·.1)

/-- The reference that is given up with the call of the ack function. -/
def sourceRef (calls : List AckType) (m : ℕ) : ℕ := if m = 0 ∧ calls = [] then 1 else 0

def refClaims (s : AckState V D) (held : ℕ → ℕ) (m : ℕ) : ℕ :=
  held m + s.owed.countP (m = ·.2) + s.refs.count m + sourceRef s.calls m

/-- Both trees are valid, and the source's ack function was called when the root of the acks got
to zero. -/
structure Books (s : AckState V D) (h : Held) : Prop where
  pos : 0 < h.size
  refs : (s.tree valueToRef h.size).Valid (s.refClaims h.refs)
  acks : s.ackNeeded = true → (s.tree valueToAck h.size).Valid (s.ackClaims h.acks)
  called : s.ackNeeded = true → s.calls.length = if valueToAck (s.words 0) = 0 then 1 else 0
  idle : s.ackNeeded = false → s.calls = [] ∧ s.cloneAcks = []

section Tree

variable {field : Word → ℕ} {w : Word} {claims claims' : ℕ → ℕ}

theorem tree_update (hw : s'.words = update s.words m w) (ho : s'.original = s.original) :
    s'.tree field n = (s.tree field n).setCount m (field w) := by
  simp only [tree, TokenTree.setCount, TokenTree.mk.injEq, true_and, ho, and_true]
  funext o
  by_cases hom : o = m
  · subst hom
    simp [hw]
  · simp [hw, hom]

theorem field_update (hf : field w = field (s.words m)) (o : ℕ) :
    field (update s.words m w o) = field (s.words o) := by
  by_cases ho : o = m
  · subst ho
    rw [update_self, hf]
  · rw [update_of_ne ho]

theorem valid_congr (hw : s'.words = update s.words m w) (ho : s'.original = s.original)
    (hf : field w = field (s.words m)) (hv : (s.tree field n).Valid claims) :
    (s'.tree field n).Valid claims := by
  have ht : s'.tree field n = s.tree field n := by
    simp only [tree, hw, ho, field_update hf]
  exact ht ▸ hv

theorem valid_add (hw : s'.words = update s.words m w) (ho : s'.original = s.original)
    (hf : field w = field (s.words m) + 1) (hv : (s.tree field n).Valid claims) (hm : 0 < claims m)
    (hcl : ∀ o, claims' o = claims o + if o = m then 1 else 0) :
    (s'.tree field n).Valid claims' := by
  rw [tree_update hw ho, hf]
  exact hv.add hm hcl

theorem valid_sub (hw : s'.words = update s.words m w) (ho : s'.original = s.original)
    (hf : field w + 1 = field (s.words m)) (hv : (s.tree field n).Valid claims) (hm : 0 < claims m)
    (hcl : ∀ o, claims' o + (if o = m then 1 else 0) =
      claims o + if field (s.words m) = 1 ∧ s.original m = some o then 1 else 0) :
    (s'.tree field n).Valid claims' := by
  rw [tree_update hw ho, Nat.eq_sub_of_add_eq hf]
  exact hv.sub hm hcl

end Tree

section Held

variable {f : ℕ → ℕ} {o : ℕ}

theorem take_apply : take f m o = f o + if o = m then 1 else 0 := by
  by_cases ho : o = m
  · subst ho
    simp [take]
  · simp [take, ho]

theorem give_apply (hp : 0 < f m) : give f m o + (if o = m then 1 else 0) = f o := by
  by_cases ho : o = m
  · subst ho
    simp only [give, update_self, if_true]
    omega
  · simp [give, ho]

end Held

/-- What somebody has goes to somebody else. -/
theorem Books.congr (hb : s.Books h) (hw : s'.words = s.words) (ho : s'.original = s.original)
    (hn : s'.ackNeeded = s.ackNeeded) (hc : s'.calls = s.calls) (hcl : s.cloneAcks = [] →
      s'.cloneAcks = []) (hs : h'.size = h.size)
    (hr : ∀ o, s'.refClaims h'.refs o = s.refClaims h.refs o)
    (ha : ∀ o, s'.ackClaims h'.acks o = s.ackClaims h.acks o) : s'.Books h' := by
  have ht : ∀ field, s'.tree field h'.size = s.tree field h.size := by
    intro field
    simp [tree, hw, ho, hs]
  refine ⟨hs ▸ hb.pos, ?_, fun h => ?_, fun h => ?_, fun h => ?_⟩
  · rw [ht, funext hr]
    exact hb.refs
  · rw [ht, funext ha]
    exact hb.acks (hn ▸ h)
  · rw [hc, hw]
    exact hb.called (hn ▸ h)
  · exact ⟨hc.trans (hb.idle (hn ▸ h)).1, hcl (hb.idle (hn ▸ h)).2⟩

theorem refClaims_pos (hm : 0 < h.refs m) : 0 < s.refClaims h.refs m := by
  unfold refClaims
  omega

theorem ackClaims_pos (hm : 0 < h.acks m) : 0 < s.ackClaims h.acks m := by
  unfold ackClaims
  omega

/-! ### References -/

/-- The program and the path options stay as they are. -/
structure Frame (s s' : AckState V D) : Prop where
  rest : s'.rest = s.rest
  ackNeeded : s'.ackNeeded = s.ackNeeded

/-- A holder of a reference takes another one. -/
theorem Books.ref (hb : s.Books h) (hm : 0 < s.refClaims h.refs m)
    (hr : valueToRef (s.words m) + 1 < 2 ^ 15) :
    ∃ w, s.ref m = some { s with words := update s.words m w } ∧
      Books { s with words := update s.words m w } { h with refs := take h.refs m } := by
  have hp : 0 < valueToRef (s.words m) := hb.refs.count_pos hm
  have hv : (valueToRef (updateAckAndRef (s.words m) 1 0) : ℤ) = valueToRef (s.words m) + 1 :=
    valueToRef_update (by omega) (by omega)
  have ha : valueToAck (updateAckAndRef (s.words m) 1 0) = valueToAck (s.words m) :=
    valueToAck_updateRef
  refine ⟨updateAckAndRef (s.words m) 1 0, ?_, hb.pos, ?_, fun hn => ?_, fun hn => ?_, hb.idle⟩
  · simp [AckState.ref, LogMsg.ref, noWindow, show 1 ≤ valueToRef (s.words m) from hp]
  · refine valid_add (s := s) rfl rfl (by omega) hb.refs hm fun o => ?_
    simp only [refClaims, take_apply]
    omega
  · exact valid_congr (s := s) rfl rfl ha (hb.acks hn)
  · rw [field_update ha]
    exact hb.called hn

/-- The last reference of a clone leaves one of the original to be given up. -/
theorem Books.unref (hb : s.Books h) (hm : 0 < h.refs m) :
    ∃ s', s.unref m = some s' ∧ s.Frame s' ∧ s'.Books { h with refs := give h.refs m } := by
  have hpos := refClaims_pos (s := s) hm
  have hlt := valueToRef_lt (w := s.words m)
  have hp : 0 < valueToRef (s.words m) := hb.refs.count_pos hpos
  have hv : (valueToRef (updateAckAndRef (s.words m) (-1) 0) : ℤ) = valueToRef (s.words m) + -1 :=
    valueToRef_update (by omega) (by omega)
  have ha : valueToAck (updateAckAndRef (s.words m) (-1) 0) = valueToAck (s.words m) :=
    valueToAck_updateRef
  have hu : s.unref m = some { s with
      words := update s.words m (updateAckAndRef (s.words m) (-1) 0)
      refs := if valueToRef (s.words m) = 1 then (s.original m).toList ++ s.refs else s.refs } := by
    simp [AckState.unref, LogMsg.unref, noWindow, show 1 ≤ valueToRef (s.words m) from hp]
  refine ⟨_, hu, ⟨rfl, rfl⟩, hb.pos, ?_, fun hn => ?_, fun hn => ?_, hb.idle⟩
  · refine valid_sub (s := s) rfl rfl (by omega) hb.refs hpos fun o => ?_
    have hg := give_apply (o := o) hm
    have hc : (if valueToRef (s.words m) = 1 then (s.original m).toList ++ s.refs else s.refs).count
        o = (if valueToRef (s.words m) = 1 ∧ s.original m = some o then 1 else 0) +
          s.refs.count o := by
      by_cases hon : valueToRef (s.words m) = 1 <;> cases s.original m <;>
        simp [hon, count_cons, add_comm]
    simp only [refClaims, hc]
    omega
  · exact valid_congr (s := s) rfl rfl ha (hb.acks hn)
  · rw [field_update ha]
    exact hb.called hn

/-! ### Acks -/

theorem ack_unneeded : s.ack false m type = s := by
  simp [AckState.ack, LogMsg.ack]

/-- An ack is one less in the counter; the last one calls `ack_func`. -/
theorem ack_spec (type : AckType) (hp : 0 < valueToAck (s.words m)) :
    ∃ w calls refs cloneAcks, valueToAck w + 1 = valueToAck (s.words m) ∧
      valueToRef w = valueToRef (s.words m) ∧
      s.ack true m type = { s with
        words := update s.words m w
        calls := s.calls ++ calls
        refs := refs ++ s.refs
        cloneAcks := cloneAcks ++ s.cloneAcks } ∧
      refs = calls.map (fun _ => m) ∧
      calls.length = (if valueToAck (s.words m) = 1 ∧ s.original m = none then 1 else 0) ∧
      ∀ o, cloneAcks.countP (o = ·.1) =
        if valueToAck (s.words m) = 1 ∧ s.original m = some o then 1 else 0 := by
  have hlt := valueToAck_lt (w := s.words m)
  have hn : (valueToAck (updateAckAndRefAndAbortAndSuspended (s.words m) 0 (-1) (type = .aborted)
      (type = .suspended)) : ℤ) = valueToAck (s.words m) + -1 :=
    valueToAck_update (by omega) (by omega)
  have hr : valueToRef (updateAckAndRefAndAbortAndSuspended (s.words m) 0 (-1) (type = .aborted)
      (type = .suspended)) = valueToRef (s.words m) := valueToRef_updateAck
  simp only [ack, LogMsg.ack, noWindow, if_true, Bool.false_eq_true, if_false]
  generalize updateAckAndRefAndAbortAndSuspended (s.words m) 0 (-1) _ _ = w at hn hr ⊢
  by_cases hon : valueToAck (s.words m) = 1
  · rw [if_pos hon]
    cases ho : s.original m with
    | none => exact ⟨w, [_], [m], [], by omega, hr, rfl, rfl, by simp [hon], by simp⟩
    | some o =>
      refine ⟨w, [], [], [(o, if type = .suspended then .suspended
        else if type = .aborted then .aborted else toAckType (s.words m))],
        by omega, hr, by simp, rfl, by simp, fun o' => ?_⟩
      simp [hon, eq_comm]
  · rw [if_neg hon]
    exact ⟨w, [], [], [], by omega, hr, by simp, rfl, by simp [hon], by simp [hon]⟩

theorem frame_ack {ackNeeded : Bool} : s.Frame (s.ack ackNeeded m type) := by
  simp only [ack]
  split <;> exact ⟨rfl, rfl⟩

theorem Books.ack_needed (hb : s.Books h) (hn : s.ackNeeded = true) (hm : 0 < h.acks m)
    (type : AckType) : (s.ack true m type).Books { h with acks := give h.acks m } := by
  have hpos := ackClaims_pos (s := s) hm
  have hlt := (hb.acks hn).lt hpos
  have hc := hb.called hn
  obtain ⟨w, calls, refs, cloneAcks, hw, hr, heq, rfl, hl, hcl⟩ :=
    ack_spec type ((hb.acks hn).count_pos hpos)
  -- only the source's own message has no original
  have hroot : s.original m = none ↔ m = 0 := by
    refine ⟨(hb.acks hn).root m hlt, ?_⟩
    rintro rfl
    by_contra hs
    obtain ⟨o, ho⟩ := Option.ne_none_iff_exists'.mp hs
    exact absurd ((hb.acks hn).parent_lt 0 hlt o ho) (by omega)
  simp only [hroot] at hl
  rw [heq]
  refine ⟨hb.pos, ?_, fun _ => ?_, fun _ => ?_, fun h => by simp [hn] at h⟩
  · refine valid_congr (s := s) rfl rfl hr ?_
    convert hb.refs using 1
    funext o
    have hsr : (calls.map fun _ => m).count o + sourceRef (s.calls ++ calls) o =
        sourceRef s.calls o := by
      cases calls with
      | nil => simp
      | cons call calls =>
        obtain ⟨hon, rfl⟩ : valueToAck (s.words m) = 1 ∧ m = 0 := by
          by_contra hf
          simp [hf] at hl
        obtain rfl : calls = [] := by simpa [hon] using hl
        have hn : s.calls = [] := by
          rw [if_neg (by omega)] at hc
          exact length_eq_zero_iff.mp hc
        rcases eq_or_ne o 0 with rfl | ho
        · simp [sourceRef, hn]
        · simp [sourceRef, hn, ho, ho.symm]
    simp only [refClaims, count_append]
    omega
  · refine valid_sub (s := s) rfl rfl hw (hb.acks hn) hpos fun o => ?_
    have hg := give_apply (o := o) hm
    simp only [ackClaims, countP_append, hcl]
    omega
  · rw [length_append, hl, hc]
    by_cases h0 : m = 0
    · subst h0
      simp only [update_self, and_true]
      split_ifs <;> omega
    · simp [h0, update_of_ne (Ne.symm h0)]

theorem Books.ack (hb : s.Books h) (hm : 0 < h.acks m) (type : AckType) :
    (s.ack s.ackNeeded m type).Books { h with acks := give h.acks m } := by
  cases hn : s.ackNeeded with
  | true => exact hb.ack_needed hn hm type
  | false =>
    rw [ack_unneeded]
    exact ⟨hb.pos, hb.refs, fun h => by simp [hn] at h, fun h => by simp [hn] at h, hb.idle⟩

theorem addAck_unneeded (hn : s.ackNeeded = false) : s.addAck m (s.words m) = s := by
  cases s
  cases hn
  simp [AckState.addAck, LogMsg.addAck]

/-- A holder of an ack takes another one. -/
theorem Books.addAck (hb : s.Books h) (hm : 0 < h.acks m)
    (hr : valueToAck (s.words m) + 1 < 2 ^ 15) :
    (s.addAck m (s.words m)).Books { h with acks := take h.acks m } := by
  cases hn : s.ackNeeded with
  | false =>
    rw [addAck_unneeded hn]
    exact ⟨hb.pos, hb.refs, fun h => by simp [hn] at h, fun h => by simp [hn] at h, hb.idle⟩
  | true =>
    have hpos := ackClaims_pos (s := s) hm
    have hp : 0 < valueToAck (s.words m) := (hb.acks hn).count_pos hpos
    have hv : (valueToAck (updateAckAndRef (s.words m) 0 1) : ℤ) = valueToAck (s.words m) + 1 :=
      valueToAck_update (by omega) (by omega)
    have hw : s.addAck m (s.words m) =
        { s with words := update s.words m (updateAckAndRef (s.words m) 0 1) } := by
      simp [AckState.addAck, LogMsg.addAck, hn, noWindow]
    rw [hw]
    refine ⟨hb.pos, ?_, fun _ => ?_, fun _ => ?_, fun h => by simp [hn] at h⟩
    · exact valid_congr (s := s) rfl rfl valueToRef_updateAck hb.refs
    · refine valid_add (s := s) rfl rfl (by omega) (hb.acks hn) hpos fun o => ?_
      simp only [ackClaims, take_apply]
      omega
    · rw [hb.called hn]
      refine if_congr ?_ rfl rfl
      by_cases h0 : m = 0
      · subst h0
        simp only [update_self]
        constructor <;> omega
      · simp only [update_of_ne (Ne.symm h0)]

theorem clone_claims {f : ℕ → ℕ} (hp : 0 < f m) (hn : f n = 0) (o : ℕ) :
    update (give f m) n 1 o + (if o = m then 1 else 0) = f o + if o = n then 1 else 0 := by
  have hmn : n ≠ m := fun h => by simp [h, hp.ne'] at hn
  by_cases ho : o = n
  · subst ho
    simp [hmn, hn]
  · have := give_apply (o := o) hp
    simp only [update_of_ne ho, if_neg ho]
    omega

/-- A clone is a new message with one ack and one reference, which holds one of each of the
original. -/
theorem Books.clone (hb : s.Books h) (hm : h.Has m) :
    Books { s.addAck h.size 1#32 with original := update s.original h.size (some m) }
      (h.apply (.clone m h.size : Op V D)) := by
  have ht : ∀ field : Word → ℕ, field (LogMsg.addAck 1#32 noWindow s.ackNeeded).1 = 1 →
      tree { s.addAck h.size 1#32 with original := update s.original h.size (some m) } field
        (h.size + 1) = (s.tree field h.size).fork m := by
    intro field hf
    simp only [tree, TokenTree.fork, AckState.addAck, TokenTree.mk.injEq, true_and, and_true]
    funext o
    by_cases ho : o = h.size
    · subst ho
      simp [hf]
    · simp [ho]
  have hpos := hb.pos
  refine ⟨Nat.succ_pos _, ?_, fun hn => ?_, fun hn => ?_, hb.idle⟩
  · have hu : s.refClaims h.refs h.size = 0 := hb.refs.unclaimed h.size le_rfl
    have hf : h.refs h.size = 0 := by
      unfold refClaims at hu
      omega
    refine ht valueToRef ?_ ▸ hb.refs.fork (hb.refs.lt (refClaims_pos hm.2)) fun o => ?_
    · cases s.ackNeeded <;> decide +kernel
    · have hc := clone_claims hm.2 hf o
      simp only [refClaims, Held.apply, AckState.addAck]
      change _ = _ + if o = h.size then 1 else 0
      omega
  · have hu : s.ackClaims h.acks h.size = 0 := (hb.acks hn).unclaimed h.size le_rfl
    have hf : h.acks h.size = 0 := by
      unfold ackClaims at hu
      omega
    refine ht valueToAck ?_ ▸ (hb.acks hn).fork ((hb.acks hn).lt (ackClaims_pos hm.1)) fun o => ?_
    · rw [show s.ackNeeded = true from hn]
      decide +kernel
    · have hc := clone_claims hm.1 hf o
      simp only [ackClaims, Held.apply, AckState.addAck]
      change _ = _ + if o = h.size then 1 else 0
      omega
  · have hcl := hb.called hn
    simp only [AckState.addAck, update_of_ne hb.pos.ne]
    exact hcl

/-! ### All steps -/

/-- The source thread can do the rest with the acks and references it has, and is left without
an ack. -/
structure Inv (s : AckState V D) (h : Held) : Prop where
  along : Along Held.apply Held.Owns h s.rest
  spent : ∀ m, (s.rest.foldl Held.apply h).acks m = 0
  books : s.Books h

/-- The counters keep up with the source thread, and no assertion fails. -/
theorem Books.apply {op : Op V D} (hb : s.Books h) (how : h.Owns op) (hr : s.Room op) :
    ∃ s', s.apply op = some s' ∧ s.Frame s' ∧ s'.Books (h.apply op) := by
  cases op with
  | eval m => exact ⟨s, rfl, ⟨rfl, rfl⟩, hb⟩
  | setValues m v => exact ⟨s, rfl, ⟨rfl, rfl⟩, hb⟩
  | setTags m t => exact ⟨s, rfl, ⟨rfl, rfl⟩, hb⟩
  | addAck m => exact ⟨_, rfl, ⟨rfl, rfl⟩, hb.addAck how.1 hr⟩
  | ref m =>
    obtain ⟨w, hw, hb'⟩ := hb.ref (refClaims_pos how.2) hr
    exact ⟨_, hw, ⟨rfl, rfl⟩, hb'⟩
  | ack m => exact ⟨_, rfl, frame_ack, hb.ack how.1 .processed⟩
  | unref m => exact hb.unref how
  | clone m c =>
    obtain ⟨hm, rfl⟩ := how
    exact ⟨_, rfl, ⟨rfl, rfl⟩, hb.clone hm⟩
  | deliver d m fc =>
    refine ⟨_, rfl, ⟨rfl, rfl⟩, hb.congr rfl rfl rfl rfl id rfl (fun o => ?_) fun o => ?_⟩
    · have hg := give_apply (o := o) how.2
      simp only [refClaims, Held.apply, countP_cons, decide_eq_true_eq]
      omega
    · have hg := give_apply (o := o) how.1
      simp only [ackClaims, Held.apply, countP_cons, decide_eq_true_eq]
      omega

/-- A step of somebody else. -/
theorem Inv.of_books (hi : s.Inv h) (hb : s'.Books h) (hf : s.Frame s') :
    s'.ackNeeded = s.ackNeeded ∧ s'.Inv h :=
  ⟨hf.ackNeeded, hf.rest ▸ hi.along, hf.rest ▸ hi.spent, hb⟩

theorem countP_eraseIdx {α : Type*} {l : List α} {i : ℕ} {a : α} (h : l[i]? = some a)
    (p : α → Bool) : (l.eraseIdx i).countP p + (if p a then 1 else 0) = l.countP p := by
  obtain ⟨hi, rfl⟩ := List.getElem?_eq_some_iff.mp h
  rw [← (getElem_cons_eraseIdx_perm hi).countP_eq, countP_cons]

/-- Whatever there is to do can be done, if there is room for it. -/
theorem Inv.exec {a : AckLabel} (hi : s.Inv h) (hd : s.Due a) (hr : s.RoomNext a) :
    ∃ s' h', s.exec a = some s' ∧ s'.ackNeeded = s.ackNeeded ∧ s'.Inv h' := by
  cases a with
  | source =>
    obtain ⟨op, rest, hrest⟩ := exists_cons_of_ne_nil hd
    have ha := hi.along
    have hs := hi.spent
    have hro := hr op (by simp [hrest])
    rw [hrest] at ha hs
    have hb : Books { s with rest := rest } h := { hi.books with }
    obtain ⟨s', hs', hf, hb'⟩ := hb.apply ha.1 (by cases op <;> exact hro)
    refine ⟨s', _, ?_, hf.ackNeeded, hf.rest ▸ ha.2, hf.rest ▸ hs, hb'⟩
    simpa [AckState.exec, hrest] using hs'
  | destination i type =>
    obtain ⟨owed, ho⟩ : ∃ owed, s.owed[i]? = some owed := ⟨_, getElem?_eq_getElem hd⟩
    have hc := fun o => countP_eraseIdx ho (o = ·.2)
    simp only [decide_eq_true_eq] at hc
    have hb : Books { s with owed := s.owed.eraseIdx i, refs := owed.2 :: s.refs }
        { h with acks := take h.acks owed.2 } := by
      refine hi.books.congr rfl rfl rfl rfl id rfl (fun o => ?_) fun o => ?_
      · have := hc o
        simp only [refClaims, count_cons, beq_iff_eq, eq_comm (b := o)]
        omega
      · have := hc o
        simp only [ackClaims, take_apply]
        omega
    have hb' := hb.ack (m := owed.2) (by simp [take]) type
    simp only [give_take] at hb'
    exact ⟨_, h, by simp [AckState.exec, ho], hi.of_books hb' { frame_ack with }⟩
  | cloneAck i =>
    obtain ⟨call, hcl⟩ : ∃ call, s.cloneAcks[i]? = some call := ⟨_, getElem?_eq_getElem hd⟩
    have hn : s.ackNeeded = true := by
      by_contra hn
      simp [(hi.books.idle (by simpa using hn)).2] at hcl
    have hc := fun o => countP_eraseIdx hcl (o = ·.1)
    simp only [decide_eq_true_eq] at hc
    have hb : Books { s with cloneAcks := s.cloneAcks.eraseIdx i }
        { h with acks := take h.acks call.1 } := by
      refine hi.books.congr rfl rfl rfl rfl (fun h => by simp [h]) rfl (fun o => rfl) fun o => ?_
      have := hc o
      simp only [ackClaims, take_apply]
      omega
    have hb' := hb.ack_needed (m := call.1) hn (by simp [take]) call.2
    simp only [give_take] at hb'
    exact ⟨_, h, by simp [AckState.exec, hcl], hi.of_books hb' { frame_ack with }⟩
  | ref i =>
    obtain ⟨owed, ho⟩ : ∃ owed, s.owed[i]? = some owed := ⟨_, getElem?_eq_getElem hd⟩
    have hpos : 0 < s.refClaims h.refs owed.2 := by
      have hc := countP_eraseIdx ho (owed.2 = ·.2)
      simp only [decide_true, if_true] at hc
      unfold refClaims
      omega
    obtain ⟨w, hw, hb⟩ := hi.books.ref hpos (hr owed ho)
    have hb' : Books { s with words := update s.words owed.2 w, refs := owed.2 :: s.refs } h := by
      refine hb.congr rfl rfl rfl rfl id rfl (fun o => ?_) fun o => rfl
      simp only [refClaims, take_apply, count_cons, beq_iff_eq, eq_comm (b := o)]
      omega
    exact ⟨_, h, by simp [AckState.exec, ho, hw], hi.of_books hb' ⟨rfl, rfl⟩⟩
  | unref i =>
    obtain ⟨m, hm⟩ : ∃ m, s.refs[i]? = some m := ⟨_, getElem?_eq_getElem hd⟩
    have hb : Books { s with refs := s.refs.eraseIdx i } { h with refs := take h.refs m } := by
      refine hi.books.congr rfl rfl rfl rfl id rfl (fun o => ?_) fun o => rfl
      have hc := countP_eraseIdx hm (· == o)
      simp only [refClaims, take_apply, List.count, beq_iff_eq, eq_comm (b := o)] at hc ⊢
      omega
    obtain ⟨s', hs', hf, hb'⟩ := hb.unref (m := m) (by simp [take])
    simp only [give_take] at hb'
    exact ⟨s', h, by simpa [AckState.exec, hm] using hs', hi.of_books hb' ⟨hf.rest, hf.ackNeeded⟩⟩

theorem inv_start (p : Pipe V D) (values : V) (tags : TagSet) (ackNeeded flowControl : Bool) :
    ∃ h, (start p values tags ackNeeded flowControl).Inv h := by
  let one : ℕ → ℕ := fun m => if m = 0 then 1 else 0
  have hon : Held.On ⟨1, one, one⟩ 0 := by
    refine ⟨⟨Nat.one_pos, Nat.one_pos⟩, fun c hc => ?_⟩
    have hne : c ≠ 0 := one_le_iff_ne_zero.mp hc
    exact ⟨if_neg hne, if_neg hne⟩
  obtain ⟨ha, hs⟩ := p.balanced flowControl 0 (Store.new values tags) _ hon rfl
  have hv : ∀ {field : Word → ℕ} {claims : ℕ → ℕ} {k : ℕ},
      field (LogMsg.addAck 2#32 noWindow ackNeeded).1 = k →
      (∀ m, claims m = if m = 0 then k else 0) →
      ((start p values tags ackNeeded flowControl).tree field 1).Valid claims := by
    intro field claims k hk hc
    refine ⟨fun m hm => ?_, fun c _ m hp => by simp [tree, start] at hp,
      fun c hc _ => lt_one_iff.mp hc, fun m hm => ?_⟩
    · obtain rfl : m = 0 := lt_one_iff.mp hm
      simp [tree, start, TokenTree.live, hk, hc]
    · have hne : m ≠ 0 := one_le_iff_ne_zero.mp hm
      simp [hc, hne]
  refine ⟨_, ha, fun m => ?_, Nat.one_pos, ?_, fun hn => ?_, fun hn => ?_, fun _ => ⟨rfl, rfl⟩⟩
  · change (((p.queue flowControl 0 (Store.new values tags)).1).foldl Held.apply _).acks m = 0
    rw [hs]
    by_cases hm : m = 0 <;> simp [Held.spend, give, one, hm]
  · refine hv (k := 2) (by cases ackNeeded <;> decide +kernel) fun m => ?_
    by_cases hm : m = 0 <;> simp [refClaims, sourceRef, start, one, hm]
  · refine hv (k := 1) (by cases hn; decide +kernel) fun m => ?_
    simp [ackClaims, start, one]
  · cases hn
    change 0 = if valueToAck (LogMsg.addAck 2#32 noWindow true).1 = 0 then 1 else 0
    rfl

end AckState

open AckState

variable {p : Pipe V D} {values : V} {tags : TagSet} {ackNeeded flowControl : Bool}
  {s : AckState V D}

theorem exec_source {op : Op V D} {rest : List (Op V D)} (hrest : s.rest = op :: rest) :
    s.exec .source = { s with rest := rest }.apply op := by
  simp [AckState.exec, hrest]

/-- What the source thread is going to do, and what the destinations and the counters have. -/
structure Stage (s : AckState V D) (rest : List (Op V D)) (owed acks refs : ℕ) : Prop where
  needed : s.ackNeeded = true
  rest : s.rest = rest
  owed : s.owed.length = owed
  acks : valueToAck (s.words 0) = acks
  refs : valueToRef (s.words 0) = refs
  calls : s.calls = []

section Wrap

variable {s : AckState V D} {rest : List (Op V D)} {k a r : ℕ}

theorem Stage.addAck (h : Stage s (.addAck 0 :: rest) k a r) (ha : a + 1 < 2 ^ 15) :
    ∃ s', s.exec .source = some s' ∧ Stage s' rest k (a + 1) r := by
  have hv : (valueToAck (updateAckAndRef (s.words 0) 0 1) : ℤ) = valueToAck (s.words 0) + 1 :=
    valueToAck_update (by omega) (by rw [h.acks]; omega)
  refine ⟨_, exec_source h.rest, h.needed, rfl, h.owed, ?_, ?_, h.calls⟩
  · simp only [AckState.addAck, LogMsg.addAck, h.needed, noWindow, update_self]
    simp only [if_true, Bool.false_eq_true, if_false]
    have := h.acks
    omega
  · simpa [AckState.addAck, LogMsg.addAck, h.needed, noWindow, updateAckAndRef] using h.refs

theorem Stage.ref (h : Stage s (.ref 0 :: rest) k a r) (hr : 0 < r) :
    ∃ s', s.exec .source = some s' ∧ Stage s' rest k a ((r + 1) % 2 ^ 15) := by
  have h1 : 1 ≤ valueToRef (s.words 0) := h.refs ▸ hr
  refine ⟨{ s with rest := rest, words := update s.words 0 (updateAckAndRef (s.words 0) 1 0) }, ?_,
    h.needed, rfl, h.owed, ?_, ?_, h.calls⟩
  · simp [exec_source h.rest, AckState.apply, AckState.ref, LogMsg.ref, noWindow, h1]
  · simpa [updateAckAndRef] using h.acks
  · simp only [← h.refs, ← valueToRef_addOne, update_self]

theorem Stage.deliver {d : D} (h : Stage s (.deliver d 0 flowControl :: rest) k a r) :
    ∃ s', s.exec .source = some s' ∧ Stage s' rest (k + 1) a r :=
  ⟨_, exec_source h.rest, h.needed, rfl, congrArg (· + 1) h.owed, h.acks, h.refs, h.calls⟩

theorem Stage.ack (h : Stage s (.ack 0 :: rest) k a r) (ha : 1 < a) :
    ∃ s', s.exec .source = some s' ∧ Stage s' rest k (a - 1) r := by
  have hp : 0 < valueToAck (s.words 0) := by
    rw [h.acks]
    omega
  obtain ⟨w, calls, refs, cloneAcks, hw, hr, heq, -, hl, -⟩ :=
    ack_spec (s := { s with rest := rest }) .processed hp
  have hs : s.exec .source = some ({ s with rest := rest }.ack true 0 .processed) := by
    simp [exec_source h.rest, AckState.apply, h.needed]
  rw [h.acks] at hw
  have hne : ¬(valueToAck (s.words 0) = 1 ∧ s.original 0 = none) := by
    rw [h.acks]
    omega
  rw [if_neg hne] at hl
  refine ⟨_, hs, heq ▸ ⟨h.needed, rfl, h.owed, ?_, ?_, ?_⟩⟩
  · simp only [update_self]
    omega
  · simp only [update_self, hr]
    exact h.refs
  · rw [h.calls, length_eq_zero_iff.mp hl]
    rfl

/-- The source thread hands a message to the drivers of a group. -/
theorem Stage.deliveries (p : Pipe V D) (drivers : List D)
    (h : Stage s (deliveries drivers flowControl 0 ++ rest) k a r)
    (ha : a + drivers.length < 2 ^ 15) (hp : 0 < r) (hr : r + drivers.length ≤ 2 ^ 15) :
    ∃ as s', (ackSystem p values tags true flowControl).Run s as s' ∧
      Stage s' rest (k + drivers.length) (a + drivers.length) ((r + drivers.length) % 2 ^ 15) := by
  induction drivers generalizing s k a r with
  | nil =>
    have hlt := valueToRef_lt (w := s.words 0)
    rw [h.refs] at hlt
    exact ⟨[], s, .nil, (mod_eq_of_lt hlt).symm ▸ h⟩
  | cons d drivers ih =>
    rw [length_cons] at ha hr
    obtain ⟨s₁, hs₁, h₁⟩ := h.addAck (by omega)
    obtain ⟨s₂, hs₂, h₂⟩ := h₁.ref hp
    obtain ⟨s₃, hs₃, h₃⟩ := h₂.deliver
    by_cases hl : drivers = []
    · subst hl
      exact ⟨_, s₃, .cons hs₁ (.cons hs₂ (.cons hs₃ .nil)), h₃⟩
    · have hpos := length_pos_iff.mpr hl
      rw [mod_eq_of_lt (by omega)] at h₃
      obtain ⟨as, s', hr', h'⟩ := ih h₃ (by omega) (by omega) (by omega)
      refine ⟨_, s', .cons hs₁ (.cons hs₂ (.cons hs₃ hr')), ?_⟩
      simpa only [length_cons, Nat.add_assoc, Nat.add_comm 1] using h'

end Wrap

end SyslogNg.Pipeline
