import SyslogNg.Foundations.BitFields

/-!
# The reference and ack counter of a message

`ack_and_ref_and_abort_and_suspended` in `lib/logmsg.c`: two 15-bit counters and two flags
in one word, and the functions that change it or, for the message the thread has a refcache
window on, the counters in the thread-local block. One call of
`log_msg_update_ack_and_ref_and_abort_and_suspended` is one atomic change of the word. A
failed assertion is `none`.
-/
namespace SyslogNg

open BitField

inductive AckType
  | processed
  | aborted
  | suspended
  deriving DecidableEq, Repr

namespace LogMsg

abbrev Word := BitVec 32

def suspendField : BitField 32 := ⟨31, 1, by decide⟩
def abortField : BitField 32 := ⟨30, 1, by decide⟩
def ackField : BitField 32 := ⟨15, 15, by decide⟩
def refField : BitField 32 := ⟨0, 15, by decide⟩

def bias : ℕ := 0x00002000

example : suspendField.mask = 0x80000000#32 ∧ abortField.mask = 0x40000000#32 ∧
    ackField.mask = 0x3FFF8000#32 ∧ refField.mask = 0x00007FFF#32 := by decide

def valueToRef (x : Word) : ℕ := (refField.get x).toNat

def valueToAck (x : Word) : ℕ := (ackField.get x).toNat

def abortFlag (x : Word) : Bool := abortField.get x = 1#32

def suspendFlag (x : Word) : Bool := suspendField.get x = 1#32

def toAckType (x : Word) : AckType :=
  if suspendFlag x then .suspended else if abortFlag x then .aborted else .processed

def flagValue (b : Bool) : Word := if b then 1#32 else 0#32

/-- `log_msg_update_ack_and_ref_and_abort_and_suspended`, from the old to the new word. -/
def updateAckAndRefAndAbortAndSuspended (old : Word) (addRef addAck : ℤ)
    (addAbort addSuspend : Bool) : Word :=
  let new := refField.put old (refField.get old + BitVec.ofInt 32 addRef)
  let new := ackField.put new (ackField.get old + BitVec.ofInt 32 addAck)
  let new := abortField.put new (abortField.get old ||| flagValue addAbort)
  suspendField.put new (suspendField.get old ||| flagValue addSuspend)

def updateAckAndRef (old : Word) (addRef addAck : ℤ) : Word :=
  updateAckAndRefAndAbortAndSuspended old addRef addAck false false

/-- The thread-local block; `current` is whether `logmsg_current` is this message. -/
structure Tls where
  current : Bool
  ackNeeded : Bool
  refs : ℤ
  acks : ℤ
  abort : Bool
  suspend : Bool
  deriving DecidableEq

def ref (w : Word) (t : Tls) : Option (Word × Tls) :=
  if t.current then some (w, { t with refs := t.refs + 1 })
  else if 1 ≤ valueToRef w then some (updateAckAndRef w 1 0, t)
  else none

/-- `log_msg_unref`, and whether it calls `log_msg_free`. -/
def unref (w : Word) (t : Tls) : Option (Word × Tls × Bool) :=
  if t.current then some (w, { t with refs := t.refs - 1 }, false)
  else if 1 ≤ valueToRef w then some (updateAckAndRef w (-1) 0, t, valueToRef w = 1)
  else none

def addAck (w : Word) (t : Tls) (ackNeeded : Bool) : Word × Tls :=
  if ackNeeded then
    if t.current then (w, { t with acks := t.acks + 1 }) else (updateAckAndRef w 0 1, t)
  else (w, t)

/-- `log_msg_ack`, and the type it calls `ack_func` with. -/
def ack (w : Word) (t : Tls) (ackNeeded : Bool) (type : AckType) : Word × Tls × Option AckType :=
  if ackNeeded then
    if t.current then
      (w, { t with
        acks := t.acks - 1
        abort := t.abort || (type = .aborted)
        suspend := t.suspend || (type = .suspended) }, none)
    else
      (updateAckAndRefAndAbortAndSuspended w 0 (-1) (type = .aborted) (type = .suspended), t,
        if valueToAck w = 1 then
          some (if type = .suspended then .suspended
            else if type = .aborted then .aborted else toAckType w)
        else none)
  else (w, t, none)

def refcacheStartProducer (w : Word) (t : Tls) : Option (Word × Tls) :=
  if t.current then none
  else
    let w := refField.put w (refField.get w + BitVec.ofInt 32 bias)
    let w := ackField.put w (ackField.get w + BitVec.ofInt 32 bias)
    some (w, ⟨true, true, -bias, -bias, false, false⟩)

def refcacheStartConsumer (t : Tls) (ackNeeded : Bool) : Option Tls :=
  if t.current then none else some ⟨true, ackNeeded, 0, 0, false, false⟩

/-- `log_msg_refcache_stop` up to the call of `ack_func`. -/
def refcacheStopAcks (w : Word) (t : Tls) : Option (Word × Tls × Option AckType) :=
  if t.current ∧ (t.acks < bias - 1 ∧ -(bias : ℤ) ≤ t.acks) ∧
      (t.refs < bias - 1 ∧ -(bias : ℤ) ≤ t.refs) then
    some (updateAckAndRefAndAbortAndSuspended w 0 t.acks t.abort t.suspend,
      { t with refs := t.refs + 1, acks := 0, abort := false, suspend := false },
      if (valueToAck w : ℤ) = -t.acks ∧ t.ackNeeded then
        some (if t.suspend then .suspended else if t.abort then .aborted else toAckType w)
      else none)
  else none

/-- The rest of `log_msg_refcache_stop`, and whether it calls `log_msg_free`. -/
def refcacheStopRefs (w : Word) (t : Tls) : Word × Tls × Bool :=
  let cachedRefs := t.refs - 1
  (updateAckAndRef w cachedRefs 0, { t with current := false, refs := 0 },
    (valueToRef w : ℤ) = -cachedRefs)

/-! ### Fields of the updated word -/

section Fields

variable {w : Word} {addRef addAck : ℤ} {addAbort addSuspend : Bool}

theorem valueToRef_update (h0 : 0 ≤ (valueToRef w : ℤ) + addRef)
    (h1 : (valueToRef w : ℤ) + addRef < 2 ^ 15) :
    (valueToRef (updateAckAndRefAndAbortAndSuspended w addRef addAck addAbort addSuspend) : ℤ) =
      valueToRef w + addRef := by
  unfold valueToRef updateAckAndRefAndAbortAndSuspended
  rw [get_put_of_disjoint (by decide), get_put_of_disjoint (by decide),
    get_put_of_disjoint (by decide)]
  exact toNat_get_put_add h0 h1

theorem valueToAck_update (h0 : 0 ≤ (valueToAck w : ℤ) + addAck)
    (h1 : (valueToAck w : ℤ) + addAck < 2 ^ 15) :
    (valueToAck (updateAckAndRefAndAbortAndSuspended w addRef addAck addAbort addSuspend) : ℤ) =
      valueToAck w + addAck := by
  unfold valueToAck updateAckAndRefAndAbortAndSuspended
  rw [get_put_of_disjoint (by decide), get_put_of_disjoint (by decide)]
  exact toNat_get_put_add h0 h1

theorem valueToRef_addOne : valueToRef (updateAckAndRef w 1 0) = (valueToRef w + 1) % 2 ^ 15 := by
  have hlt : (refField.get w).toNat < 2 ^ 15 := refField.toNat_get_lt
  have hs : (refField.get w + BitVec.ofInt 32 1).toNat = (refField.get w).toNat + 1 := by
    rw [BitVec.toNat_add, show (BitVec.ofInt 32 1).toNat = 1 from rfl]
    omega
  unfold valueToRef updateAckAndRef updateAckAndRefAndAbortAndSuspended
  rw [get_put_of_disjoint (by decide), get_put_of_disjoint (by decide),
    get_put_of_disjoint (by decide), toNat_get_put, hs]
  rfl

/-- A flag that is set stays set. -/
theorem get_put_flag {f : BitField 32} (hf : f.width = 1) {x y : Word} {b : Bool} :
    decide (f.get (f.put y (f.get x ||| flagValue b)) = 1#32) = (decide (f.get x = 1#32) || b) := by
  have hlt := f.toNat_get_lt (x := x)
  rw [hf] at hlt
  have hc : f.get x = 0#32 ∨ f.get x = 1#32 := by
    rcases Nat.le_one_iff_eq_zero_or_eq_one.mp (Nat.lt_succ_iff.mp hlt) with h | h
    · exact .inl (BitVec.eq_of_toNat_eq h)
    · exact .inr (BitVec.eq_of_toNat_eq h)
  have hor : (f.get x ||| flagValue b).toNat < 2 ^ f.width := by
    rw [hf]
    rcases hc with h | h <;> cases b <;> simp [h, flagValue]
  rw [get_put_self hor]
  rcases hc with h | h <;> cases b <;> simp [h, flagValue]

theorem abortFlag_update :
    abortFlag (updateAckAndRefAndAbortAndSuspended w addRef addAck addAbort addSuspend) =
      (abortFlag w || addAbort) := by
  unfold abortFlag updateAckAndRefAndAbortAndSuspended
  rw [get_put_of_disjoint (by decide)]
  exact get_put_flag rfl

theorem suspendFlag_update :
    suspendFlag (updateAckAndRefAndAbortAndSuspended w addRef addAck addAbort addSuspend) =
      (suspendFlag w || addSuspend) :=
  get_put_flag rfl

theorem valueToAck_lt : valueToAck w < 2 ^ 15 := ackField.toNat_get_lt

theorem valueToRef_lt : valueToRef w < 2 ^ 15 := refField.toNat_get_lt

@[simp]
theorem valueToAck_updateRef :
    valueToAck (updateAckAndRefAndAbortAndSuspended w addRef 0 addAbort addSuspend) =
      valueToAck w := by
  have hlt := valueToAck_lt (w := w)
  have h0 : 0 ≤ (valueToAck w : ℤ) + 0 := by omega
  have h1 : (valueToAck w : ℤ) + 0 < 2 ^ 15 := by omega
  exact_mod_cast (valueToAck_update h0 h1).trans (add_zero _)

@[simp]
theorem valueToRef_updateAck :
    valueToRef (updateAckAndRefAndAbortAndSuspended w 0 addAck addAbort addSuspend) =
      valueToRef w := by
  have hlt := valueToRef_lt (w := w)
  have h0 : 0 ≤ (valueToRef w : ℤ) + 0 := by omega
  have h1 : (valueToRef w : ℤ) + 0 < 2 ^ 15 := by omega
  exact_mod_cast (valueToRef_update h0 h1).trans (add_zero _)

end Fields

section Producer

variable {w : Word} {t : Tls} {out : Word × Tls}

/-- Both counters start with the bias. -/
theorem refcacheStartProducer_spec (h : refcacheStartProducer w t = some out) :
    t.current = false ∧ out.2 = ⟨true, true, -bias, -bias, false, false⟩ ∧
      (valueToRef w + bias < 2 ^ 15 → valueToRef out.1 = valueToRef w + bias) ∧
      (valueToAck w + bias < 2 ^ 15 → valueToAck out.1 = valueToAck w + bias) ∧
      abortFlag out.1 = abortFlag w ∧ suspendFlag out.1 = suspendFlag w := by
  unfold refcacheStartProducer at h
  split_ifs at h with hc
  cases h
  have hg : ackField.get (refField.put w (refField.get w + BitVec.ofInt 32 bias)) =
      ackField.get w := get_put_of_disjoint (by decide)
  refine ⟨by simpa using hc, rfl, fun hr => ?_, fun ha => ?_, ?_, ?_⟩
  · have := toNat_get_put_add (y := w) (d := bias)
      (by omega) (by exact_mod_cast hr)
    unfold valueToRef
    rw [get_put_of_disjoint (by decide)]
    exact_mod_cast this
  · have := toNat_get_put_add
      (y := refField.put w (refField.get w + BitVec.ofInt 32 bias)) (d := bias)
      (by omega) (by exact_mod_cast ha)
    rw [hg]
    exact_mod_cast this
  · unfold abortFlag
    rw [get_put_of_disjoint (by decide), get_put_of_disjoint (by decide)]
  · unfold suspendFlag
    rw [get_put_of_disjoint (by decide), get_put_of_disjoint (by decide)]

end Producer

/-! ### What the calls leave alone -/

/-- The acks and the flags, in the word and in the thread, are as before. -/
structure SameAcks (w w' : Word) (t t' : Tls) : Prop where
  field : valueToAck w' = valueToAck w
  abortFlag : abortFlag w' = abortFlag w
  suspendFlag : suspendFlag w' = suspendFlag w
  current : t'.current = t.current
  ackNeeded : t'.ackNeeded = t.ackNeeded
  acks : t'.acks = t.acks
  abort : t'.abort = t.abort
  suspend : t'.suspend = t.suspend

section Frames

variable {w : Word} {t : Tls}

theorem sameAcks_updateAckAndRef {d : ℤ} : SameAcks w (updateAckAndRef w d 0) t t :=
  ⟨valueToAck_updateRef, by simp [updateAckAndRef, abortFlag_update],
    by simp [updateAckAndRef, suspendFlag_update], rfl, rfl, rfl, rfl, rfl⟩

theorem ref_sameAcks {out : Word × Tls} (h : ref w t = some out) : SameAcks w out.1 t out.2 := by
  unfold ref at h
  split_ifs at h <;> cases h
  · exact ⟨rfl, rfl, rfl, rfl, rfl, rfl, rfl, rfl⟩
  · exact sameAcks_updateAckAndRef

theorem unref_sameAcks {out : Word × Tls × Bool} (h : unref w t = some out) :
    SameAcks w out.1 t out.2.1 := by
  unfold unref at h
  split_ifs at h <;> cases h
  · exact ⟨rfl, rfl, rfl, rfl, rfl, rfl, rfl, rfl⟩
  · exact sameAcks_updateAckAndRef

end Frames

end LogMsg
end SyslogNg
