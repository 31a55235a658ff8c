import SyslogNg.Foundations.CachedCounter
import SyslogNg.Foundations.Run
import SyslogNg.LogMsg.RefCount

/-!
# Threads that share a message

Every interleaving of the calls that several threads make on one message, each atomic
change of the counter being one step. `ack_func` runs in the thread that completes the acks
and gives up the reference `log_source_queue` took for it. Which references and ack tokens a
thread owns is recorded next to its thread-local block; the calls themselves do not see it.
-/
namespace SyslogNg.LogMsg

open Function

/-- Where a thread is: between two calls, in `ack_func`, or in `log_msg_refcache_stop` after
the acks were folded in. -/
inductive Phase
  | running
  | acking
  | folding
  deriving DecidableEq

structure Thread where
  tls : Tls
  phase : Phase
  /-- The window was opened by `log_msg_refcache_start_producer`. -/
  producing : Bool
  ownRefs : ℕ
  ownAcks : ℕ
  /-- Types of the acks cached in the window. -/
  pending : List AckType
  deriving DecidableEq

/-- The message is new, its producer window is open, or the producer has also taken the
reference that `ack_func` gives up. -/
inductive Stage
  | fresh
  | started
  | live
  deriving DecidableEq

structure State (ι : Type*) where
  word : Word
  threads : ι → Thread
  stage : Stage
  /-- References kept for `ack_func`. -/
  ackRef : ℕ
  calls : List AckType
  frees : ℕ
  /-- Types of the acks that are in the word. -/
  folded : List AckType
  takenRefs : ℕ
  givenRefs : ℕ
  takenAcks : ℕ
  givenAcks : ℕ

inductive Event (ι : Type*)
  | startProducer (i : ι)
  | reserve (i : ι)
  | startConsumer (i : ι) (ackNeeded : Bool)
  | ref (i : ι)
  | unref (i : ι)
  | addAck (i : ι)
  | ack (i : ι) (type : AckType)
  | handRef (i j : ι)
  | handAck (i j : ι)
  | stopAcks (i : ι)
  | stopRefs (i : ι)
  | callbackUnref (i : ι)
  | callbackReturn (i : ι)

namespace State

variable {ι : Type*} [DecidableEq ι]

def setThread (s : State ι) (i : ι) (th : Thread) : State ι :=
  { s with threads := update s.threads i th }

/-- One step of a thread, `none` if an assertion fails. -/
def exec (s : State ι) : Event ι → Option (State ι)
  | .startProducer i =>
    let th := s.threads i
    (refcacheStartProducer s.word th.tls).map fun out =>
      { s with
        word := out.1
        threads := update s.threads i { th with tls := out.2, producing := true }
        stage := .started }
  | .reserve i =>
    let th := s.threads i
    (LogMsg.ref s.word th.tls).map fun out =>
      { s with
        word := out.1
        threads := update s.threads i { th with tls := out.2 }
        stage := .live
        ackRef := s.ackRef + 1
        takenRefs := s.takenRefs + 1 }
  | .startConsumer i ackNeeded =>
    let th := s.threads i
    (refcacheStartConsumer th.tls ackNeeded).map fun tls => s.setThread i { th with tls := tls }
  | .ref i =>
    let th := s.threads i
    (LogMsg.ref s.word th.tls).map fun out =>
      { s with
        word := out.1
        threads := update s.threads i { th with tls := out.2, ownRefs := th.ownRefs + 1 }
        takenRefs := s.takenRefs + 1 }
  | .unref i =>
    let th := s.threads i
    (LogMsg.unref s.word th.tls).map fun out =>
      { s with
        word := out.1
        threads := update s.threads i { th with tls := out.2.1, ownRefs := th.ownRefs - 1 }
        givenRefs := s.givenRefs + 1
        frees := s.frees + out.2.2.toNat }
  | .addAck i =>
    let th := s.threads i
    let out := LogMsg.addAck s.word th.tls true
    some { s with
      word := out.1
      threads := update s.threads i { th with tls := out.2, ownAcks := th.ownAcks + 1 }
      takenAcks := s.takenAcks + 1 }
  | .ack i type =>
    let th := s.threads i
    let out := LogMsg.ack s.word th.tls true type
    some { s with
      word := out.1
      threads := update s.threads i { th with
        tls := out.2.1
        phase := if out.2.2.isSome then .acking else .running
        ownAcks := th.ownAcks - 1
        pending := if th.tls.current then th.pending ++ [type] else th.pending }
      calls := s.calls ++ out.2.2.toList
      folded := if th.tls.current then s.folded else s.folded ++ [type]
      givenAcks := s.givenAcks + 1 }
  | .handRef i j =>
    let s₁ := s.setThread i { s.threads i with ownRefs := (s.threads i).ownRefs - 1 }
    some (s₁.setThread j { s₁.threads j with ownRefs := (s₁.threads j).ownRefs + 1 })
  | .handAck i j =>
    let s₁ := s.setThread i { s.threads i with ownAcks := (s.threads i).ownAcks - 1 }
    some (s₁.setThread j { s₁.threads j with ownAcks := (s₁.threads j).ownAcks + 1 })
  | .stopAcks i =>
    let th := s.threads i
    (refcacheStopAcks s.word th.tls).map fun out =>
      { s with
        word := out.1
        threads := update s.threads i { th with
          tls := out.2.1
          phase := if out.2.2.isSome then .acking else .folding
          pending := [] }
        calls := s.calls ++ out.2.2.toList
        folded := s.folded ++ th.pending }
  | .stopRefs i =>
    let th := s.threads i
    let out := refcacheStopRefs s.word th.tls
    some { s with
      word := out.1
      threads := update s.threads i { th with
        tls := out.2.1, phase := .running, producing := false }
      frees := s.frees + out.2.2.toNat }
  | .callbackUnref i =>
    let th := s.threads i
    (LogMsg.unref s.word th.tls).map fun out =>
      { s with
        word := out.1
        threads := update s.threads i { th with tls := out.2.1 }
        ackRef := s.ackRef - 1
        givenRefs := s.givenRefs + 1
        frees := s.frees + out.2.2.toNat }
  | .callbackReturn i =>
    let th := s.threads i
    if th.tls.current then
      if th.tls.acks = 0 then some (s.setThread i { th with phase := .folding }) else none
    else some (s.setThread i { th with phase := .running })

/-- The calls a thread is in a position to make. -/
def Enabled (s : State ι) : Event ι → Prop
  | .startProducer i => s.stage = .fresh ∧ (s.threads i).phase = .running
  | .reserve i => s.stage = .started ∧ (s.threads i).producing ∧ (s.threads i).phase = .running
  | .startConsumer i _ => s.stage ≠ .fresh ∧ (s.threads i).phase = .running ∧
    (s.threads i).tls.current = false
  | .ref i | .unref i | .addAck i | .ack i _ | .handRef i _ | .handAck i _ =>
    s.stage ≠ .fresh ∧ (s.threads i).phase = .running
  | .stopAcks i => (s.threads i).phase = .running ∧ (s.threads i).tls.current
  | .stopRefs i => (s.threads i).phase = .folding
  | .callbackUnref i => (s.threads i).phase = .acking ∧ 0 < s.ackRef
  | .callbackReturn i => (s.threads i).phase = .acking ∧ s.ackRef = 0

def system (init : State ι → Prop) : System (State ι) (Event ι) where
  init := init
  step s e s' := s.Enabled e ∧ s.exec e = some s'

instance (s : State ι) : (e : Event ι) → Decidable (s.Enabled e)
  | .startProducer _ => inferInstanceAs (Decidable (_ ∧ _))
  | .reserve _ => inferInstanceAs (Decidable (_ ∧ _))
  | .startConsumer _ _ => inferInstanceAs (Decidable (_ ∧ _))
  | .ref _ => inferInstanceAs (Decidable (_ ∧ _))
  | .unref _ => inferInstanceAs (Decidable (_ ∧ _))
  | .addAck _ => inferInstanceAs (Decidable (_ ∧ _))
  | .ack _ _ => inferInstanceAs (Decidable (_ ∧ _))
  | .handRef _ _ => inferInstanceAs (Decidable (_ ∧ _))
  | .handAck _ _ => inferInstanceAs (Decidable (_ ∧ _))
  | .stopAcks _ => inferInstanceAs (Decidable (_ ∧ _))
  | .stopRefs _ => inferInstanceAs (Decidable (_ = _))
  | .callbackUnref _ => inferInstanceAs (Decidable (_ ∧ _))
  | .callbackReturn _ => inferInstanceAs (Decidable (_ ∧ _))

def next (ok : State ι → Event ι → Prop) [∀ s e, Decidable (ok s e)] (s : State ι)
    (e : Event ι) : Option (State ι) := if ok s e ∧ s.Enabled e then s.exec e else none

theorem step_of_next {init : State ι → Prop} {ok : State ι → Event ι → Prop}
    [∀ s e, Decidable (ok s e)] (s : State ι) (e : Event ι) (s' : State ι)
    (h : next ok s e = some s') : ((system init).restrict ok).step s e s' := by
  obtain ⟨⟨hok, hen⟩, hr⟩ := Option.ite_none_right_eq_some.mp h
  exact ⟨hok, hen, hr⟩

end State
end SyslogNg.LogMsg
