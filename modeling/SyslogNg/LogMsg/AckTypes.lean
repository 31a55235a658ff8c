import SyslogNg.LogMsg.AckTokens

/-!
# The type an ack is delivered with

`ack_func` gets one type for all acks of a message. The types of earlier acks are in the flags
of the word; the ack, or the window, that completes the count looks at its own types first and
at the flags only if all of its acks are of type `AT_PROCESSED`.
-/
namespace SyslogNg.LogMsg

open List Option Function

def strongest (types : List AckType) : AckType :=
  if .suspended ∈ types then .suspended else if .aborted ∈ types then .aborted else .processed

theorem strongest_congr {types types' : List AckType} (h : ∀ type, type ∈ types ↔ type ∈ types') :
    strongest types = strongest types' := by
  simp only [strongest, h]

/-- What the completing acks `own` make of the flags of the acks `earlier`. -/
theorem combined_eq_strongest_iff (earlier own : List AckType) :
    (if .suspended ∈ own then .suspended else if .aborted ∈ own then .aborted
      else strongest earlier) = strongest (earlier ++ own) ↔
      (.aborted ∈ own → .suspended ∉ own → .suspended ∉ earlier) := by
  unfold strongest
  by_cases h1 : .suspended ∈ own <;> by_cases h2 : .aborted ∈ own <;>
    by_cases h3 : .suspended ∈ earlier <;> simp [h2, h3]

/-- A thread that has not acked the message yet, with or without a window on it. -/
structure Thread.Fresh (th : Thread) : Prop where
  running : th.phase = .running
  pending : th.pending = []
  flags : th.tls.abort = false ∧ th.tls.suspend = false
  acks : th.tls.acks = if th.producing = true then -(bias : ℤ) else 0
  producing : th.producing = true → th.tls.current = true ∧ th.tls.ackNeeded = true
  window : th.tls.current = true → th.tls.ackNeeded = true → th.producing = false →
    1 ≤ th.ownAcks

/-- A producer's window is not opened again. -/
def Thread.Keeps (th th' : Thread) : Prop := th'.producing = true →
  th.producing = true ∧ (th'.phase = .running → th.phase = .running)

/-- A step that leaves the acks a thread has cached alone. -/
structure Thread.Quiet (th th' : Thread) : Prop where
  keeps : th.Keeps th'
  pending : th'.pending = th.pending
  isOpen : th.pending ≠ [] → (ackAccount th').isOpen = (ackAccount th).isOpen

theorem Thread.Quiet.refl (th : Thread) : th.Quiet th :=
  ⟨fun h => ⟨h, id⟩, rfl, fun _ => rfl⟩

theorem Thread.Quiet.same {th : Thread} {w w' : Word} {t : Tls} {r : ℕ}
    (h : SameAcks w w' th.tls t) : th.Quiet { th with tls := t, ownRefs := r } :=
  ⟨fun hp => ⟨hp, id⟩, rfl, fun _ => congrArg Account.isOpen (ackAccount_same h)⟩

namespace State

open SyslogNg.System

variable {ι : Type*} [DecidableEq ι] [Fintype ι] {n : ℕ} {s s' s₀ : State ι} {i : ι}
  {as : List (Event ι)} {e : Event ι} {type : AckType}

/-- A message with `n` outstanding acks, none of them given yet. -/
structure Shared (n : ℕ) (s : State ι) : Prop where
  started : s.stage ≠ .fresh
  threads : ∀ i, (s.threads i).Fresh
  tokens : s.outstandingAcks = n
  field : valueToAck s.word = n + ∑ i, (ackAccount (s.threads i)).bias
  pos : valueToAck s.word ≠ 0
  flags : abortFlag s.word = false ∧ suspendFlag s.word = false
  clean : s.calls = [] ∧ s.folded = [] ∧ s.takenAcks = 0 ∧ s.givenAcks = 0

/-- The field has room for another token. -/
def AckFits (n : ℕ) (s : State ι) : Event ι → Prop
  | .addAck _ => s.takenAcks + 1 < bias ∧
    n + s.takenAcks + 1 + ∑ j, (ackAccount (s.threads j)).bias < 2 ^ 15
  | _ => True

/-- Tokens are added, given up and handed on by their owners, and the field has room for them. -/
def Proper (n : ℕ) (s : State ι) (e : Event ι) : Prop := s.AckOk e ∧ s.AckFits n e

/-- The ack, or the window, that completes the count has no ack of type `AT_ABORTED`, or has one
of type `AT_SUSPENDED`, or no earlier ack was of type `AT_SUSPENDED`. -/
def SuspendKept (s : State ι) : Event ι → Prop
  | .ack i type => (s.threads i).tls.current = false → valueToAck s.word = 1 →
    type = .aborted → suspendFlag s.word = false
  | .stopAcks i => (s.threads i).tls.ackNeeded = true →
    (valueToAck s.word : ℤ) = -(s.threads i).tls.acks → (s.threads i).tls.abort = true →
    (s.threads i).tls.suspend = false → suspendFlag s.word = false
  | _ => True

def ackTypes (as : List (Event ι)) : List AckType :=
  as.filterMap fun
    | .ack _ type => some type
    | _ => none

structure TypeInv (n : ℕ) (s : State ι) : Prop where
  acks : AckInv n s
  room : AckRoom n s
  started : s.stage ≠ .fresh
  pending : ∀ i, (s.threads i).pending ≠ [] → (ackAccount (s.threads i)).isOpen = true

theorem Shared.typeInv (h : Shared n s) : TypeInv n s := by
  obtain ⟨hca, hf, ht, hg⟩ := h.clean
  have hc : ∀ i, (ackAccount (s.threads i)).cached + (ackAccount (s.threads i)).bias = 0 := by
    intro i
    have hth := h.threads i
    simp only [ackAccount, hth.acks, hth.running, and_true]
    split_ifs <;> simp
  have how : ∑ i, ((ackAccount (s.threads i)).own : ℤ) = n := by
    rw [← h.tokens]
    simp [outstandingAcks, ackAccount]
  have hs : ∑ i, (ackAccount (s.threads i)).cached +
      ∑ i, ((ackAccount (s.threads i)).bias : ℤ) = 0 := by
    rw [← Finset.sum_add_distrib]
    exact Finset.sum_eq_zero fun i _ => hc i
  have hfl : (valueToAck s.word : ℤ) = n + ∑ i, ((ackAccount (s.threads i)).bias : ℤ) := by
    exact_mod_cast h.field
  refine ⟨⟨⟨?_, ?_, ?_, ?_, ?_⟩, ?_, ?_, ?_, ?_⟩, ⟨?_, ?_⟩, h.started, ?_⟩
  · simp only [ackLedger]
    omega
  · simp only [ackLedger, hg]
    omega
  · simp only [ackLedger, hc, max_self, Finset.sum_const_zero]
    omega
  · simp [ackLedger, hc]
  · intro i
    have hth := h.threads i
    refine ⟨fun hcl => ?_, fun ho hb => ?_, ?_⟩
    · have hp : (s.threads i).producing = false := by
        by_contra hp
        obtain ⟨hcr, hn⟩ := hth.producing (by simpa using hp)
        simp [ackLedger, ackAccount, hcr, hn, hth.running] at hcl
      simp [ackLedger, ackAccount, hp, hth.acks]
    · simp only [ackLedger, ackAccount, Bool.and_eq_true] at ho
      have hp : (s.threads i).producing = false := by
        by_contra hp
        simp [ackLedger, ackAccount, hth.running, hp, bias] at hb
      have how := hth.window ho.1.1 ho.1.2 hp
      simpa [ackLedger, ackAccount, hth.acks, hp] using Nat.pos_of_ne_zero (by omega)
    · simp [ackLedger, hc]
  · intro i
    have hth := h.threads i
    refine ⟨fun hcr => ⟨?_, by simp [hth.running], hth.pending⟩, fun _ => hth.pending,
      fun hp => (hth.producing hp).2, by simp [hth.flags, hth.pending],
      by simp [hth.flags, hth.pending]⟩
    by_contra hp
    simp [(hth.producing (by simpa using hp)).1] at hcr
  · simp [hca, h.pos]
  · simp [h.flags, hf]
  · simp [h.flags, hf]
  · intro i _
    rw [ht]
    decide
  · have hlt := valueToAck_lt (w := s.word)
    omega
  · intro i hne
    exact absurd (h.threads i).pending hne

/-- What a step other than an ack and the end of a window does. -/
structure Quiet (s : State ι) (e : Event ι) (s' : State ι) : Prop where
  calls : s'.calls = s.calls
  folded : s'.folded = s.folded
  taken : s'.takenAcks = s.takenAcks ∨ (∃ i, e = .addAck i) ∧ s'.takenAcks = s.takenAcks + 1
  started : s'.stage ≠ .fresh
  threads : ∀ j, (s.threads j).Quiet (s'.threads j)

theorem TypeInv.quiet (h : TypeInv n s) (hen : s.Enabled e)
    (hrn : s.exec e = some s') (hac : ∀ i type, e ≠ .ack i type) (hs : ∀ i, e ≠ .stopAcks i) :
    Quiet s e s' := by
  have hu : ∀ (i : ι) (th : Thread), (s.threads i).Quiet th →
      ∀ j, (s.threads j).Quiet (update s.threads i th j) := fun i th hq =>
    (forall_update_iff s.threads fun j th => (s.threads j).Quiet th).mpr
      ⟨hq, fun j _ => .refl _⟩
  have hu₂ : ∀ (i j : ι) (th th' : Thread), (s.threads i).Quiet th →
      th'.producing = (update s.threads i th j).producing →
      th'.phase = (update s.threads i th j).phase →
      th'.pending = (update s.threads i th j).pending →
      th'.tls = (update s.threads i th j).tls →
      ∀ k, (s.threads k).Quiet (update (update s.threads i th) j th' k) := by
    intro i j th th' hq h1 h2 h3 h4
    have hf := hu i th hq
    refine (forall_update_iff _ fun k (th : Thread) => (s.threads k).Quiet th).mpr
      ⟨⟨?_, h3.trans (hf j).pending, fun hne => ?_⟩, fun k _ => hf k⟩
    · rw [Thread.Keeps, h1, h2]
      exact (hf j).keeps
    · rw [← (hf j).isOpen hne]
      simp [ackAccount, h2, h4]
  cases e with
  | startProducer i => exact absurd hen.1 h.started
  | reserve i =>
    obtain ⟨out, ho, rfl⟩ := map_eq_some_iff.mp hrn
    exact ⟨rfl, rfl, .inl rfl, by simp, hu i _ (.same (ref_sameAcks ho))⟩
  | startConsumer i ackNeeded =>
    obtain ⟨tls, ht, rfl⟩ := map_eq_some_iff.mp hrn
    have hpn := ((h.acks.tidy i).idle hen.2.2).2.2
    exact ⟨rfl, rfl, .inl rfl, h.started,
      hu i _ ⟨fun hp => ⟨hp, id⟩, rfl, fun hne => absurd hpn hne⟩⟩
  | ref i =>
    obtain ⟨out, ho, rfl⟩ := map_eq_some_iff.mp hrn
    exact ⟨rfl, rfl, .inl rfl, h.started, hu i _ (.same (ref_sameAcks ho))⟩
  | unref i =>
    obtain ⟨out, ho, rfl⟩ := map_eq_some_iff.mp hrn
    exact ⟨rfl, rfl, .inl rfl, h.started, hu i _ (.same (unref_sameAcks ho))⟩
  | addAck i =>
    cases hrn
    refine ⟨rfl, rfl, .inr ⟨⟨i, rfl⟩, rfl⟩, h.started,
      hu i _ ⟨fun hp => ⟨hp, id⟩, rfl, fun _ => ?_⟩⟩
    cases hc : (s.threads i).tls.current <;> simp [ackAccount, LogMsg.addAck, hc]
  | ack i type => exact absurd rfl (hac i type)
  | handRef i j =>
    cases hrn
    exact ⟨rfl, rfl, .inl rfl, h.started,
      hu₂ i j _ _ ⟨fun hp => ⟨hp, id⟩, rfl, fun _ => rfl⟩ rfl rfl rfl rfl⟩
  | handAck i j =>
    cases hrn
    exact ⟨rfl, rfl, .inl rfl, h.started,
      hu₂ i j _ _ ⟨fun hp => ⟨hp, id⟩, rfl, fun _ => rfl⟩ rfl rfl rfl rfl⟩
  | stopAcks i => exact absurd rfl (hs i)
  | stopRefs i =>
    cases hrn
    have hph : (s.threads i).phase = .folding := hen
    have hpn := (h.acks.tidy i).settled (by simp [hph])
    exact ⟨rfl, rfl, .inl rfl, h.started,
      hu i _ ⟨by simp [Thread.Keeps], rfl, fun hne => absurd hpn hne⟩⟩
  | callbackUnref i =>
    obtain ⟨out, ho, rfl⟩ := map_eq_some_iff.mp hrn
    exact ⟨rfl, rfl, .inl rfl, h.started, hu i _ (.same (unref_sameAcks ho))⟩
  | callbackReturn i =>
    have hpn := (h.acks.tidy i).settled (by simp [hen.1])
    simp only [State.exec] at hrn
    split_ifs at hrn with hc ha <;> cases hrn
    · exact ⟨rfl, rfl, .inl rfl, h.started,
        hu i _ ⟨fun hp => ⟨hp, by simp⟩, rfl, fun hne => absurd hpn hne⟩⟩
    · have hi := (h.acks.tidy i).idle (by simpa using hc)
      exact ⟨rfl, rfl, .inl rfl, h.started,
        hu i _ ⟨by simp [Thread.Keeps, hi.1], rfl, fun hne => absurd hpn hne⟩⟩

theorem AckRoom.mono (h : AckRoom n s) (hp : ∀ j, (s.threads j).Keeps (s'.threads j))
    (ht : s'.takenAcks = s.takenAcks ∨ s'.takenAcks = s.takenAcks + 1 ∧ s.takenAcks + 1 < bias ∧
      n + s.takenAcks + 1 + ∑ j, (ackAccount (s.threads j)).bias < 2 ^ 15) : AckRoom n s' := by
  have hb : ∑ j, ((ackAccount (s'.threads j)).bias : ℤ) ≤
      ∑ j, ((ackAccount (s.threads j)).bias : ℤ) := by
    refine Finset.sum_le_sum fun j _ => ?_
    by_cases hn : (s'.threads j).producing = true ∧ (s'.threads j).phase = .running
    · obtain ⟨ho, hph⟩ := hp j hn.1
      simp [ackAccount, hn, ho, hph hn.2]
    · simp only [ackAccount, if_neg hn]
      exact_mod_cast Nat.zero_le _
  have hrm := h.room
  rcases ht with ht | ⟨ht, hlt, hf⟩
  · refine ⟨fun j hj => ?_, by rw [ht]; omega⟩
    rw [ht]
    exact h.biased j (hp j hj).1
  · refine ⟨fun j _ => by omega, ?_⟩
    zify at hf
    omega

theorem TypeInv.exec (h : TypeInv n s) (hen : s.Enabled e) (hok : s.Proper n e)
    (hrn : s.exec e = some s') : TypeInv n s' := by
  have hmk : (∀ j, (s.threads j).Keeps (s'.threads j)) →
      (s'.takenAcks = s.takenAcks ∨ (∃ i, e = .addAck i) ∧ s'.takenAcks = s.takenAcks + 1) →
      s'.stage ≠ .fresh →
      (∀ j, (s'.threads j).pending ≠ [] → (ackAccount (s'.threads j)).isOpen = true) →
      TypeInv n s' := by
    intro hke htk hs hpn
    have hrm : AckRoom n s' := by
      refine h.room.mono hke (htk.imp_right ?_)
      rintro ⟨⟨i, rfl⟩, ht⟩
      exact ⟨ht, hok.2⟩
    exact ⟨h.acks.exec h.room hen hok.1 hrn hrm fun hf => absurd hf h.started, hrm, hs, hpn⟩
  have hkp : ∀ (i : ι) (th : Thread), (s.threads i).Keeps th →
      ∀ j, (s.threads j).Keeps (update s.threads i th j) := fun i th hk =>
    (forall_update_iff s.threads fun j th => (s.threads j).Keeps th).mpr
      ⟨hk, fun j _ hp => ⟨hp, id⟩⟩
  have hpe : ∀ (i : ι) (th : Thread), (th.pending ≠ [] → (ackAccount th).isOpen = true) →
      ∀ j, (update s.threads i th j).pending ≠ [] →
        (ackAccount (update s.threads i th j)).isOpen = true := fun i th hk =>
    (forall_update_iff s.threads fun j th => th.pending ≠ [] →
      (ackAccount th).isOpen = true).mpr ⟨hk, fun j _ => h.pending j⟩
  by_cases ha : ∃ i type, e = .ack i type
  · obtain ⟨i, type, rfl⟩ := ha
    have hph := hen.2
    cases hrn
    refine hmk (hkp i _ fun hp => ⟨hp, fun _ => hph⟩) (.inl rfl) h.started
      (hpe i _ fun hne => ?_)
    cases hc : (s.threads i).tls.current with
    | true => simp [ackAccount, LogMsg.ack, hc, hok.1.2 hc]
    | false =>
      simp only [hc] at hne
      exact absurd ((h.acks.tidy i).idle hc).2.2 hne
  by_cases hst : ∃ i, e = .stopAcks i
  · obtain ⟨i, rfl⟩ := hst
    have hph := hen.1
    obtain ⟨out, ho, rfl⟩ := map_eq_some_iff.mp hrn
    exact hmk (hkp i _ fun hp => ⟨hp, fun _ => hph⟩) (.inl rfl) h.started
      (hpe i _ fun hne => absurd rfl hne)
  · have hq := h.quiet hen hrn (fun i type he => ha ⟨i, type, he⟩) fun i he => hst ⟨i, he⟩
    refine hmk (fun j => (hq.threads j).keeps) hq.taken hq.started fun j hne => ?_
    rw [(hq.threads j).pending] at hne
    rw [(hq.threads j).isOpen hne]
    exact h.pending j hne

/-- The calls so far had the strongest type of the acks folded in. -/
def Faithful (s : State ι) : Prop := ∀ type ∈ s.calls, type = strongest s.folded

theorem AckInv.toAckType_eq (h : AckInv n s) : toAckType s.word = strongest s.folded := by
  simp [toAckType, strongest, h.abort, h.suspend]

/-- `ack_func` is called with the combined type if the count is complete. -/
theorem faithful_call {b : Prop} [Decidable b] {calls folded : List AckType}
    (own : List AckType) (hc : calls = []) (ht : type = if .suspended ∈ own then .suspended
      else if .aborted ∈ own then .aborted else strongest folded) :
    (∀ t ∈ calls ++ (if b then some type else none).toList, t = strongest (folded ++ own)) ↔
      (b → .aborted ∈ own → .suspended ∉ own → .suspended ∉ folded) := by
  rw [← combined_eq_strongest_iff, ← ht]
  by_cases hb : b <;> simp [hc]

theorem TypeInv.faithful_ack (h : TypeInv n s) (hok : s.AckOk (.ack i type))
    (hrn : s.exec (.ack i type) = some s') :
    Faithful s' ↔ Faithful s ∧ s.SuspendKept (.ack i type) := by
  have hc := h.acks.calls_eq_nil
    (h.acks.ledger.one_le_field_of_own h.room.bias_ne_zero hok.1)
  have hf : Faithful s := by simp [Faithful, hc]
  by_cases hcr : (s.threads i).tls.current = true
  · simp only [State.exec, LogMsg.ack] at hrn
    cases hrn
    simp [Faithful, SuspendKept, hcr]
  · simp only [State.exec, LogMsg.ack, hcr, if_true, Bool.false_eq_true, if_false] at hrn
    cases hrn
    rw [Faithful, faithful_call [type] hc]
    · simp only [hf, SuspendKept, h.acks.suspend, hcr]
      cases type <;> simp
    · rw [h.acks.toAckType_eq]
      simp [eq_comm]

theorem TypeInv.faithful_stopAcks (h : TypeInv n s) (hen : s.Enabled (.stopAcks i))
    (hrn : s.exec (.stopAcks i) = some s') :
    Faithful s' ↔ Faithful s ∧ s.SuspendKept (.stopAcks i) := by
  obtain ⟨out, hot, rfl⟩ := map_eq_some_iff.mp hrn
  obtain ⟨hph, hcr⟩ := hen
  obtain ⟨-, hot⟩ := ite_none_right_eq_some.mp hot
  cases hot
  have ht := h.acks.tidy i
  by_cases hn : (s.threads i).tls.ackNeeded = true
  · have ho : ((s.ackLedger n).accounts i).isOpen = true := by
      simp [ackLedger, ackAccount, hcr, hn, hph]
    have hc := h.acks.calls_eq_nil
      (h.acks.ledger.one_le_field_of_open h.room.bias_ne_zero ho)
    have hf : Faithful s := by simp [Faithful, hc]
    rw [Faithful, faithful_call (s.threads i).pending hc]
    · simp [hf, SuspendKept, h.acks.suspend, ht.abort, ht.suspend, hn]
    · rw [h.acks.toAckType_eq]
      simp [ht.abort, ht.suspend]
  · have hp : (s.threads i).pending = [] := by
      by_contra hne
      have ho := h.pending i hne
      simp [ackAccount, hn] at ho
    simp [Faithful, SuspendKept, hn, hp]

theorem TypeInv.faithful_iff (h : TypeInv n s) (hen : s.Enabled e)
    (hok : s.AckOk e) (hrn : s.exec e = some s') : Faithful s' ↔ Faithful s ∧ s.SuspendKept e := by
  by_cases ha : ∃ i type, e = .ack i type
  · obtain ⟨i, type, rfl⟩ := ha
    exact h.faithful_ack hok hrn
  by_cases hs : ∃ i, e = .stopAcks i
  · obtain ⟨i, rfl⟩ := hs
    exact h.faithful_stopAcks hen hrn
  · have hq := h.quiet hen hrn (fun i type he => ha ⟨i, type, he⟩) fun i he => hs ⟨i, he⟩
    have hk : s.SuspendKept e := by
      cases e with
      | ack i type => exact absurd ⟨i, type, rfl⟩ ha
      | stopAcks i => exact absurd ⟨i, rfl⟩ hs
      | _ => trivial
    rw [Faithful, hq.calls, hq.folded, Faithful, and_iff_left hk]

theorem exists_pending_update {th : Thread} :
    (∃ j, type ∈ (Function.update s.threads i th j).pending) ↔
      type ∈ th.pending ∨ ∃ j, j ≠ i ∧ type ∈ (s.threads j).pending :=
  exists_update_iff s.threads fun _ (th : Thread) => type ∈ th.pending

/-- The acks of a run are in the word or still in a window. -/
theorem TypeInv.mem_ackTypes (h : TypeInv n s) (hen : s.Enabled e) (hrn : s.exec e = some s') :
    (type ∈ s'.folded ∨ ∃ i, type ∈ (s'.threads i).pending) ↔
      (type ∈ s.folded ∨ ∃ i, type ∈ (s.threads i).pending) ∨ type ∈ ackTypes [e] := by
  have hs : ∀ i, (∃ j, type ∈ (s.threads j).pending) ↔
      type ∈ (s.threads i).pending ∨ ∃ j, j ≠ i ∧ type ∈ (s.threads j).pending := fun i => by
    rw [← exists_pending_update, update_eq_self]
  by_cases ha : ∃ i type, e = .ack i type
  · obtain ⟨i, t, rfl⟩ := ha
    have ht : ackTypes [Event.ack i t] = [t] := rfl
    cases hrn
    rw [exists_pending_update, hs i]
    generalize (∃ j, j ≠ i ∧ type ∈ (s.threads j).pending) = others
    cases hc : (s.threads i).tls.current <;>
      simp only [Bool.false_eq_true, if_true, if_false, mem_append] <;> tauto
  by_cases hst : ∃ i, e = .stopAcks i
  · obtain ⟨i, rfl⟩ := hst
    obtain ⟨out, ho, rfl⟩ := map_eq_some_iff.mp hrn
    rw [exists_pending_update, hs i]
    generalize (∃ j, j ≠ i ∧ type ∈ (s.threads j).pending) = others
    simp only [mem_append]
    tauto
  · have hq := h.quiet hen hrn (fun i type he => ha ⟨i, type, he⟩) fun i he => hst ⟨i, he⟩
    have hn : type ∉ ackTypes [e] := by
      cases e with
      | ack i type => exact absurd ⟨i, type, rfl⟩ ha
      | _ => simp [ackTypes]
    rw [hq.folded, or_iff_left hn]
    simp only [(hq.threads _).pending]

section Runs

variable (h0 : Shared n s₀) (hr : ((system (Shared n)).restrict (Proper n)).Run s₀ as s)
include h0 hr

theorem typeInv_run : TypeInv n s :=
  hr.invariant (fun _ _ _ h hs => h.exec hs.2.1 hs.1 hs.2.2) h0.typeInv

theorem mem_ackTypes_run :
    type ∈ ackTypes as ↔ type ∈ s.folded ∨ ∃ i, type ∈ (s.threads i).pending := by
  induction hr with
  | nil => simp [ackTypes, h0.clean, (h0.threads _).pending]
  | snoc hr hs ih =>
    rw [(typeInv_run h0 hr).mem_ackTypes hs.2.1 hs.2.2, ← ih, ackTypes, filterMap_append,
      mem_append]
    rfl

theorem faithful_run_iff :
    Faithful s ↔ (((system (Shared n)).restrict (Proper n)).restrict SuspendKept).Run s₀ as s :=
  Run.restrict_iff (fun _ _ _ h hs => h.exec hs.2.1 hs.1 hs.2.2)
    (fun _ _ _ h hs => h.faithful_iff hs.2.1 hs.1.1 hs.2.2) hr h0.typeInv
    (by simp [Faithful, h0.clean])

end Runs

/-- Once all acks are given and folded in, `ack_func` was called once. Its type was the
strongest one of the acks exactly if the completing step did not hide an earlier
`AT_SUSPENDED`. -/
theorem called_with_strongest_iff (h0 : Shared n s₀)
    (hr : ((system (Shared n)).restrict (Proper n)).Run s₀ as s) (hdone : s.outstandingAcks = 0)
    (hfolded : ∀ i, (s.threads i).tls.acks = 0) : ∃ type, s.calls = [type] ∧
      (type = strongest (ackTypes as) ↔
        (((system (Shared n)).restrict (Proper n)).restrict SuspendKept).Run s₀ as s) := by
  have h := typeInv_run h0 hr
  have hf : valueToAck s.word = 0 := by
    have hb := h.acks.ledger.balance
    have ho : ∑ i, ((s.threads i).ownAcks : ℤ) = 0 := by exact_mod_cast hdone
    simp only [ackLedger, ackAccount, hfolded, ho, Finset.sum_const_zero] at hb
    exact_mod_cast hb
  have hp : ∀ i, (s.threads i).pending = [] := by
    intro i
    by_contra hne
    have := h.acks.ledger.one_le_field_of_open h.room.bias_ne_zero (h.pending i hne)
    simp [ackLedger, hf] at this
  have hl : s.calls.length = 1 := by simp [h.acks.calls, h.started, hf]
  obtain ⟨type, ht⟩ := length_eq_one_iff.mp hl
  refine ⟨type, ht, ?_⟩
  have hm : ∀ t, t ∈ ackTypes as ↔ t ∈ s.folded := by
    intro t
    simp [mem_ackTypes_run h0 hr, hp]
  rw [← faithful_run_iff h0 hr, Faithful, ht, forall_mem_singleton, strongest_congr hm]

instance (s : State ι) : (e : Event ι) → Decidable (s.AckFits n e)
  | .addAck _ => inferInstanceAs (Decidable (_ ∧ _))
  | .startProducer _ | .reserve _ | .startConsumer _ _ | .ref _ | .unref _ | .ack _ _
  | .handRef _ _ | .handAck _ _ | .stopAcks _ | .stopRefs _ | .callbackUnref _
  | .callbackReturn _ => .isTrue trivial

instance (s : State ι) (e : Event ι) : Decidable (s.Proper n e) :=
  inferInstanceAs (Decidable (_ ∧ _))

def twoAcks : State (Fin 2) where
  word := refField.toValue 2#32 ||| ackField.toValue 2#32
  threads _ := ⟨⟨false, false, 0, 0, false, false⟩, .running, false, 1, 1, []⟩
  stage := .live
  ackRef := 0
  calls := []
  frees := 0
  folded := []
  takenRefs := 0
  givenRefs := 0
  takenAcks := 0
  givenAcks := 0

theorem shared_twoAcks : Shared 2 twoAcks := by
  refine ⟨by decide, fun i => ⟨rfl, rfl, ⟨rfl, rfl⟩, rfl, nofun, fun _ _ _ => le_rfl⟩, ?_, ?_,
    ?_, ?_, rfl, rfl, rfl, rfl⟩ <;> decide +kernel

theorem exists_run_twoAcks (as : List (Event (Fin 2))) (calls : List AckType)
    (h : (as.foldlM (next (Proper 2)) twoAcks).map
      (fun s => (s.calls, s.outstandingAcks, decide (∀ i, (s.threads i).tls.acks = 0))) =
      some (calls, 0, true)) :
    ∃ s, ((system (Shared 2)).restrict (Proper 2)).Run twoAcks as s ∧ s.outstandingAcks = 0 ∧
      (∀ i, (s.threads i).tls.acks = 0) ∧ s.calls = calls := by
  obtain ⟨s, hs, ho⟩ := map_eq_some_iff.mp h
  simp only [Prod.mk.injEq, decide_eq_true_eq] at ho
  exact ⟨s, Run.of_foldlM step_of_next hs, ho.2.1, ho.2.2, ho.1⟩

/-- One ack through a window, the other one, `AT_SUSPENDED`, completes the count. -/
theorem called_with_strongest_window : ∃ s,
    (((system (Shared 2)).restrict (Proper 2)).restrict SuspendKept).Run twoAcks
      [.startConsumer 0 true, .ack 0 .aborted, .stopAcks 0, .stopRefs 0, .ack 1 .suspended] s ∧
    s.calls = [.suspended] := by
  obtain ⟨s, hr, hd, hf, hc⟩ := exists_run_twoAcks
    [.startConsumer 0 true, .ack 0 .aborted, .stopAcks 0, .stopRefs 0, .ack 1 .suspended]
    [.suspended] (by decide +kernel)
  obtain ⟨type, ht, hi⟩ := called_with_strongest_iff shared_twoAcks hr hd hf
  refine ⟨s, hi.mp ?_, hc⟩
  rw [hc] at ht
  cases ht
  decide

/-- The same two acks are delivered as `AT_ABORTED` or as `AT_SUSPENDED`, depending on their
order, and as `AT_ABORTED` also if the last one goes through a window. -/
theorem aborted_hides_suspended : (∃ s, ((system (Shared 2)).restrict (Proper 2)).Run twoAcks
      [.ack 0 .suspended, .ack 1 .aborted] s ∧ s.outstandingAcks = 0 ∧
      (∀ i, (s.threads i).tls.acks = 0) ∧ s.calls = [.aborted]) ∧
    (∃ s, ((system (Shared 2)).restrict (Proper 2)).Run twoAcks
      [.ack 1 .aborted, .ack 0 .suspended] s ∧ s.outstandingAcks = 0 ∧
      (∀ i, (s.threads i).tls.acks = 0) ∧ s.calls = [.suspended]) ∧
    (∃ s, ((system (Shared 2)).restrict (Proper 2)).Run twoAcks
      [.ack 0 .suspended, .startConsumer 1 true, .ack 1 .aborted, .stopAcks 1] s ∧
      s.outstandingAcks = 0 ∧ (∀ i, (s.threads i).tls.acks = 0) ∧ s.calls = [.aborted]) :=
  ⟨exists_run_twoAcks _ _ (by decide +kernel), exists_run_twoAcks _ _ (by decide +kernel),
    exists_run_twoAcks _ _ (by decide +kernel)⟩

end State
end SyslogNg.LogMsg
