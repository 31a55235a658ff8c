import SyslogNg.LogMsg.RefCache

/-!
# Ack tokens

The ack field of a message as a counter of tokens that the threads own, some of them through
the caches of their windows. As long as tokens are given up by their owners, `ack_func` is
called by the step that brings the field to zero, and by no other one.
-/
namespace SyslogNg.LogMsg

open Option Function Ledger

/-- Flags and windows of a thread fit together. -/
structure Thread.Tidy (th : Thread) : Prop where
  idle : th.tls.current = false → th.producing = false ∧ th.phase ≠ .folding ∧ th.pending = []
  settled : th.phase ≠ .running → th.pending = []
  ackNeeded : th.producing = true → th.tls.ackNeeded = true
  abort : th.tls.abort = decide (.aborted ∈ th.pending)
  suspend : th.tls.suspend = decide (.suspended ∈ th.pending)

variable {th : Thread}

theorem Thread.Tidy.same {w w' : Word} {t : Tls} {r : ℕ} (h : th.Tidy)
    (hs : SameAcks w w' th.tls t) : ({ th with tls := t, ownRefs := r } : Thread).Tidy :=
  ⟨fun hc => h.idle (hs.current ▸ hc), h.settled, fun hp => hs.ackNeeded ▸ h.ackNeeded hp,
    hs.abort.trans h.abort, hs.suspend.trans h.suspend⟩

def ackAccount (th : Thread) : Account where
  own := th.ownAcks
  cached := th.tls.acks
  bias := if th.producing = true ∧ th.phase = .running then bias else 0
  isOpen := th.tls.current && th.tls.ackNeeded && decide (th.phase = .running)

theorem ackAccount_same {w w' : Word} {t : Tls} {r : ℕ} (hs : SameAcks w w' th.tls t) :
    ackAccount { th with tls := t, ownRefs := r } = ackAccount th := by
  simp [ackAccount, hs.acks, hs.current, hs.ackNeeded]

namespace State

variable {ι : Type*}

def ackLedger (n : ℕ) (s : State ι) : Ledger ι :=
  ⟨valueToAck s.word, 0, fun i => ackAccount (s.threads i), n, s.takenAcks, s.givenAcks⟩

/-- Every thread gives up and hands on only tokens it owns. A token is added by a thread that
owns one or has a window for acks, and such a window keeps one of the tokens it was opened
with or was handed since. -/
def AckOk (s : State ι) : Event ι → Prop
  | .startConsumer i ackNeeded => ackNeeded = true → 1 ≤ (s.threads i).ownAcks
  | .addAck i => if (s.threads i).tls.current then (s.threads i).tls.ackNeeded = true
    else 1 ≤ (s.threads i).ownAcks
  | .ack i _ => 1 ≤ (s.threads i).ownAcks ∧
    ((s.threads i).tls.current = true → (s.threads i).tls.ackNeeded = true)
  | .handAck i _ => 1 ≤ (s.threads i).ownAcks ∧
    ((s.threads i).tls.current = true → (s.threads i).tls.ackNeeded = true →
      (s.threads i).producing = false → (s.threads i).tls.acks + 1 < (s.threads i).ownAcks)
  | _ => True

instance (s : State ι) : (e : Event ι) → Decidable (s.AckOk e)
  | .startConsumer i ackNeeded =>
    inferInstanceAs (Decidable (ackNeeded = true → 1 ≤ (s.threads i).ownAcks))
  | .addAck i => inferInstanceAs (Decidable (if (s.threads i).tls.current then
    (s.threads i).tls.ackNeeded = true else 1 ≤ (s.threads i).ownAcks))
  | .ack _ _ => inferInstanceAs (Decidable (_ ∧ _))
  | .handAck _ _ => inferInstanceAs (Decidable (_ ∧ _))
  | .startProducer _ | .reserve _ | .ref _ | .unref _ | .handRef _ _ | .stopAcks _ | .stopRefs _
  | .callbackUnref _ | .callbackReturn _ => .isTrue trivial

variable [DecidableEq ι] [Fintype ι]

def outstandingAcks (s : State ι) : ℕ := ∑ i, (s.threads i).ownAcks

/-- The field has room for the tokens, the bias covers those taken in the producer's window. -/
structure AckRoom (n : ℕ) (s : State ι) : Prop where
  biased : ∀ i, (s.threads i).producing = true → s.takenAcks < bias
  room : n + s.takenAcks + ∑ i, ((ackAccount (s.threads i)).bias : ℤ) < 2 ^ 15

structure AckInv (n : ℕ) (s : State ι) : Prop where
  ledger : (s.ackLedger n).Valid
  tidy : ∀ i, (s.threads i).Tidy
  calls : s.calls.length = if s.stage ≠ .fresh ∧ valueToAck s.word = 0 then 1 else 0
  abort : abortFlag s.word = decide (.aborted ∈ s.folded)
  suspend : suspendFlag s.word = decide (.suspended ∈ s.folded)

variable {n : ℕ} {s s' : State ι} {i : ι}

omit [Fintype ι] in
theorem map_update {α β : Type*} (φ : α → β) (f : ι → α) (i : ι) (a : α) :
    (fun j => φ (update f i a j)) = update (fun j => φ (f j)) i (φ a) :=
  comp_update φ f i a

theorem AckRoom.bias_ne_zero (h : AckRoom n s) (j : ι)
    (hb : ((s.ackLedger n).accounts j).bias ≠ 0) :
    (s.ackLedger n).taken < ((s.ackLedger n).accounts j).bias := by
  simp only [ackLedger, ackAccount] at hb ⊢
  split_ifs at hb ⊢ with hp
  · exact h.biased j hp.1
  · exact absurd rfl hb

theorem AckRoom.field_range (hr : AckRoom n s') {l : Ledger ι} (hv : l.Valid)
    (ha : l.accounts = fun j => ackAccount (s'.threads j)) (hi : l.initial = n)
    (ht : l.taken = s'.takenAcks) : 0 ≤ l.field ∧ l.field < 2 ^ 15 := by
  constructor
  · refine hv.field_nonneg fun j hb => ?_
    rw [ht]
    rw [ha] at hb ⊢
    exact hr.bias_ne_zero j hb
  · have hle := hv.field_le
    have := hr.room
    simp only [ha] at hle
    omega

omit [Fintype ι] in
theorem ackLedger_of_update (hth : s'.threads = update s.threads i th) :
    s'.ackLedger n = ⟨valueToAck s'.word, 0,
      update (s.ackLedger n).accounts i (ackAccount th), n, s'.takenAcks, s'.givenAcks⟩ := by
  rw [ackLedger, hth, map_update]
  rfl

section

variable (h : AckInv n s) (hth : s'.threads = update s.threads i th)
include h hth

theorem AckInv.tidy_update (ht : th.Tidy) (j : ι) : (s'.threads j).Tidy := by
  rw [hth]
  revert j
  exact (forall_update_iff s.threads fun _ th => th.Tidy).mpr
    ⟨ht, fun j _ => h.tidy j⟩

theorem AckInv.frame (hac : ackAccount th = ackAccount (s.threads i)) (htd : th.Tidy)
    (hfl : valueToAck s'.word = valueToAck s.word) (ha : abortFlag s'.word = abortFlag s.word)
    (hs : suspendFlag s'.word = suspendFlag s.word)
    (hst : s'.stage = .fresh ↔ s.stage = .fresh) (hc : s'.calls = s.calls)
    (hf : s'.folded = s.folded) (ht : s'.takenAcks = s.takenAcks)
    (hg : s'.givenAcks = s.givenAcks) : AckInv n s' := by
  have hl : s'.ackLedger n = s.ackLedger n := by
    rw [ackLedger_of_update hth, hac, hfl, ht, hg]
    have : update (s.ackLedger n).accounts i (ackAccount (s.threads i)) =
        (s.ackLedger n).accounts := update_eq_self i _
    rw [this]
    rfl
  refine ⟨hl ▸ h.ledger, h.tidy_update hth htd, ?_, ?_, ?_⟩
  · rw [hc, hfl, h.calls]
    simp [hst]
  · rw [ha, hf, h.abort]
  · rw [hs, hf, h.suspend]

end

/-- A step of thread `i` makes `l` of the ledger if the word follows it while there is room. -/
theorem AckRoom.ledger_eq (hr : AckRoom n s') {l : Ledger ι}
    (hth : s'.threads = update s.threads i th) (hv : l.Valid)
    (hac : l.accounts = update (s.ackLedger n).accounts i (ackAccount th))
    (hi : l.initial = n) (he : l.escrow = 0) (ht : l.taken = s'.takenAcks)
    (hg : l.given = s'.givenAcks)
    (hf : 0 ≤ l.field → l.field < 2 ^ 15 → (valueToAck s'.word : ℤ) = l.field) :
    s'.ackLedger n = l := by
  have ha : l.accounts = fun j => ackAccount (s'.threads j) := by
    rw [hac, hth, map_update]
    rfl
  obtain ⟨h0, h1⟩ := hr.field_range hv ha hi ht
  simp only [ackLedger]
  congr 1
  · exact hf h0 h1
  · exact he.symm
  · exact ha.symm
  · exact hi.symm
  · exact ht.symm
  · exact hg.symm

omit [DecidableEq ι] [Fintype ι] in
theorem length_calls_append {w : Word} {stage : Stage} {calls : List AckType} {b : Prop}
    [Decidable b] {type : AckType} (hc : calls = []) (hs : stage ≠ .fresh)
    (hb : b ↔ valueToAck w = 0) : (calls ++ (if b then some type else none).toList).length =
      if stage ≠ .fresh ∧ valueToAck w = 0 then 1 else 0 := by
  by_cases hz : valueToAck w = 0
  · simp [hc, hs, hz, hb.mpr hz]
  · simp [hc, hz, mt hb.mp hz]

section Steps

variable (h : AckInv n s)
include h

theorem AckInv.calls_eq_nil (hf : 1 ≤ (s.ackLedger n).field) : s.calls = [] := by
  have hne : valueToAck s.word ≠ 0 := by
    change 1 ≤ (valueToAck s.word : ℤ) at hf
    omega
  rw [← List.length_eq_zero_iff, h.calls, if_neg (fun hz => hne hz.2)]

theorem AckInv.startProducer (hen : s.Enabled (.startProducer i))
    (hr : s.exec (.startProducer i) = some s') (hr' : AckRoom n s') : AckInv n s' := by
  obtain ⟨out, ho, rfl⟩ := map_eq_some_iff.mp hr
  obtain ⟨hf, hph⟩ := hen
  obtain ⟨hc, ht, -, hac, ha, hs⟩ := refcacheStartProducer_spec ho
  obtain ⟨-, -, hp⟩ := (h.tidy i).idle hc
  have hv := h.ledger.openWindow (i := i) (b := bias) (by simp [ackLedger, ackAccount, hc])
    fun hb => absurd hb (by decide)
  have hl := hr'.ledger_eq rfl hv
    (by simp [openWindow, ackLedger, ackAccount, ht, hph]) rfl rfl rfl rfl ?_
  · have hps : valueToAck out.1 ≠ 0 := by
      have hfl := congrArg field hl
      simp only [ackLedger, openWindow] at hfl
      have : 0 < bias := by decide
      omega
    refine ⟨hl ▸ hv, h.tidy_update rfl ?_, ?_, ?_, ?_⟩
    · exact ⟨by simp [ht], fun _ => hp, by simp [ht], by simp [ht, hp],
        by simp [ht, hp]⟩
    · simp [hps, h.calls, hf]
    · exact ha.trans h.abort
    · exact hs.trans h.suspend
  · intro h0 h1
    simp only [openWindow, ackLedger] at h1 ⊢
    rw [hac (by omega)]
    rfl

theorem AckInv.startConsumer {ackNeeded : Bool} (hen : s.Enabled (.startConsumer i ackNeeded))
    (hok : s.AckOk (.startConsumer i ackNeeded))
    (hr : s.exec (.startConsumer i ackNeeded) = some s') (hr' : AckRoom n s') : AckInv n s' := by
  obtain ⟨tls, htl, rfl⟩ := map_eq_some_iff.mp hr
  obtain ⟨hs, hph, hc⟩ := hen
  rw [refcacheStartConsumer, hc] at htl
  injection htl with htl
  obtain ⟨hp, -, hpn⟩ := (h.tidy i).idle hc
  have ht : ({ s.threads i with tls := tls } : Thread).Tidy :=
    ⟨by simp [← htl], fun _ => hpn, by simp [hp], by simp [← htl, hpn],
      by simp [← htl, hpn]⟩
  have ha : (s.threads i).tls.acks = 0 :=
    ((h.ledger.ok i).closed (by simp [ackLedger, ackAccount, hc])).1
  cases ackNeeded with
  | false =>
    refine h.frame rfl ?_ ht rfl rfl rfl Iff.rfl rfl rfl rfl rfl
    simp [ackAccount, ← htl, hc, ha]
  | true =>
    have hv := h.ledger.openWindow (b := 0) (by simp [ackLedger, ackAccount, hc])
      fun _ => hok rfl
    have hl := hr'.ledger_eq rfl hv
      (by simp [openWindow, ackLedger, ackAccount, ← htl, hph, hp])
      rfl rfl rfl rfl fun _ _ => (by simp [openWindow, ackLedger, setThread])
    refine ⟨hl ▸ hv, h.tidy_update rfl ht, h.calls, h.abort, h.suspend⟩

theorem AckInv.addAck (hr : AckRoom n s) (hen : s.Enabled (.addAck i))
    (hok : s.AckOk (.addAck i)) (hrn : s.exec (.addAck i) = some s') (hr' : AckRoom n s') :
    AckInv n s' := by
  simp only [exec, Option.some.injEq] at hrn
  subst hrn
  obtain ⟨hs, hp⟩ := hen
  have hv := h.ledger.take (i := i)
  have ht := h.tidy i
  cases hcr : (s.threads i).tls.current with
  | true =>
    have hn : (s.threads i).tls.ackNeeded = true := by simpa [AckOk, hcr] using hok
    simp only [LogMsg.addAck, hcr] at hr' ⊢
    have ho : ((s.ackLedger n).accounts i).isOpen = true := by
      simp [ackLedger, ackAccount, hcr, hn, hp]
    have hl := hr'.ledger_eq rfl hv
      (by simp [take, change, Account.bump, ackLedger, ackAccount, hcr, hn,
        hp]) rfl rfl rfl rfl
      fun _ _ => (change_field_of_open ho).symm
    refine ⟨hl ▸ hv, h.tidy_update rfl ?_, h.calls, h.abort, h.suspend⟩
    exact ⟨by simp, ht.settled, ht.ackNeeded, ht.abort, ht.suspend⟩
  | false =>
    have how : 1 ≤ (s.threads i).ownAcks := by simpa [AckOk, hcr] using hok
    simp only [LogMsg.addAck, hcr] at hr' ⊢
    have ho : ((s.ackLedger n).accounts i).isOpen = false := by
      simp [ackLedger, ackAccount, hcr]
    have hc := h.calls_eq_nil (h.ledger.one_le_field_of_own hr.bias_ne_zero how)
    have hnw : ((s.ackLedger n).take i).field = valueToAck s.word + 1 :=
      change_field_of_closed ho
    have hl := hr'.ledger_eq rfl hv
      (by simp [take, change, Account.bump, ackLedger, ackAccount, hcr])
      rfl rfl rfl rfl fun h0 h1 => by
        rw [hnw] at h0 h1 ⊢
        exact valueToAck_update h0 h1
    have hps := (hl ▸ hv).one_le_field_of_own hr'.bias_ne_zero (j := i)
      (by simp [ackLedger, ackAccount])
    refine ⟨hl ▸ hv, h.tidy_update rfl ?_, ?_, ?_, ?_⟩
    · exact { ht with }
    · have hne : valueToAck (updateAckAndRef s.word 0 1) ≠ 0 := by
        change 1 ≤ (valueToAck (updateAckAndRef s.word 0 1) : ℤ) at hps
        omega
      simp [hc, hne]
    · simpa [updateAckAndRef, abortFlag_update] using h.abort
    · simpa [updateAckAndRef, suspendFlag_update] using h.suspend

/-- An ack in a window changes only the cache. -/
theorem AckInv.ack_cached {type : AckType} (hp : (s.threads i).phase = .running)
    (how : 1 ≤ (s.threads i).ownAcks) (hc : (s.threads i).tls.current = true)
    (hn : (s.threads i).tls.ackNeeded = true) (hr : s.exec (.ack i type) = some s')
    (hr' : AckRoom n s') : AckInv n s' := by
  simp only [exec, LogMsg.ack, hc, if_true, toList_none, List.append_nil, Option.some.injEq] at hr
  subst hr
  have hv := h.ledger.give how
  have ht := h.tidy i
  have ho : ((s.ackLedger n).accounts i).isOpen = true := by
    simp [ackLedger, ackAccount, hc, hn, hp]
  have hl := hr'.ledger_eq rfl hv
    (by simp [give, change, Account.bump, ackLedger, ackAccount, hc, hn,
      hp, sub_eq_add_neg]) rfl rfl rfl rfl
    fun _ _ => (change_field_of_open ho).symm
  refine ⟨hl ▸ hv, h.tidy_update rfl ⟨by simp, by simp, ht.ackNeeded, ?_, ?_⟩, h.calls,
    h.abort, h.suspend⟩
  · simp [ht.abort, eq_comm]
  · simp [ht.suspend, eq_comm]

/-- Without a window, `ack_func` is called exactly if this was the last token. -/
theorem AckInv.ack_direct {type : AckType} (hr : AckRoom n s) (hs : s.stage ≠ .fresh)
    (how : 1 ≤ (s.threads i).ownAcks) (hcr : (s.threads i).tls.current = false)
    (hrn : s.exec (.ack i type) = some s') (hr' : AckRoom n s') : AckInv n s' := by
  simp only [exec, LogMsg.ack, hcr, if_true, Bool.false_eq_true, if_false,
    Option.some.injEq] at hrn
  subst hrn
  have hv := h.ledger.give how
  have ht := h.tidy i
  have hps := h.ledger.one_le_field_of_own hr.bias_ne_zero how
  have hc := h.calls_eq_nil hps
  have ho : ((s.ackLedger n).accounts i).isOpen = false := by
    simp [ackLedger, ackAccount, hcr]
  obtain ⟨hp, -, hpn⟩ := ht.idle hcr
  have hf : ((s.ackLedger n).give i).field = valueToAck s.word + -1 :=
    change_field_of_closed ho
  have hl := hr'.ledger_eq rfl hv
    (by simp [give, change, Account.bump, ackLedger, ackAccount, hcr, hp])
    rfl rfl rfl rfl fun h0 h1 => by
      rw [hf] at h0 h1 ⊢
      exact valueToAck_update h0 h1
  have hn : (valueToAck (updateAckAndRefAndAbortAndSuspended s.word 0 (-1) (type = .aborted)
      (type = .suspended)) : ℤ) = valueToAck s.word + -1 :=
    (congrArg field hl).trans hf
  refine ⟨hl ▸ hv, h.tidy_update rfl ?_, ?_, ?_, ?_⟩
  · refine ⟨fun _ => ⟨hp, ?_, hpn⟩, fun _ => hpn, ht.ackNeeded, ht.abort, ht.suspend⟩
    split_ifs <;> simp
  · exact length_calls_append hc hs (by dsimp only; omega)
  · simp [abortFlag_update, h.abort, eq_comm]
  · simp [suspendFlag_update, h.suspend, eq_comm]

theorem AckInv.handAck {j : ι} (hen : s.Enabled (.handAck i j)) (hok : s.AckOk (.handAck i j))
    (hr : s.exec (.handAck i j) = some s') : AckInv n s' := by
  simp only [exec, Option.some.injEq] at hr
  obtain ⟨hs, hph⟩ := hen
  obtain ⟨how, hk⟩ := hok
  have ht := h.tidy i
  have hv := (h.ledger.deposit how (by
    intro ho hb
    simp only [ackLedger, ackAccount, hph, Bool.and_eq_true] at ho hb ⊢
    refine hk ho.1.1 ho.1.2 ?_
    by_contra hp
    rw [if_pos (by simpa using hp)] at hb
    exact absurd hb (by decide))).withdraw (i := j) (by simp [deposit])
  have hl : s'.ackLedger n = ((s.ackLedger n).deposit i).withdraw j := by
    subst hr
    simp only [ackLedger, setThread, map_update, deposit]
    congr 1
    by_cases hji : j = i
    · subst hji
      simp [ackAccount]
    · simp [ackAccount, update_of_ne hji]
  subst hr
  refine ⟨hl ▸ hv, ?_, h.calls, h.abort, h.suspend⟩
  have ht₁ : ∀ k, ((s.setThread i { s.threads i with
      ownAcks := (s.threads i).ownAcks - 1 }).threads k).Tidy :=
    h.tidy_update rfl { ht with }
  refine (forall_update_iff _ fun _ (th : Thread) => th.Tidy).mpr
    ⟨?_, fun k _ => ht₁ k⟩
  have htd := ht₁ j
  exact { htd with }

theorem AckInv.stopAcks (hr : AckRoom n s) (hen : s.Enabled (.stopAcks i))
    (hrn : s.exec (.stopAcks i) = some s') (hr' : AckRoom n s') (hs : s.stage ≠ .fresh) :
    AckInv n s' := by
  obtain ⟨out, hot, rfl⟩ := map_eq_some_iff.mp hrn
  obtain ⟨hp, hcr⟩ := hen
  have hv := h.ledger.fold (i := i)
  have ht := h.tidy i
  obtain ⟨-, hot⟩ := ite_none_right_eq_some.mp hot
  injection hot with hot
  subst hot
  have hf : ((s.ackLedger n).fold i).field = valueToAck s.word + (s.threads i).tls.acks := rfl
  have hac : ((s.ackLedger n).fold i).accounts = update (s.ackLedger n).accounts i
      ⟨(s.threads i).ownAcks, 0, 0, false⟩ := rfl
  have hl := hr'.ledger_eq rfl hv
    (by
      simp only [ackAccount]
      split_ifs <;> simp_all) rfl rfl rfl rfl fun h0 h1 => by
      exact valueToAck_update h0 h1
  have hnw : (valueToAck (updateAckAndRefAndAbortAndSuspended s.word 0 (s.threads i).tls.acks
      (s.threads i).tls.abort (s.threads i).tls.suspend) : ℤ) =
      valueToAck s.word + (s.threads i).tls.acks :=
    (congrArg field hl).trans hf
  refine ⟨hl ▸ hv, h.tidy_update rfl ⟨by simp [hcr], fun _ => rfl, ht.ackNeeded,
    by simp, by simp⟩, ?_, ?_, ?_⟩
  · cases hn : (s.threads i).tls.ackNeeded with
    | true =>
      -- the window still has its token, so nobody called `ack_func` yet
      have ho : ((s.ackLedger n).accounts i).isOpen = true := by
        simp [ackLedger, ackAccount, hcr, hn, hp]
      have hc := h.calls_eq_nil (h.ledger.one_le_field_of_open hr.bias_ne_zero ho)
      exact length_calls_append hc hs (by simp only [and_true]; omega)
    | false =>
      have ha : (s.threads i).tls.acks = 0 :=
        ((h.ledger.ok i).closed (by simp [ackLedger, ackAccount, hn])).1
      simp [ha, h.calls]
  · simp [abortFlag_update, h.abort, ht.abort]
  · simp [suspendFlag_update, h.suspend, ht.suspend]

theorem AckInv.stopRefs (hen : s.Enabled (.stopRefs i)) (hr : s.exec (.stopRefs i) = some s') :
    AckInv n s' := by
  simp only [exec, Option.some.injEq] at hr
  have hp : (s.threads i).phase = .folding := hen
  have ht := h.tidy i
  have hpn := ht.settled (by simp [hp])
  have hs := sameAcks_updateAckAndRef (w := s.word) (t := (s.threads i).tls)
    (d := (s.threads i).tls.refs - 1)
  subst hr
  refine h.frame rfl ?_ ?_ hs.field hs.abortFlag hs.suspendFlag Iff.rfl rfl rfl rfl rfl
  · simp [ackAccount, refcacheStopRefs, hp]
  · exact ⟨fun _ => ⟨rfl, by simp, hpn⟩, by simp, by simp, ht.abort, ht.suspend⟩

theorem AckInv.handRef {j : ι} (hr : s.exec (.handRef i j) = some s') : AckInv n s' := by
  simp only [exec, Option.some.injEq] at hr
  subst hr
  have htd := h.tidy i
  have h₁ : AckInv n (s.setThread i { s.threads i with
      ownRefs := (s.threads i).ownRefs - 1 }) :=
    h.frame rfl rfl { htd with }
      rfl rfl rfl Iff.rfl rfl rfl rfl rfl
  have ht := h₁.tidy j
  exact h₁.frame rfl rfl
    { ht with }
    rfl rfl rfl Iff.rfl rfl rfl rfl rfl

theorem AckInv.callbackReturn (hen : s.Enabled (.callbackReturn i))
    (hr : s.exec (.callbackReturn i) = some s') : AckInv n s' := by
  have hph : (s.threads i).phase = .acking := hen.1
  have ht := h.tidy i
  have hp := ht.settled (by simp [hph])
  simp only [exec] at hr
  split_ifs at hr with hc ha
  · cases hr
    refine h.frame rfl (by simp [ackAccount, hph])
      ⟨by simp [hc], fun _ => hp, ht.ackNeeded, ht.abort, ht.suspend⟩
      rfl rfl rfl Iff.rfl rfl rfl rfl rfl
  · cases hr
    have hc : (s.threads i).tls.current = false := by simpa using hc
    have hpr := (ht.idle hc).1
    refine h.frame rfl (by simp [ackAccount, hc, hpr])
      ⟨fun _ => ⟨hpr, by simp, hp⟩, fun _ => hp, ht.ackNeeded, ht.abort,
        ht.suspend⟩ rfl rfl rfl Iff.rfl rfl rfl rfl rfl

theorem AckInv.same {t : Tls} {r : ℕ}
    (hth : s'.threads = update s.threads i { s.threads i with tls := t, ownRefs := r })
    (hs : SameAcks s.word s'.word (s.threads i).tls t)
    (hst : s'.stage = .fresh ↔ s.stage = .fresh) (hc : s'.calls = s.calls)
    (hf : s'.folded = s.folded) (ht : s'.takenAcks = s.takenAcks)
    (hg : s'.givenAcks = s.givenAcks) : AckInv n s' :=
  h.frame hth (ackAccount_same hs) ((h.tidy i).same hs) hs.field hs.abortFlag hs.suspendFlag hst hc
    hf ht hg

theorem AckInv.references {e : Event ι} (hen : s.Enabled e) (hr : s.exec e = some s')
    (he : e = .reserve i ∨ e = .ref i ∨ e = .unref i ∨ e = .callbackUnref i) : AckInv n s' := by
  rcases he with rfl | rfl | rfl | rfl <;> obtain ⟨out, ho, rfl⟩ := map_eq_some_iff.mp hr
  · have hst : s.stage = .started := hen.1
    exact h.same rfl (ref_sameAcks ho) (by simp [hst]) rfl rfl rfl rfl
  · exact h.same rfl (ref_sameAcks ho) Iff.rfl rfl rfl rfl rfl
  · exact h.same rfl (unref_sameAcks ho) Iff.rfl rfl rfl rfl rfl
  · exact h.same rfl (unref_sameAcks ho) Iff.rfl rfl rfl rfl rfl

theorem AckInv.exec {e : Event ι} (hr : AckRoom n s) (hen : s.Enabled e) (hok : s.AckOk e)
    (hrn : s.exec e = some s') (hr' : AckRoom n s')
    (hs : s.stage = .fresh → ∀ i, (s.threads i).tls.current = false) : AckInv n s' := by
  cases e with
  | startProducer i => exact h.startProducer hen hrn hr'
  | reserve i => exact h.references hen hrn (.inl rfl)
  | startConsumer i ackNeeded => exact h.startConsumer hen hok hrn hr'
  | ref i => exact h.references hen hrn (.inr (.inl rfl))
  | unref i => exact h.references hen hrn (.inr (.inr (.inl rfl)))
  | addAck i => exact h.addAck hr hen hok hrn hr'
  | ack i type =>
    cases hc : (s.threads i).tls.current with
    | true => exact h.ack_cached hen.2 hok.1 hc (hok.2 hc) hrn hr'
    | false => exact h.ack_direct hr hen.1 hok.1 hc hrn hr'
  | handRef i j => exact h.handRef hrn
  | handAck i j => exact h.handAck hen hok hrn
  | stopAcks i =>
    refine h.stopAcks hr hen hrn hr' fun hf => ?_
    have hc : (s.threads i).tls.current = true := hen.2
    rw [hs hf i] at hc
    exact Bool.noConfusion hc
  | stopRefs i => exact h.stopRefs hen hrn
  | callbackUnref i => exact h.references hen hrn (.inr (.inr (.inr rfl)))
  | callbackReturn i => exact h.callbackReturn hen hrn

end Steps

end State
end SyslogNg.LogMsg
