import SyslogNg.LogQueue.Order

/-!
# The queue as a sequence with a cursor

For the output thread the backlog, the output list and the wait list are one sequence, and what
was popped is a part of it that ends where the output list starts. `rewind_backlog` moves this
place back. `rewind_backlog_all` puts the backlog behind the output list.
-/
namespace SyslogNg.LogQueue

open List Fifo CursorQueue

variable {ι : Type*}

namespace Fifo

def view (q : Fifo ι) : CursorQueue Node := ⟨q.qbacklog, q.qoverflowOutput ++ q.qoverflowWait⟩

variable {q : Fifo ι}

/-- The loop of `rewind_backlog` moves the end of the backlog in front of the output list. -/
theorem iterate_rewindOne {n : ℕ} (hn : n ≤ q.qbacklog.length) : rewindOne^[n] q = { q with
      qbacklog := q.qbacklog.take (q.qbacklog.length - n)
      qoverflowOutput := q.qbacklog.drop (q.qbacklog.length - n) ++ q.qoverflowOutput
      qbacklogLen := q.qbacklogLen - n
      qoverflowOutputLen := q.qoverflowOutputLen + n
      storedMessages := q.storedMessages + n } := by
  induction n generalizing q with
  | zero => simp
  | succ n ih =>
    obtain ⟨rest, node, hb⟩ : ∃ rest node, q.qbacklog = rest ++ [node] := by
      rcases eq_nil_or_concat q.qbacklog with hnl | ⟨rest, node, hb⟩
      · simp [hnl] at hn
      · exact ⟨rest, node, hb.trans concat_eq_append⟩
    have hl : q.qbacklog.length = rest.length + 1 := by simp [hb]
    have hle : rest.length - n ≤ rest.length := Nat.sub_le _ _
    rw [Function.iterate_succ_apply, rewindOne_concat hb, ih (by simp; omega), hl, hb,
      Nat.add_sub_add_right, take_append_of_le_length hle, drop_append_of_le_length hle]
    simp only [append_assoc, singleton_append, mk.injEq, true_and, and_true]
    omega

def WithoutPushHead (q : Fifo ι) : FifoOp ι → Prop
  | .pushHead _ => False
  | op => q.Allowed op

instance (q : Fifo ι) : (op : FifoOp ι) → Decidable (q.WithoutPushHead op)
  | .pushHead _ => .isFalse id
  | .pushTail (some i) .. => inferInstanceAs (Decidable ((q.input i).length < 65535))
  | .pushTail none .. | .moveInput .. | .popHead | .ackBacklog _ | .rewindBacklog _
  | .rewindBacklogAll => .isTrue trivial

theorem allowed_of_withoutPushHead {op : FifoOp ι} (hok : q.WithoutPushHead op) : q.Allowed op := by
  cases op with
  | pushHead node => exact absurd hok id
  | _ => exact hok

theorem returned_dropInput [DecidableEq ι] (i : ι) (q : Fifo ι) :
    (q.dropInput i).returned = q.returned := by
  simp only [dropInput]
  split <;> rfl

theorem returned_take (q : Fifo ι) : q.take.returned = q.returned := by
  simp only [take]
  split <;> rfl

theorem returned_ackBacklog (q : Fifo ι) (n : ℕ) : (q.ackBacklog n).returned = q.returned := by
  induction n generalizing q with
  | zero => rfl
  | succ n ih =>
    simp only [ackBacklog]
    split_ifs
    · rw [ih]
      simp only [ackOne]
      split <;> rfl
    · rfl

theorem returned_apply [DecidableEq ι] {op : FifoOp ι} (hok : q.WithoutPushHead op) :
    (q.apply op).returned = q.returned := by
  have hi : ∀ {f : Fifo ι → Fifo ι}, (∀ q, (f q).returned = q.returned) →
      ∀ n q, (f^[n] q).returned = q.returned := fun hf n q =>
    Function.Iterate.rec (fun q' : Fifo ι => q'.returned = q.returned) rfl
      (fun _ h => (hf _).trans h) n
  cases op with
  | pushTail thread queueLen ackNeeded fc =>
    cases thread with
    | some i => rfl
    | none =>
      simp only [apply, pushTail]
      split_ifs <;> rfl
  | moveInput i queueLen =>
    simp only [apply, moveInput]
    split_ifs
    · exact hi (returned_dropInput i) _ q
    · rfl
  | popHead =>
    simp only [apply, popHead]
    split_ifs <;> simp [returned_take, refill]
  | ackBacklog n => exact returned_ackBacklog q n
  | rewindBacklog n =>
    refine hi (fun q => ?_) _ q
    simp only [rewindOne]
    split <;> rfl
  | rewindBacklogAll => rfl
  | pushHead node => exact absurd hok id

/-- The messages that came to the wait list, in their order: first those that were acked. -/
def entered (q : Fifo ι) : List Node := q.acked ++ q.view.contents

theorem entered_ackBacklog (q : Fifo ι) (n : ℕ) : (q.ackBacklog n).entered = q.entered := by
  have ho (q : Fifo ι) : q.ackOne.entered = q.entered := by
    cases hb : q.qbacklog <;> simp [entered, ackOne, hb, view, contents]
  induction n generalizing q with
  | zero => rfl
  | succ n ih =>
    simp only [ackBacklog]
    split_ifs
    · rw [ih, ho]
    · rfl

section Sound

variable [Fintype ι] (h : q.Sound)
include h

theorem rewindBacklog_eq (n : ℕ) : q.rewindBacklog n = rewindOne^[min n q.qbacklog.length] q := by
  have hl := h.backlogLen
  simp only [rewindBacklog]
  congr 1
  split_ifs with hm <;> omega

/-- `rewind_backlog` moves the cursor back. -/
theorem view_rewindBacklog (n : ℕ) : (q.rewindBacklog n).view = q.view.rewind n := by
  have hm : q.qbacklog.length - min n q.qbacklog.length = q.qbacklog.length - n := by omega
  rw [rewindBacklog_eq h, iterate_rewindOne (min_le_right _ _), hm]
  simp [view, rewind]

theorem entered_take : q.take.entered = q.entered := by
  cases ho : q.qoverflowOutput with
  | nil => simp [take, ho]
  | cons node rest =>
    rw [take_cons h.useBacklog ho]
    simp [entered, view, contents, ho]

theorem entered_popHead : q.popHead.entered = q.entered := by
  have hr : q.refill.entered = q.entered := by simp [entered, refill, view, contents]
  simp only [popHead]
  split_ifs with hz
  · rw [entered_take (h.refill hz), hr]
  · exact hr
  · exact entered_take h
  · rfl

theorem entered_rewindBacklog (n : ℕ) : (q.rewindBacklog n).entered = q.entered := by
  rw [entered, view_rewindBacklog h, contents_rewind, rewindBacklog_eq h,
    iterate_rewindOne (min_le_right _ _)]
  rfl

theorem pops_popHead {node : Node} {rest : List Node} (ho : q.qoverflowOutput = node :: rest) :
    q.popHead.pops = q.pops ++ [node.msg] := by
  have hp : q.qoverflowOutputLen > 0 := by
    rw [h.outputLen, ho, length_cons]
    omega
  simp [popHead, hp.ne', hp, take, ho]

/-- What the queue does to the sequence, except for `push_head` and `rewind_backlog_all`. -/
def Sequential : FifoOp ι → Prop
  | .pushHead _ | .rewindBacklogAll => False
  | _ => True

theorem entered_apply [DecidableEq ι] {op : FifoOp ι} (hop : Sequential op) :
    q.entered <+: (q.apply op).entered := by
  have hd (i : ι) (q' : Fifo ι) : (q'.dropInput i).entered = q'.entered := by
    simp only [dropInput]
    split <;> rfl
  have hs (i : ι) (q' : Fifo ι) : q'.entered <+: (q'.spliceInput i).entered :=
    ⟨q'.input i, by simp [entered, spliceInput, view, contents]⟩
  cases op with
  | pushTail thread queueLen ackNeeded fc =>
    cases thread with
    | some i => exact prefix_rfl
    | none =>
      simp only [apply, pushTail]
      split_ifs
      · exact ⟨[⟨q.pushes.length, ackNeeded, fc⟩], by simp [entered, view, contents]⟩
      · exact prefix_rfl
  | moveInput i queueLen =>
    simp only [apply, moveInput]
    split_ifs
    · have hk := fun n => Function.Iterate.rec (fun q' : Fifo ι => q'.entered = q.entered) rfl
        (fun q' h => (hd i q').trans h) n
      exact hk _ ▸ hs i _
    · exact hs i q
  | popHead => exact (entered_popHead h).symm ▸ prefix_rfl
  | ackBacklog n => exact (entered_ackBacklog q n).symm ▸ prefix_rfl
  | rewindBacklog n => exact (entered_rewindBacklog h n).symm ▸ prefix_rfl
  | rewindBacklogAll => exact absurd hop id
  | pushHead node => exact absurd hop id

end Sound

end Fifo

open Fifo

variable [DecidableEq ι]

def fifoSystem (size : ℤ) : System (Fifo ι) (FifoOp ι) where
  init q := q = .new size true
  step q op q' := q' = q.apply op

variable [Fintype ι] {size : ℤ} {q : Fifo ι}

theorem sound_of_reachable (h : ((fifoSystem size).restrict Allowed).Reachable q) :
    q.Sound ∧ q.Ordered := by
  refine h.invariant (I := fun q => q.Sound ∧ q.Ordered) ?_ ?_
  · rintro _ rfl
    exact ⟨sound_new size, ordered_new size⟩
  · rintro q op _ ⟨hs, ho⟩ ⟨hok, rfl⟩
    exact ⟨hs.apply hok, ho.apply hs hok⟩

/-- No message is lost or duplicated except by `push_head`, the counters are right, and messages
of one thread are popped for the first time in the order they were pushed. -/
theorem fifo_keeps_messages (h : ((fifoSystem size).restrict Allowed).Reachable q) :
    (∀ m, q.places m = (if m < q.pushes.length then 1 else 0) + occ m q.returned) ∧
    (∀ node ∈ q.dropped, q.places node.msg = 1 ∧ occ node.msg (q.acks.map Prod.fst) = 1) ∧
    q.droppedMessages = BitVec.ofNat 32 q.dropped.length ∧
    q.qoverflowWaitLen = q.qoverflowWait.length ∧
    q.qoverflowOutputLen = q.qoverflowOutput.length ∧ q.qbacklogLen = q.qbacklog.length ∧
    q.storedMessages = q.qoverflowWaitLen + q.qoverflowOutputLen ∧
    (∀ t a b, q.pushes[a]? = some t → q.pushes[b]? = some t → a < b →
      (∀ node ∈ q.dropped, node.msg ≠ a) → b ∈ q.pops → q.pops.idxOf a < q.pops.idxOf b) ∧
    ∀ n, (q.rewindBacklog n).qbacklog ++ (q.rewindBacklog n).qoverflowOutput ++
        (q.rewindBacklog n).qoverflowWait = q.qbacklog ++ q.qoverflowOutput ++ q.qoverflowWait := by
  obtain ⟨hs, ho⟩ := sound_of_reachable h
  refine ⟨hs.conserved, fun node hn => ?_, hs.droppedLen, hs.waitLen, hs.outputLen,
    hs.backlogLen, ?_, ?_, fun n => ?_⟩
  · have hf := hs.droppedFresh node hn
    have hon := hs.places_le_one hf
    have hoc : 0 < occ node.msg q.dropped := occ_pos.mpr ⟨node, hn, rfl⟩
    have ha := hs.acks node.msg
    simp only [places] at hon ⊢
    omega
  · rw [hs.stored, hs.waitLen, hs.outputLen]
  · intro t a b hat hbt hab hk hb
    exact ho.first t a b hat hbt hab hb hk
  · have hv := congrArg contents (view_rewindBacklog hs n)
    rw [contents_rewind] at hv
    simpa only [view, contents, append_assoc] using hv

/-- After any history and in every run without `push_head` and `rewind_backlog_all`: no message that
came to the output thread is lost, doubled or moved, and they are acked in this order. -/
theorem fifo_sequence {q' : Fifo ι} {ops : List (FifoOp ι)}
    (h : ((fifoSystem size).restrict Allowed).Reachable q)
    (hr : ((fifoSystem size).restrict fun q op => q.Allowed op ∧ Sequential op).Run q ops q') :
    q.entered <+: q'.entered := by
  refine (hr.invariant (I := fun q' => q'.Sound ∧ q.entered <+: q'.entered) ?_
    ⟨(sound_of_reachable h).1, prefix_rfl⟩).2
  rintro q₁ op _ ⟨hs, hp⟩ ⟨⟨hok, hop⟩, rfl⟩
  exact ⟨hs.apply hok, hp.trans (entered_apply hs hop)⟩

def resend : List (FifoOp Unit) :=
  [.pushTail (some ()) 0 true false, .pushTail (some ()) 0 true false, .moveInput () 0, .popHead,
    .rewindBacklog 1, .popHead, .popHead, .ackBacklog 1]

theorem fifo_keeps_messages_resend : let q := resend.foldl apply (.new 10 true)
    q.pops = [0, 0, 1] ∧ q.places 0 = 1 ∧ q.places 1 = 1 ∧ q.storedMessages = 0 := by
  have hr : Along apply Allowed (.new 10 true) resend := by decide +kernel
  obtain ⟨hp, -, -, -, -, -, hs, -⟩ :=
    fifo_keeps_messages (hr.reachable (M := fifoSystem 10) (fun _ _ => rfl) (.init rfl))
  refine ⟨by decide +kernel, ?_, ?_, hs.trans (by decide +kernel)⟩
  · exact (hp 0).trans (by decide +kernel)
  · exact (hp 1).trans (by decide +kernel)

/-- From the state in which the first message was put back -/
theorem fifo_sequence_resend : let q := (resend.take 5).foldl apply (.new 10 true)
    q.entered <+: ((resend.drop 5).foldl apply q).entered := by
  intro q
  have hf : Along apply Allowed (.new 10 true) (resend.take 5) := by decide +kernel
  have hs : Along apply (fun q op => q.Allowed op ∧ Sequential op) q (resend.drop 5) :=
    ⟨⟨trivial, trivial⟩, ⟨trivial, trivial⟩, ⟨trivial, trivial⟩, trivial⟩
  exact fifo_sequence (hf.reachable (M := fifoSystem 10) (fun _ _ => rfl) (.init rfl))
    (hs.run (M := (fifoSystem 10).restrict _) fun _ _ hok => ⟨hok, rfl⟩)

def popAndPushHead : List (FifoOp Unit) :=
  [.pushTail (some ()) 0 true false, .moveInput () 0, .popHead, .pushHead ⟨0, true, false⟩]

/-- A message put back by `push_head` is in the backlog as well. -/
theorem pushHead_duplicates : ∃ q : Fifo Unit,
    ((fifoSystem 10).restrict Allowed).Reachable q ∧ q.pushes.length = 1 ∧ q.places 0 = 2 ∧
      occ 0 q.qbacklog = 1 ∧ occ 0 q.qoverflowOutput = 1 := by
  have hr : Along apply Allowed (.new 10 true) popAndPushHead := by decide +kernel
  refine ⟨_, hr.reachable (M := fifoSystem 10) (fun _ _ => rfl) (.init rfl), ?_⟩
  decide +kernel

/-! ### Two ways to resend everything -/

/-- Without `push_head` no message is in the backlog and in the output list. -/
theorem msg_ne_of_reachable (h : ((fifoSystem size).restrict WithoutPushHead).Reachable q)
    {x y : Node} (hx : x ∈ q.qbacklog) (hy : y ∈ q.qoverflowOutput) : x.msg ≠ y.msg := by
  obtain ⟨hs, hn⟩ : q.Sound ∧ q.returned = [] := by
    refine h.invariant (I := fun q => q.Sound ∧ q.returned = []) ?_ ?_
    · rintro _ rfl
      exact ⟨sound_new size, rfl⟩
    · rintro q op _ ⟨hs, hn⟩ ⟨hok, rfl⟩
      exact ⟨hs.apply (allowed_of_withoutPushHead hok), (returned_apply hok).trans hn⟩
  intro heq
  have hp := hs.conserved x.msg
  have hxp : 0 < occ x.msg q.qbacklog := occ_pos.mpr ⟨x, hx, rfl⟩
  have hyp : 0 < occ x.msg q.qoverflowOutput := occ_pos.mpr ⟨y, hy, heq⟩
  rw [hn, occ_nil] at hp
  simp only [places] at hp
  split_ifs at hp <;> omega

/-- `rewind_backlog_all` is `rewind_backlog` with all of the backlog only if one of the two lists
that change their order is empty. -/
theorem rewindBacklogAll_agrees_iff (h : ((fifoSystem size).restrict WithoutPushHead).Reachable q) :
    (∀ ops : List (FifoOp ι), (ops.foldl Fifo.apply q.rewindBacklogAll).pops =
        (ops.foldl Fifo.apply (q.rewindBacklog q.qbacklogLen.toNat)).pops) ↔
      q.qbacklog = [] ∨ q.qoverflowOutput = [] := by
  have hs : q.Sound := (sound_of_reachable (h.mono allowed_of_withoutPushHead)).1
  have hl := hs.backlogLen
  have hr : q.rewindBacklog q.qbacklogLen.toNat =
      { q.rewindBacklogAll with qoverflowOutput := q.qbacklog ++ q.qoverflowOutput } := by
    rw [rewindBacklog_eq hs, iterate_rewindOne (min_le_right _ _)]
    simp [rewindBacklogAll, hl]
  constructor
  · intro ha
    by_contra hne
    rw [not_or] at hne
    obtain ⟨x, sent, hx⟩ := exists_cons_of_ne_nil hne.1
    obtain ⟨y, unsent, hy⟩ := exists_cons_of_ne_nil hne.2
    -- the next pop tells them apart
    have hp := ha [.popHead]
    simp only [foldl_cons, foldl_nil, apply] at hp
    have hal : q.rewindBacklogAll.qoverflowOutput = y :: (unsent ++ q.qbacklog) := by
      simp [rewindBacklogAll, hy]
    have hc : (q.rewindBacklog q.qbacklogLen.toNat).qoverflowOutput =
        x :: (sent ++ q.qoverflowOutput) := by simp [hr, hx]
    rw [pops_popHead hs.rewindBacklogAll hal, pops_popHead (hs.rewindBacklog _) hc, hr] at hp
    have hsm : y.msg = x.msg := by simpa using hp
    exact msg_ne_of_reachable h (hx ▸ mem_cons_self) (hy ▸ mem_cons_self) hsm.symm
  · intro he ops
    have hcm : q.qoverflowOutput ++ q.qbacklog = q.qbacklog ++ q.qoverflowOutput := by
      rcases he with hn | hn <;> simp [hn]
    rw [hr, ← hcm]
    rfl

def twoAndPop : List (FifoOp Unit) :=
  [.pushTail (some ()) 0 true false, .pushTail (some ()) 0 true false, .moveInput () 0, .popHead]

/-- With an empty output list nothing can change its order. -/
theorem rewindBacklogAll_agrees_drained :
    let q := (twoAndPop ++ [FifoOp.popHead]).foldl apply (.new 10 true)
    q.qbacklog.length = 2 ∧
      ∀ ops : List (FifoOp Unit), (ops.foldl apply q.rewindBacklogAll).pops =
        (ops.foldl apply (q.rewindBacklog q.qbacklogLen.toNat)).pops := by
  have hr : Along apply WithoutPushHead (.new 10 true) (twoAndPop ++ [FifoOp.popHead]) := by
    decide +kernel
  refine ⟨by decide +kernel, (rewindBacklogAll_agrees_iff
    (hr.reachable (M := fifoSystem 10) (fun _ _ => rfl) (.init rfl))).mpr (.inr ?_)⟩
  decide +kernel

/-- The second message overtakes the first one, which was sent but not acked. -/
theorem rewindBacklogAll_reorders : ∃ q : Fifo Unit,
    ((fifoSystem 10).restrict WithoutPushHead).Reachable q ∧
      q.rewindBacklogAll.popHead.popHead.pops = [0, 1, 0] ∧
      (q.rewindBacklog q.qbacklogLen.toNat).popHead.popHead.pops = [0, 0, 1] := by
  have hr : Along apply WithoutPushHead (.new 10 true) twoAndPop := by decide +kernel
  refine ⟨_, hr.reachable (M := fifoSystem 10) (fun _ _ => rfl) (.init rfl), ?_⟩
  decide +kernel

end SyslogNg.LogQueue
