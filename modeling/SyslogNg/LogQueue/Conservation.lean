import SyslogNg.Foundations.UpdateSum
import SyslogNg.LogQueue.Fifo

/-!
# Where the messages of a queue are

Every message that was pushed is in one of the lists, was acked or was dropped, and the counters
are the lengths of their lists. Each way of moving a node keeps this.
-/
namespace SyslogNg.LogQueue

open List Function

def occ (m : ℕ) (l : List Node) : ℕ := l.countP (m = ·.msg)

section Occ

variable {m : ℕ} {node : Node} {l l' : List Node}

@[simp]
theorem occ_nil : occ m [] = 0 := rfl

@[simp]
theorem occ_cons : occ m (node :: l) = occ m l + if m = node.msg then 1 else 0 := by
  simp [occ, countP_cons]

@[simp]
theorem occ_append : occ m (l ++ l') = occ m l + occ m l' := countP_append

theorem occ_pos : 0 < occ m l ↔ ∃ node ∈ l, m = node.msg := by simp [occ]

end Occ

namespace Fifo

variable {ι : Type*}

section Equations

variable {q : Fifo ι} {i : ι} {node : Node} {rest : List Node}

theorem dropInput_nil [DecidableEq ι] (h : q.input i = []) : q.dropInput i = q := by
  simp [dropInput, h]

theorem dropInput_cons [DecidableEq ι] (h : q.input i = node :: rest) : q.dropInput i = { q with
      input := update q.input i rest
      inputLen := update q.inputLen i ((q.inputLen i + (2 ^ 16 - 1)) % 2 ^ 16)
      droppedMessages := q.droppedMessages + 1
      acks := q.acks ++ [(node, if node.flowControlRequested then .suspended else .processed)]
      dropped := q.dropped ++ [node] } := by
  simp [dropInput, h, drop]

theorem take_nil (h : q.qoverflowOutput = []) : q.take = q := by simp [take, h]

theorem take_cons (hb : q.useBacklog = true) (h : q.qoverflowOutput = node :: rest) : q.take =
      { q with
        qoverflowOutput := rest
        qoverflowOutputLen := q.qoverflowOutputLen - 1
        storedMessages := q.storedMessages - 1
        qbacklog := q.qbacklog ++ [node]
        qbacklogLen := q.qbacklogLen + 1
        pops := q.pops ++ [node.msg] } := by
  simp [take, h, hb]

theorem ackOne_nil (h : q.qbacklog = []) : q.ackOne = q := by simp [ackOne, h]

theorem ackOne_cons (h : q.qbacklog = node :: rest) : q.ackOne = { q with
      qbacklog := rest
      qbacklogLen := q.qbacklogLen - 1
      acks := q.acks ++ [(node, .processed)]
      acked := q.acked ++ [node] } := by
  simp [ackOne, h]

theorem rewindOne_nil (h : q.qbacklog = []) : q.rewindOne = q := by simp [rewindOne, h]

theorem rewindOne_concat (h : q.qbacklog = rest ++ [node]) : q.rewindOne = { q with
      qbacklog := rest
      qoverflowOutput := node :: q.qoverflowOutput
      qbacklogLen := q.qbacklogLen - 1
      qoverflowOutputLen := q.qoverflowOutputLen + 1
      storedMessages := q.storedMessages + 1 } := by
  simp [rewindOne, h]

end Equations

/-- A batch is moved before the counter of the input list wraps around, and only the message
popped last is put back. -/
def Allowed (q : Fifo ι) : FifoOp ι → Prop
  | .pushTail (some i) .. => (q.input i).length < 65535
  | .pushHead node => q.pops.getLast? = some node.msg
  | _ => True

instance (q : Fifo ι) : (op : FifoOp ι) → Decidable (q.Allowed op)
  | .pushTail (some i) .. => inferInstanceAs (Decidable ((q.input i).length < 65535))
  | .pushHead node => inferInstanceAs (Decidable (q.pops.getLast? = some node.msg))
  | .pushTail none .. | .moveInput .. | .popHead | .ackBacklog _ | .rewindBacklog _
  | .rewindBacklogAll => .isTrue trivial

variable [Fintype ι]

/-- How often a message is in the lists, was acked from the backlog, or was dropped. -/
def places (q : Fifo ι) (m : ℕ) : ℕ :=
  ∑ i, occ m (q.input i) + occ m q.qoverflowWait + occ m q.qoverflowOutput + occ m q.qbacklog +
    occ m q.acked + occ m q.dropped

structure Sound (q : Fifo ι) : Prop where
  useBacklog : q.useBacklog = true
  outputLen : q.qoverflowOutputLen = q.qoverflowOutput.length
  waitLen : q.qoverflowWaitLen = q.qoverflowWait.length
  backlogLen : q.qbacklogLen = q.qbacklog.length
  inputLen : ∀ i, q.inputLen i = (q.input i).length
  inputFits : ∀ i, (q.input i).length < 2 ^ 16
  stored : q.storedMessages = q.qoverflowWait.length + q.qoverflowOutput.length
  droppedLen : q.droppedMessages = BitVec.ofNat 32 q.dropped.length
  /-- A message put back is there once more. -/
  conserved : ∀ m, q.places m = (if m < q.pushes.length then 1 else 0) + occ m q.returned
  acks : ∀ m, occ m (q.acks.map Prod.fst) = occ m q.dropped + occ m q.acked
  inputFresh : ∀ i, ∀ node ∈ q.input i, node.msg ∉ q.pops
  waitFresh : ∀ node ∈ q.qoverflowWait, node.msg ∉ q.pops
  droppedFresh : ∀ node ∈ q.dropped, node.msg ∉ q.pops
  backlogPopped : ∀ node ∈ q.qbacklog, node.msg ∈ q.pops
  ackedPopped : ∀ node ∈ q.acked, node.msg ∈ q.pops
  returnedPopped : ∀ node ∈ q.returned, node.msg ∈ q.pops
  popsLt : ∀ m ∈ q.pops, m < q.pushes.length

theorem sound_new (size : ℤ) : (new size true : Fifo ι).Sound := by
  constructor <;> simp [new, places]

namespace Sound

variable {q : Fifo ι} {i : ι} {node : Node} {m : ℕ}

/-- A new message has a new number. -/
theorem notMem_pops (h : q.Sound) : q.pushes.length ∉ q.pops :=
  fun hm => (h.popsLt _ hm).ne rfl

section Input

variable [DecidableEq ι]

theorem inputs (h : q.Sound) (nodes : List Node) (len : ℕ) (hl : len = nodes.length)
    (hft : nodes.length < 2 ^ 16) (hf : ∀ node ∈ nodes, node.msg ∉ q.pops) :
    (∀ j, update q.inputLen i len j = (update q.input i nodes j).length) ∧
      (∀ j, (update q.input i nodes j).length < 2 ^ 16) ∧
      ∀ j, ∀ node ∈ update q.input i nodes j, node.msg ∉ q.pops := by
  simp only [← forall_and]
  intro j
  by_cases hj : j = i
  · subst hj
    simpa using ⟨hl, hft, hf⟩
  · simpa [hj] using ⟨h.inputLen j, h.inputFits j, h.inputFresh j⟩

theorem dropInput (h : q.Sound) : (q.dropInput i).Sound := by
  cases hin : q.input i with
  | nil => rwa [dropInput_nil hin]
  | cons node rest =>
    have hf := h.inputFits i
    have hl := h.inputLen i
    have hn := h.inputFresh i
    rw [hin, length_cons] at hl hf
    rw [hin, forall_mem_cons] at hn
    rw [dropInput_cons hin]
    obtain ⟨hil, hi, hif⟩ :=
      h.inputs rest ((q.inputLen i + (2 ^ 16 - 1)) % 2 ^ 16)
        (by omega) (by omega) hn.2
    refine { h with
      inputLen := hil
      inputFits := hi
      droppedLen := ?_
      conserved := fun m => ?_
      acks := fun m => ?_
      inputFresh := hif
      droppedFresh := forall_mem_append.mpr ⟨h.droppedFresh, by simpa using hn.1⟩ }
    · simp [h.droppedLen, BitVec.ofNat_add]
    · have hs := sum_update_add (occ m) q.input i rest
      have ho := h.conserved m
      simp only [hin, occ_cons] at hs
      simp only [places, occ_append, occ_cons, occ_nil] at ho ⊢
      omega
    · have ho := h.acks m
      simp only [map_append, map_cons, map_nil, occ_append]
      omega

theorem spliceInput (h : q.Sound) : (q.spliceInput i).Sound := by
  have hl := h.inputLen i
  unfold Fifo.spliceInput
  obtain ⟨hil, hi, hif⟩ :=
    h.inputs [] 0 rfl (by simp) (by simp)
  refine { h with
    waitLen := ?_
    inputLen := hil
    inputFits := hi
    stored := ?_
    conserved := fun m => ?_
    inputFresh := hif
    waitFresh := forall_mem_append.mpr ⟨h.waitFresh, h.inputFresh i⟩ }
  · simp [h.waitLen, hl]
  · simp only [h.stored, length_append]
    omega
  · have hs := sum_update_add (occ m) q.input i []
    have ho := h.conserved m
    simp only [places, occ_append, occ_nil] at hs ho ⊢
    omega

theorem moveInput (h : q.Sound) (queueLen : ℤ) : (q.moveInput i queueLen).Sound := by
  simp only [Fifo.moveInput]
  split_ifs
  · exact (Function.Iterate.rec Sound h (fun _ h => h.dropInput) _).spliceInput
  · exact h.spliceInput

theorem pushTail (h : q.Sound) {thread : Option ι} {queueLen : ℤ} {ackNeeded fc : Bool}
    (hok : q.Allowed (.pushTail thread queueLen ackNeeded fc)) :
    (q.pushTail thread queueLen ackNeeded fc).Sound := by
  have hn := h.notMem_pops
  have hlt : ∀ m ∈ q.pops, m < (q.pushes ++ [thread]).length := fun m hm =>
    (h.popsLt m hm).trans (by simp)
  have hb : ∀ m, (if m < (q.pushes ++ [thread]).length then 1 else 0) =
      (if m < q.pushes.length then 1 else 0) + if m = q.pushes.length then 1 else 0 := by
    intro m
    rw [length_append, length_singleton]
    split_ifs <;> omega
  cases thread with
  | some i =>
    have hl := h.inputLen i
    have hr : (q.input i).length < 65535 := hok
    simp only [Fifo.pushTail]
    obtain ⟨hil, hi, hif⟩ :=
      h.inputs (q.input i ++ [⟨q.pushes.length, ackNeeded, fc⟩])
        ((q.inputLen i + 1) % 2 ^ 16) (by simp; omega) (by simp; omega)
        (forall_mem_append.mpr ⟨h.inputFresh i, by simpa using hn⟩)
    refine { h with
      inputLen := hil
      inputFits := hi
      conserved := fun m => ?_
      inputFresh := hif
      popsLt := hlt }
    · have hs := sum_update_add (occ m) q.input i
        (q.input i ++ [⟨q.pushes.length, ackNeeded, fc⟩])
      have ho := h.conserved m
      simp only [places, hb, occ_append, occ_cons, occ_nil] at hs ho ⊢
      omega
  | none =>
    simp only [Fifo.pushTail]
    split_ifs
    · refine { h with
        waitLen := ?_
        stored := ?_
        conserved := fun m => ?_
        waitFresh := forall_mem_append.mpr ⟨h.waitFresh, by simpa using hn⟩
        popsLt := hlt }
      · simp [h.waitLen]
      · simp only [h.stored, length_append, length_singleton]
        omega
      · have ho := h.conserved m
        simp only [places, hb, occ_append, occ_cons, occ_nil] at ho ⊢
        omega
    · unfold drop
      refine { h with
        droppedLen := ?_
        conserved := fun m => ?_
        acks := fun m => ?_
        droppedFresh := forall_mem_append.mpr ⟨h.droppedFresh, by simpa using hn⟩
        popsLt := hlt }
      · simp [h.droppedLen, BitVec.ofNat_add]
      · have ho := h.conserved m
        simp only [places, hb, occ_append, occ_cons, occ_nil] at ho ⊢
        omega
      · have ho := h.acks m
        simp only [map_append, map_cons, map_nil, occ_append]
        omega

end Input

theorem refill (h : q.Sound) (he : q.qoverflowOutputLen = 0) : q.refill.Sound := by
  have hn : q.qoverflowOutput = [] := by
    have hl := h.outputLen
    exact eq_nil_of_length_eq_zero (by omega)
  unfold Fifo.refill
  refine { h with
    outputLen := ?_
    waitLen := rfl
    stored := ?_
    conserved := fun m => ?_
    waitFresh := by simp }
  · simp [hn, h.waitLen]
  · simp [hn, h.stored]
  · have ho := h.conserved m
    simp only [places, occ_append, occ_nil] at ho ⊢
    omega

/-- A message that was never popped is in one place at most. -/
theorem places_le_one (h : q.Sound) (hm : m ∉ q.pops) : q.places m ≤ 1 := by
  have hn : occ m q.returned = 0 := by
    by_contra hp
    obtain ⟨node, hnd, rfl⟩ := occ_pos.mp (Nat.pos_of_ne_zero hp)
    exact hm (h.returnedPopped node hnd)
  rw [h.conserved m]
  split_ifs <;> omega

theorem occ_input_le (i : ι) : occ m (q.input i) ≤ ∑ j, occ m (q.input j) :=
  Finset.single_le_sum (fun j _ => Nat.zero_le (occ m (q.input j))) (Finset.mem_univ i)

section

variable (h : q.Sound)
include h

theorem lt_of_places (hm : 0 < q.places m) : m < q.pushes.length := by
  rw [h.conserved m] at hm
  by_contra hge
  rw [if_neg hge, zero_add] at hm
  obtain ⟨node, hn, rfl⟩ := occ_pos.mp hm
  exact hge (h.popsLt _ (h.returnedPopped node hn))

theorem msg_lt (hm : m ∈ (q.qoverflowOutput ++ q.qoverflowWait).map Node.msg) :
    m < q.pushes.length := by
  obtain ⟨node, hn, rfl⟩ := List.mem_map.mp hm
  have ho := occ_pos.mpr ⟨node, hn, rfl⟩
  rw [occ_append] at ho
  refine h.lt_of_places ?_
  simp only [places]
  omega

theorem take : q.take.Sound := by
  cases hot : q.qoverflowOutput with
  | nil => rwa [take_nil hot]
  | cons node rest =>
    rw [take_cons h.useBacklog hot]
    have hoc : occ node.msg q.qoverflowOutput = occ node.msg rest + 1 := by simp [hot]
    -- the message is nowhere else, unless it was popped before
    have ho : ∀ m, m ∉ q.pops → 1 < q.places m ∨ m ≠ node.msg →
        m ∉ q.pops ++ [node.msg] := by
      intro m hm hc
      rw [mem_append, mem_singleton, not_or]
      refine ⟨hm, hc.resolve_left ?_⟩
      have := h.places_le_one hm
      omega
    have hp : ∀ m n, 0 < n → (m = node.msg → q.places m ≥ occ m q.qoverflowOutput + n) →
        1 < q.places m ∨ m ≠ node.msg := by
      intro m n hn hle
      by_cases heq : m = node.msg
      · subst heq
        exact .inl (by omega)
      · exact .inr heq
    refine { h with
      outputLen := ?_
      backlogLen := ?_
      stored := ?_
      conserved := fun m => ?_
      inputFresh := fun i n hn => ?_
      waitFresh := fun n hn => ?_
      droppedFresh := fun n hn => ?_
      backlogPopped := ?_
      ackedPopped := fun n hn => mem_append_left _ (h.ackedPopped n hn)
      returnedPopped := fun n hn => mem_append_left _ (h.returnedPopped n hn)
      popsLt := ?_ }
    · simp [h.outputLen, hot]
    · simp [h.backlogLen]
    · simp only [h.stored, hot, length_cons]
      omega
    · have hol := h.conserved m
      simp only [places, hot, occ_append, occ_cons, occ_nil] at hol ⊢
      omega
    · have hps := occ_pos.mpr ⟨n, hn, rfl⟩
      refine ho _ (h.inputFresh i n hn) (hp _ _ hps fun _ => ?_)
      have := occ_input_le (q := q) (m := n.msg) i
      simp only [places]
      omega
    · have hps := occ_pos.mpr ⟨n, hn, rfl⟩
      refine ho _ (h.waitFresh n hn) (hp _ _ hps fun _ => ?_)
      simp only [places]
      omega
    · have hps := occ_pos.mpr ⟨n, hn, rfl⟩
      refine ho _ (h.droppedFresh n hn) (hp _ _ hps fun _ => ?_)
      simp only [places]
      omega
    · refine forall_mem_append.mpr ⟨fun n hn => ?_, by simp⟩
      exact mem_append_left _ (h.backlogPopped n hn)
    · refine forall_mem_append.mpr ⟨h.popsLt, fun m hm => ?_⟩
      rw [mem_singleton.mp hm]
      refine h.lt_of_places ?_
      simp only [places]
      omega

theorem popHead : q.popHead.Sound := by
  simp only [Fifo.popHead]
  have hr : (if q.qoverflowOutputLen = 0 then q.refill else q).Sound := by
    split_ifs with he
    · exact h.refill he
    · exact h
  generalize (if q.qoverflowOutputLen = 0 then q.refill else q) = q' at hr ⊢
  split_ifs
  · exact hr.take
  · exact hr

theorem ackOne : q.ackOne.Sound := by
  cases hb : q.qbacklog with
  | nil => rwa [ackOne_nil hb]
  | cons node rest =>
    have hp := h.backlogPopped
    rw [hb, forall_mem_cons] at hp
    rw [ackOne_cons hb]
    refine { h with
      backlogLen := ?_
      conserved := fun m => ?_
      acks := fun m => ?_
      backlogPopped := hp.2
      ackedPopped := forall_mem_append.mpr ⟨h.ackedPopped, by simpa using hp.1⟩ }
    · simp [h.backlogLen, hb]
    · have ho := h.conserved m
      simp only [places, hb, occ_append, occ_cons, occ_nil] at ho ⊢
      omega
    · have ho := h.acks m
      simp only [map_append, map_cons, map_nil, occ_append]
      omega

theorem ackBacklog (n : ℕ) : (q.ackBacklog n).Sound := by
  induction n generalizing q with
  | zero => exact h
  | succ n ih =>
    simp only [Fifo.ackBacklog]
    split_ifs
    · exact ih h.ackOne
    · exact h

theorem rewindOne : q.rewindOne.Sound := by
  rcases eq_nil_or_concat q.qbacklog with hb | ⟨rest, node, hb⟩
  · rwa [rewindOne_nil hb]
  · rw [concat_eq_append] at hb
    have hp := h.backlogPopped
    rw [hb, forall_mem_append] at hp
    rw [rewindOne_concat hb]
    refine { h with
      outputLen := ?_
      backlogLen := ?_
      stored := ?_
      conserved := fun m => ?_
      backlogPopped := hp.1 }
    · simp [h.outputLen]
    · simp [h.backlogLen, hb]
    · simp only [h.stored, length_cons]
      omega
    · have ho := h.conserved m
      simp only [places, hb, occ_append, occ_cons, occ_nil] at ho ⊢
      omega

theorem rewindBacklog (n : ℕ) : (q.rewindBacklog n).Sound :=
  Function.Iterate.rec Sound h (fun _ h => h.rewindOne) _

theorem rewindBacklogAll : q.rewindBacklogAll.Sound := by
  unfold Fifo.rewindBacklogAll
  refine { h with
    outputLen := ?_
    backlogLen := rfl
    stored := ?_
    conserved := fun m => ?_
    backlogPopped := by simp }
  · simp [h.outputLen, h.backlogLen]
  · simp only [h.stored, h.backlogLen, length_append]
    omega
  · have ho := h.conserved m
    simp only [places, occ_append, occ_nil] at ho ⊢
    omega

theorem pushHead (hok : q.Allowed (.pushHead node)) : (q.pushHead node).Sound := by
  have hp : node.msg ∈ q.pops := List.mem_of_getLast? hok
  unfold Fifo.pushHead
  refine { h with
    outputLen := ?_
    stored := ?_
    conserved := fun m => ?_
    returnedPopped := forall_mem_append.mpr ⟨h.returnedPopped, by simpa using hp⟩ }
  · simp [h.outputLen]
  · simp only [h.stored, length_cons]
    omega
  · have ho := h.conserved m
    simp only [places, occ_append, occ_cons, occ_nil] at ho ⊢
    omega

theorem apply [DecidableEq ι] {op : FifoOp ι} (hok : q.Allowed op) : (q.apply op).Sound := by
  cases op with
  | pushTail thread queueLen ackNeeded fc => exact h.pushTail hok
  | moveInput i queueLen => exact h.moveInput queueLen
  | popHead => exact h.popHead
  | ackBacklog n => exact h.ackBacklog n
  | rewindBacklog n => exact h.rewindBacklog n
  | rewindBacklogAll => exact h.rewindBacklogAll
  | pushHead node => exact h.pushHead hok

end

end Sound
end Fifo
end SyslogNg.LogQueue
