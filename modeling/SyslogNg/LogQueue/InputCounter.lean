import SyslogNg.LogQueue.Conservation

/-!
# The counters of the input lists

`qoverflow_input[thread].len` is a `guint16` next to a list that nothing bounds during a batch:
in every run it is the length of the list modulo `2 ^ 16`.
-/
namespace SyslogNg.LogQueue

open List Function

variable {ι : Type*}

namespace Fifo

variable {q q' : Fifo ι} {i j : ι} {n : ℕ}

/-- What the output thread does leaves the input lists alone. -/
def SameInputs (q q' : Fifo ι) : Prop := q'.input = q.input ∧ q'.inputLen = q.inputLen

theorem SameInputs.refl (q : Fifo ι) : q.SameInputs q := ⟨rfl, rfl⟩

theorem SameInputs.trans {q₁ q₂ q₃ : Fifo ι} (h : q₁.SameInputs q₂) (h' : q₂.SameInputs q₃) :
    q₁.SameInputs q₃ := ⟨h'.1.trans h.1, h'.2.trans h.2⟩

theorem sameInputs_iterate {f : Fifo ι → Fifo ι} (hf : ∀ q, SameInputs q (f q)) (n : ℕ)
    (q : Fifo ι) : q.SameInputs (f^[n] q) := by
  induction n generalizing q with
  | zero => exact .refl q
  | succ n ih =>
    exact (hf q).trans (ih (f q))

theorem sameInputs_popHead (q : Fifo ι) : q.SameInputs q.popHead := by
  have ht : ∀ q : Fifo ι, q.SameInputs q.take := by
    intro q
    unfold take
    split <;> exact ⟨rfl, rfl⟩
  have hr : q.SameInputs (if q.qoverflowOutputLen = 0 then q.refill else q) := by
    split <;> exact ⟨rfl, rfl⟩
  refine hr.trans ?_
  rw [popHead]
  generalize (if q.qoverflowOutputLen = 0 then q.refill else q) = q'
  split
  · exact ht q'
  · exact .refl q'

theorem sameInputs_ackBacklog (q : Fifo ι) (n : ℕ) : q.SameInputs (q.ackBacklog n) := by
  have ho : ∀ q : Fifo ι, q.SameInputs q.ackOne := by
    intro q
    unfold ackOne
    split <;> exact ⟨rfl, rfl⟩
  induction n generalizing q with
  | zero => exact .refl q
  | succ n ih =>
    rw [ackBacklog]
    split
    · exact (ho q).trans (ih q.ackOne)
    · exact .refl q

theorem sameInputs_rewindBacklog (q : Fifo ι) (n : ℕ) : q.SameInputs (q.rewindBacklog n) := by
  have ho : ∀ q : Fifo ι, q.SameInputs q.rewindOne := by
    intro q
    unfold rewindOne
    split <;> exact ⟨rfl, rfl⟩
  exact sameInputs_iterate ho _ q

/-- The input list of thread `i` holds `n` nodes, and the counter is `n` as far as it can be. -/
structure Mirrors (q : Fifo ι) (i : ι) (n : ℕ) : Prop where
  length : (q.input i).length = n
  len : q.inputLen i = n % 2 ^ 16

theorem Mirrors.of_sameInputs (h : q.Mirrors i n) (hs : q.SameInputs q') : q'.Mirrors i n := by
  constructor
  · rw [hs.1]
    exact h.length
  · rw [hs.2]
    exact h.len

/-- What the wait list has no room for, as `log_queue_fifo_move_input_unlocked` counts it. -/
def excess (q : Fifo ι) (queueLen : ℤ) (n : ℕ) : ℕ :=
  if queueLen + n > q.qoverflowSize then (n - max 0 (q.qoverflowSize - queueLen)).toNat else 0

theorem excess_le (q : Fifo ι) (queueLen : ℤ) (n : ℕ) : q.excess queueLen n ≤ n := by
  unfold excess
  split <;> omega

end Fifo

variable [DecidableEq ι]

/-- Number of messages in the batch of a thread after one more operation. -/
def batchAfter (i : ι) (n : ℕ) : FifoOp ι → ℕ
  | .pushTail thread _ _ _ => if thread = some i then n + 1 else n
  | .moveInput j _ => if j = i then 0 else n
  | _ => n

/-- Messages the thread has pushed since its batch callback ran last. -/
def batch (i : ι) (ops : List (FifoOp ι)) : ℕ := ops.foldl (batchAfter i) 0

namespace Fifo

variable {q q' : Fifo ι} {i j : ι} {n : ℕ}

/-- `k` nodes taken off the front of the list and acknowledged as dropped. -/
structure DroppedFirst (i : ι) (k : ℕ) (q q' : Fifo ι) : Prop where
  input : q'.input = Function.update q.input i ((q.input i).drop k)
  otherLen : ∀ j, j ≠ i → q'.inputLen j = q.inputLen j
  len : q.inputLen i < 2 ^ 16 → k ≤ q.inputLen i → q'.inputLen i = q.inputLen i - k
  dropped : q'.dropped = q.dropped ++ (q.input i).take k
  droppedMessages : q'.droppedMessages = q.droppedMessages + BitVec.ofNat 32 k
  wait : q'.qoverflowWait = q.qoverflowWait
  waitLen : q'.qoverflowWaitLen = q.qoverflowWaitLen
  stored : q'.storedMessages = q.storedMessages

theorem droppedFirst_iterate {k : ℕ} (hk : k ≤ (q.input i).length) :
    DroppedFirst i k q ((dropInput i)^[k] q) := by
  induction k generalizing q with
  | zero => exact ⟨by simp, by simp, by simp, by simp, by simp, rfl, rfl, rfl⟩
  | succ k ih =>
    obtain ⟨node, rest, hi⟩ : ∃ node rest, q.input i = node :: rest :=
      exists_cons_of_length_pos (by omega)
    have hr : k ≤ ((q.dropInput i).input i).length := by
      rw [dropInput_cons hi]
      simp only [update_self]
      rw [hi, length_cons] at hk
      omega
    have hl := ih hr
    rw [iterate_succ_apply]
    generalize (dropInput i)^[k] (q.dropInput i) = q' at hl
    rw [dropInput_cons hi] at hl
    constructor
    · rw [hl.input, hi]
      simp
    · intro j hj
      rw [hl.otherLen j hj]
      simp [hj]
    · intro hlt hle
      -- the counter is not zero yet, so taking one off does not wrap
      have hln := hl.len
      simp only [update_self] at hln
      omega
    · rw [hl.dropped, hi]
      simp
    · rw [hl.droppedMessages, BitVec.ofNat_add, BitVec.add_comm (BitVec.ofNat 32 k),
        ← BitVec.add_assoc]
      rfl
    · rw [hl.wait]
    · rw [hl.waitLen]
    · rw [hl.stored]

theorem moveInput_eq (q : Fifo ι) (i : ι) (queueLen : ℤ) : q.moveInput i queueLen =
    ((dropInput i)^[q.excess queueLen (q.inputLen i)] q).spliceInput i := by
  unfold moveInput excess
  split <;> rfl

theorem droppedFirst_excess (h : q.Mirrors i n) (queueLen : ℤ) :
    DroppedFirst i (q.excess queueLen (q.inputLen i)) q
      ((dropInput i)^[q.excess queueLen (q.inputLen i)] q) := by
  apply droppedFirst_iterate
  have hle := q.excess_le queueLen (q.inputLen i)
  have hl := h.len
  rw [h.length]
  omega

section Runs

theorem mirrors_pushTail (h : q.Mirrors i n) (thread : Option ι) (queueLen : ℤ) (ack fc : Bool) :
    (q.pushTail thread queueLen ack fc).Mirrors i (if thread = some i then n + 1 else n) := by
  rcases thread with _ | j
  · have hs : q.SameInputs (q.pushTail none queueLen ack fc) := by
      simp only [pushTail]
      split <;> exact ⟨rfl, rfl⟩
    simpa using h.of_sameInputs hs
  · rcases eq_or_ne j i with rfl | hj
    · constructor
      · simp [pushTail, h.length]
      · simp only [pushTail, h.len]
        simp
    · constructor
      · simp [pushTail, hj.symm, hj, h.length]
      · simp [pushTail, hj.symm, hj, h.len]

theorem mirrors_moveInput (h : ∀ j, ∃ n, q.Mirrors j n) (hi : q.Mirrors i n) (queueLen : ℤ) :
    (q.moveInput j queueLen).Mirrors i (if j = i then 0 else n) := by
  obtain ⟨m, hj⟩ := h j
  have hd := droppedFirst_excess hj queueLen
  rw [moveInput_eq]
  generalize (dropInput j)^[q.excess queueLen (q.inputLen j)] q = q' at hd
  rcases eq_or_ne j i with rfl | hne
  · constructor <;> simp [spliceInput]
  · constructor
    · simp [spliceInput, hd.input, hne, hne.symm, hi.length]
    · simp [spliceInput, hd.otherLen i hne.symm, hne, hne.symm, hi.len]

/-- One operation: every list still mirrors its counter, and only the batch of the thread
concerned changes. -/
theorem mirrors_apply (h : ∀ j, ∃ n, q.Mirrors j n) (hi : q.Mirrors i n) (op : FifoOp ι) :
    (q.apply op).Mirrors i (batchAfter i n op) := by
  cases op with
  | pushTail thread queueLen ack fc => exact mirrors_pushTail hi thread queueLen ack fc
  | moveInput j queueLen => exact mirrors_moveInput h hi queueLen
  | popHead => exact hi.of_sameInputs (sameInputs_popHead q)
  | ackBacklog k => exact hi.of_sameInputs (sameInputs_ackBacklog q k)
  | rewindBacklog k => exact hi.of_sameInputs (sameInputs_rewindBacklog q k)
  | rewindBacklogAll => exact hi.of_sameInputs ⟨rfl, rfl⟩
  | pushHead node => exact hi.of_sameInputs ⟨rfl, rfl⟩

theorem mirrors_run (size : ℤ) (useBacklog : Bool) (ops : List (FifoOp ι)) (i : ι) :
    (ops.foldl apply (new size useBacklog)).Mirrors i (batch i ops) := by
  induction ops using List.reverseRecOn generalizing i with
  | nil => exact ⟨rfl, rfl⟩
  | append_singleton ops op ih =>
    rw [batch, foldl_append, foldl_append]
    exact mirrors_apply (fun j => ⟨_, ih j⟩) (ih i) op

end Runs

/-- `log_queue_fifo_move_input_unlocked` with a length read as `queueLen`: the nodes that the
queue has no room for are dropped, and both lengths grow by the number of nodes spliced. -/
def MovesAll (q : Fifo ι) (i : ι) (queueLen : ℤ) : Prop :=
  let excess := min (q.input i).length (queueLen + (q.input i).length - q.qoverflowSize).toNat
  let spliced := (q.input i).drop excess
  let q' := q.moveInput i queueLen
  q'.dropped = q.dropped ++ (q.input i).take excess ∧
  q'.droppedMessages = q.droppedMessages + BitVec.ofNat 32 excess ∧
  q'.qoverflowWait = q.qoverflowWait ++ spliced ∧
  q'.qoverflowWaitLen = q.qoverflowWaitLen + spliced.length ∧
  q'.storedMessages = q.storedMessages + spliced.length

theorem movesAll_of_exact (h : q.Mirrors i n) (he : q.inputLen i = (q.input i).length)
    (queueLen : ℤ) : q.MovesAll i queueLen := by
  have hlt : q.inputLen i < 2 ^ 16 := by
    rw [h.len]
    exact Nat.mod_lt n (by decide)
  have hex : q.excess queueLen (q.inputLen i) =
      min (q.input i).length (queueLen + (q.input i).length - q.qoverflowSize).toNat := by
    rw [excess]
    split <;> omega
  have hd := droppedFirst_excess h queueLen
  have hl := hd.len hlt (q.excess_le queueLen _)
  rw [MovesAll, moveInput_eq, ← hex]
  generalize (dropInput i)^[q.excess queueLen (q.inputLen i)] q = q' at hd hl
  have hs : (q'.inputLen i : ℤ) =
      ((q.input i).drop (q.excess queueLen (q.inputLen i))).length := by
    rw [hl, length_drop, he]
  refine ⟨hd.dropped, hd.droppedMessages, ?_, ?_, ?_⟩
  · simp [spliceInput, hd.wait, hd.input]
  · rw [← hs, ← hd.waitLen]
    rfl
  · rw [← hs, ← hd.stored]
    rfl

/-- The counter of a thread is the length of its list, and its callback moves exactly what the
list holds, whenever the batch is shorter than `2 ^ 16` messages, and then only. -/
theorem inputLen_exact_iff (size : ℤ) (useBacklog : Bool) (ops : List (FifoOp ι)) (i : ι) :
    let q := ops.foldl apply (new size useBacklog)
    (q.inputLen i = (q.input i).length ∧ ∀ queueLen, q.MovesAll i queueLen) ↔
      batch i ops < 2 ^ 16 := by
  intro q
  have h : q.Mirrors i (batch i ops) := mirrors_run size useBacklog ops i
  have he : q.inputLen i = (q.input i).length ↔ batch i ops < 2 ^ 16 := by
    rw [h.len, h.length]
    exact ⟨fun heq => by omega, Nat.mod_eq_of_lt⟩
  constructor
  · intro hc
    exact he.1 hc.1
  · intro hlt
    exact ⟨he.2 hlt, movesAll_of_exact h (he.2 hlt)⟩

/-- `n` messages of one thread and its callback, with a queue that has room for all. -/
def longBatch (n : ℕ) : List (FifoOp Unit) :=
  List.replicate n (.pushTail (some ()) 0 false false)

theorem foldl_longBatch_succ (q : Fifo Unit) (n : ℕ) : (longBatch (n + 1)).foldl apply q =
    ((longBatch n).foldl apply q).pushTail (some ()) 0 false false := by
  rw [longBatch, replicate_succ', foldl_append]
  rfl

theorem longBatch_outside (size : ℤ) (n : ℕ) : let q := (longBatch n).foldl apply (new size true)
    q.qoverflowSize = size ∧ q.qoverflowWait = [] ∧ q.qoverflowWaitLen = 0 ∧
      q.storedMessages = 0 := by
  induction n with
  | zero => exact ⟨rfl, rfl, rfl, rfl⟩
  | succ n ih =>
    rw [foldl_longBatch_succ]
    exact ih

theorem batch_longBatch (n : ℕ) : batch () (longBatch n) = n := by
  induction n with
  | zero => rfl
  | succ n ih =>
    rw [longBatch, replicate_succ', batch, foldl_append]
    exact congrArg (· + 1) ih

theorem moveInput_longBatch {n : ℕ} (hn : n % 2 ^ 16 = 0) :
    let q := (longBatch n).foldl apply (new 100000 true)
    q.inputLen () = 0 ∧ (q.input ()).length = n ∧
      (q.moveInput () 0).qoverflowWait.length = n ∧
      (q.moveInput () 0).qoverflowWaitLen = 0 ∧ (q.moveInput () 0).storedMessages = 0 := by
  intro q
  have h : q.Mirrors () n := by
    have hr := mirrors_run 100000 true (longBatch n) ()
    rwa [batch_longBatch] at hr
  have hl : q.inputLen () = 0 := h.len.trans hn
  obtain ⟨hsz, hw, hwl, hs⟩ := longBatch_outside 100000 n
  have hnn : q.excess 0 (q.inputLen ()) = 0 := by
    rw [excess, hl, hsz]
    decide
  rw [moveInput_eq, hnn]
  refine ⟨hl, h.length, ?_, ?_, ?_⟩
  · simp [spliceInput, q, hw, h.length]
  · simp [spliceInput, q, hwl, hl]
  · simp [spliceInput, q, hs, hl]

/-- 65536 messages in one batch: the counter is back at zero, so the callback moves all nodes to
the wait list and leaves its length at zero. -/
theorem inputLen_wraps : let q := (longBatch 65536).foldl apply (new 100000 true)
    q.inputLen () = 0 ∧ (q.input ()).length = 65536 ∧
      (q.moveInput () 0).qoverflowWait.length = 65536 ∧
      (q.moveInput () 0).qoverflowWaitLen = 0 ∧ (q.moveInput () 0).storedMessages = 0 :=
  moveInput_longBatch rfl

end Fifo
end SyslogNg.LogQueue
