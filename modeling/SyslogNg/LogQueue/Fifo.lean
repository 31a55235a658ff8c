import SyslogNg.Foundations.CursorQueue
import SyslogNg.Foundations.Run
import SyslogNg.LogMsg.RefCount

/-!
# The FIFO queue of a destination

`lib/logqueue-fifo.c`: every input thread has a list of its own, which is moved to the wait list
at the end of a batch; the output thread takes the wait list over when its own list is empty and
keeps what it sent in the backlog. A message is named by the number of its `push_tail`.
-/
namespace SyslogNg.LogQueue

open Function

structure Node where
  msg : ℕ
  ackNeeded : Bool
  flowControlRequested : Bool
  deriving DecidableEq

/-- `LogQueueFifo`, with the input lists of the threads `ι`. What follows `acks` is a record of
the past that the queue does not look at. -/
structure Fifo (ι : Type*) where
  qoverflowOutput : List Node
  qoverflowWait : List Node
  qbacklog : List Node
  qoverflowOutputLen : ℤ
  qoverflowWaitLen : ℤ
  qbacklogLen : ℤ
  qoverflowSize : ℤ
  useBacklog : Bool
  input : ι → List Node
  /-- A `guint16` -/
  inputLen : ι → ℕ
  storedMessages : ℤ
  /-- A `gint` that wraps around -/
  droppedMessages : BitVec 32
  /-- Calls of `log_msg_ack` -/
  acks : List (Node × AckType)
  /-- The threads of all calls of `push_tail`, `none` for those without a thread id. -/
  pushes : List (Option ι)
  pops : List ℕ
  /-- What `push_head` put back. -/
  returned : List Node
  acked : List Node
  dropped : List Node

inductive FifoOp (ι : Type*)
  /-- `queueLen` is the length the input thread happens to read, which the output thread may
  change at the same time. -/
  | pushTail (thread : Option ι) (queueLen : ℤ) (ackNeeded flowControlRequested : Bool)
  | moveInput (i : ι) (queueLen : ℤ)
  | popHead
  | ackBacklog (n : ℕ)
  | rewindBacklog (n : ℕ)
  | rewindBacklogAll
  | pushHead (node : Node)

namespace Fifo

variable {ι : Type*} [DecidableEq ι]

def new (qoverflowSize : ℤ) (useBacklog : Bool) : Fifo ι where
  qoverflowOutput := []
  qoverflowWait := []
  qbacklog := []
  qoverflowOutputLen := 0
  qoverflowWaitLen := 0
  qbacklogLen := 0
  qoverflowSize := qoverflowSize
  useBacklog := useBacklog
  input := fun _ => []
  inputLen := fun _ => 0
  storedMessages := 0
  droppedMessages := 0
  acks := []
  pushes := []
  pops := []
  returned := []
  acked := []
  dropped := []

def drop (q : Fifo ι) (node : Node) : Fifo ι :=
  { q with
    droppedMessages := q.droppedMessages + 1
    acks := q.acks ++ [(node, if node.flowControlRequested then .suspended else .processed)]
    dropped := q.dropped ++ [node] }

def dropInput (i : ι) (q : Fifo ι) : Fifo ι :=
  match q.input i with
  | [] => q
  | node :: rest =>
    { q with
      input := update q.input i rest
      inputLen := update q.inputLen i ((q.inputLen i + (2 ^ 16 - 1)) % 2 ^ 16) }.drop node

def spliceInput (i : ι) (q : Fifo ι) : Fifo ι :=
  { q with
    storedMessages := q.storedMessages + q.inputLen i
    qoverflowWait := q.qoverflowWait ++ q.input i
    qoverflowWaitLen := q.qoverflowWaitLen + q.inputLen i
    input := update q.input i []
    inputLen := update q.inputLen i 0 }

def moveInput (q : Fifo ι) (i : ι) (queueLen : ℤ) : Fifo ι :=
  let n := q.inputLen i - max 0 (q.qoverflowSize - queueLen)
  if queueLen + q.inputLen i > q.qoverflowSize then ((dropInput i)^[n.toNat] q).spliceInput i
  else q.spliceInput i

/-- `log_queue_fifo_push_tail`; a thread without an id puts the message into the wait list. -/
def pushTail (q : Fifo ι) (thread : Option ι) (queueLen : ℤ)
    (ackNeeded flowControlRequested : Bool) : Fifo ι :=
  let node : Node := ⟨q.pushes.length, ackNeeded, flowControlRequested⟩
  let q := { q with pushes := q.pushes ++ [thread] }
  match thread with
  | some i =>
    { q with
      input := update q.input i (q.input i ++ [node])
      inputLen := update q.inputLen i ((q.inputLen i + 1) % 2 ^ 16) }
  | none =>
    if queueLen < q.qoverflowSize then
      { q with
        qoverflowWait := q.qoverflowWait ++ [node]
        qoverflowWaitLen := q.qoverflowWaitLen + 1
        storedMessages := q.storedMessages + 1 }
    else q.drop node

def pushHead (q : Fifo ι) (node : Node) : Fifo ι :=
  { q with
    qoverflowOutput := node :: q.qoverflowOutput
    qoverflowOutputLen := q.qoverflowOutputLen + 1
    storedMessages := q.storedMessages + 1
    returned := q.returned ++ [node] }

/-- The output list is empty: take over the wait list. -/
def refill (q : Fifo ι) : Fifo ι :=
  { q with
    qoverflowOutput := q.qoverflowOutput ++ q.qoverflowWait
    qoverflowWait := []
    qoverflowOutputLen := q.qoverflowWaitLen
    qoverflowWaitLen := 0 }

def take (q : Fifo ι) : Fifo ι :=
  match q.qoverflowOutput with
  | [] => q
  | node :: rest =>
    { q with
      qoverflowOutput := rest
      qoverflowOutputLen := q.qoverflowOutputLen - 1
      storedMessages := q.storedMessages - 1
      qbacklog := if q.useBacklog then q.qbacklog ++ [node] else q.qbacklog
      qbacklogLen := if q.useBacklog then q.qbacklogLen + 1 else q.qbacklogLen
      pops := q.pops ++ [node.msg] }

def popHead (q : Fifo ι) : Fifo ι :=
  let q := if q.qoverflowOutputLen = 0 then q.refill else q
  if q.qoverflowOutputLen > 0 then q.take else q

def ackOne (q : Fifo ι) : Fifo ι :=
  match q.qbacklog with
  | [] => q
  | node :: rest =>
    { q with
      qbacklog := rest
      qbacklogLen := q.qbacklogLen - 1
      acks := q.acks ++ [(node, .processed)]
      acked := q.acked ++ [node] }

def ackBacklog (q : Fifo ι) : ℕ → Fifo ι
  | 0 => q
  | n + 1 => if q.qbacklogLen > 0 then q.ackOne.ackBacklog n else q

def rewindOne (q : Fifo ι) : Fifo ι :=
  match q.qbacklog.getLast? with
  | none => q
  | some node =>
    { q with
      qbacklog := q.qbacklog.dropLast
      qoverflowOutput := node :: q.qoverflowOutput
      qbacklogLen := q.qbacklogLen - 1
      qoverflowOutputLen := q.qoverflowOutputLen + 1
      storedMessages := q.storedMessages + 1 }

def rewindBacklog (q : Fifo ι) (rewindCount : ℕ) : Fifo ι :=
  let rewindCount : ℤ := if rewindCount > q.qbacklogLen then q.qbacklogLen else rewindCount
  rewindOne^[rewindCount.toNat] q

def rewindBacklogAll (q : Fifo ι) : Fifo ι :=
  { q with
    qoverflowOutput := q.qoverflowOutput ++ q.qbacklog
    qbacklog := []
    qoverflowOutputLen := q.qoverflowOutputLen + q.qbacklogLen
    storedMessages := q.storedMessages + q.qbacklogLen
    qbacklogLen := 0 }

def apply (q : Fifo ι) : FifoOp ι → Fifo ι
  | .pushTail thread queueLen ackNeeded flowControlRequested =>
    q.pushTail thread queueLen ackNeeded flowControlRequested
  | .moveInput i queueLen => q.moveInput i queueLen
  | .popHead => q.popHead
  | .ackBacklog n => q.ackBacklog n
  | .rewindBacklog n => q.rewindBacklog n
  | .rewindBacklogAll => q.rewindBacklogAll
  | .pushHead node => q.pushHead node

end Fifo
end SyslogNg.LogQueue
