import SyslogNg.Foundations.CopyOnWrite
import SyslogNg.Foundations.Run

/-!
# Messages on their way through the pipeline

The message objects the source thread works on, with what their clones share: the payload and,
once there are too many of them to be stored inline, the tags. What the traversal of the
pipeline does to them is a list of operations.
-/
namespace SyslogNg.Pipeline

open Function

/-- The tags of a message; `numTags` is zero while they are stored inline. -/
structure TagSet where
  numTags : ℕ
  ids : Finset ℕ
  deriving DecidableEq

/-- All message objects. A handle on the payload or on the tags stands for the pointer and the
`LF_STATE_OWN_` flag, `referenced` for `LF_STATE_REFERENCED`; `queued` are those that some
destination put into its queue. -/
structure Store (V : Type*) where
  size : ℕ
  referenced : ℕ → Bool
  queued : ℕ → Bool
  payload : Cow V
  tags : Cow TagSet

/-- What happens to messages, in the order of the source thread. -/
inductive Op (V D : Type*)
  /-- A processing element looks at the message. -/
  | eval (m : ℕ)
  /-- `log_msg_set_value` -/
  | setValues (m : ℕ) (values : V)
  /-- `log_msg_set_tag_by_id_onoff` -/
  | setTags (m : ℕ) (tags : TagSet)
  /-- `log_msg_clone_cow`, which returns `clone`, but for the `log_msg_ref` of the original. -/
  | clone (m clone : ℕ)
  | addAck (m : ℕ)
  | ref (m : ℕ)
  | ack (m : ℕ)
  | unref (m : ℕ)
  /-- A destination driver puts the message into its queue, with the ack and the reference that
  were taken for it. -/
  | deliver (driver : D) (m : ℕ) (flowControl : Bool)
  deriving DecidableEq

variable {V D : Type*}

namespace Store

/-- A single message with the given contents, as a source creates it. -/
def new (values : V) (tags : TagSet) : Store V where
  size := 1
  referenced := fun _ => false
  queued := fun _ => false
  payload := ⟨fun _ => values, 1, fun _ => ⟨0, true⟩⟩
  tags := ⟨fun _ => tags, 1, fun _ => ⟨0, true⟩⟩

def content (s : Store V) (m : ℕ) : V × TagSet := (s.payload.read m, s.tags.read m)

def cloneCow (s : Store V) (m : ℕ) : Store V where
  size := s.size + 1
  referenced := update (update s.referenced m true) s.size false
  queued := s.queued
  payload := s.payload.share m s.size
  tags := if (s.tags.read m).numTags = 0 then s.tags.copy m s.size else s.tags.share m s.size

def apply (s : Store V) : Op V D → Store V
  | .eval _ | .addAck _ | .ref _ | .ack _ | .unref _ => s
  | .setValues m values => { s with payload := s.payload.write m values }
  | .setTags m tags => { s with tags := s.tags.write m tags }
  | .clone m _ => s.cloneCow m
  | .deliver _ m _ =>
    { s with referenced := update s.referenced m true, queued := update s.queued m true }

def applyAll (s : Store V) (ops : List (Op V D)) : Store V := ops.foldl apply s

@[simp]
theorem applyAll_nil (s : Store V) : s.applyAll ([] : List (Op V D)) = s := rfl

@[simp]
theorem applyAll_cons (s : Store V) (op : Op V D) (ops : List (Op V D)) :
    s.applyAll (op :: ops) = (s.apply op).applyAll ops := rfl

@[simp]
theorem applyAll_append (s : Store V) (ops ops' : List (Op V D)) :
    s.applyAll (ops ++ ops') = (s.applyAll ops).applyAll ops' :=
  List.foldl_append

theorem size_apply_le (s : Store V) (op : Op V D) : s.size ≤ (s.apply op).size := by
  cases op <;> simp [apply, cloneCow]

theorem size_le (s : Store V) (ops : List (Op V D)) : s.size ≤ (s.applyAll ops).size := by
  induction ops generalizing s with
  | nil => exact le_rfl
  | cons op ops ih => exact (s.size_apply_le op).trans (ih _)

end Store
end SyslogNg.Pipeline
