import Mathlib.Tactic

/-!
# A queue with a cursor

One sequence of items, of which those before the cursor were handed out and are kept until they
are acknowledged. Going back moves the cursor and nothing else.
-/
namespace SyslogNg

structure CursorQueue (α : Type*) where
  sent : List α
  unsent : List α

namespace CursorQueue

variable {α : Type*}

def contents (q : CursorQueue α) : List α := q.sent ++ q.unsent

def rewind (q : CursorQueue α) (n : ℕ) : CursorQueue α :=
  ⟨q.sent.take (q.sent.length - n), q.sent.drop (q.sent.length - n) ++ q.unsent⟩

theorem contents_rewind (q : CursorQueue α) (n : ℕ) : (q.rewind n).contents = q.contents := by
  simp [rewind, contents, ← List.append_assoc]

end CursorQueue
end SyslogNg
