import SyslogNg.NvTable.Store
import SyslogNg.Foundations.Run

/-!
# NVTable: histories

The operations a caller can apply to a table, and the system of all histories that
start from a fresh table. Callers take the name of a handle from the registry, as
`log_msg_set_value` does, so a history is relative to one assignment of names.
-/
namespace SyslogNg.NvTable

inductive Op
  | addValue (handle : ℕ) (value : Bytes) (wantNew : Bool)
  | addValueIndirect (handle : ℕ) (slice : NVReferencedSlice) (wantNew : Bool)
  | realloc
  | clone (additionalSpace : ℕ)

/-- A table that cannot grow any more stays as it is. -/
def NVTable.grown (t : NVTable) : NVTable :=
  match t.realloc with
  | none => t
  | some (_, new) => new

variable (names : ℕ → NVName)

/-- The call, its return value and the table the caller goes on with. -/
def exec (t : NVTable) : Op → Option (Bool × NVTable)
  | .addValue h value wantNew =>
    (addValue t h (names h) value value.length wantNew).map fun r => (r.ok, r.table)
  | .addValueIndirect h slice wantNew =>
    (addValueIndirect t h (names h) slice wantNew).map fun r => (r.1.ok, r.1.table)
  | .realloc => some (t.realloc.isSome, t.grown)
  | .clone additionalSpace => some (true, t.clone additionalSpace)

/-- What `nv_table_new` and `nv_table_init_borrowed` return. -/
def Fresh (t : NVTable) : Prop :=
  (∃ numStatic numDyn initLength, t = .new numStatic numDyn initLength) ∨
    ∃ spaceLen numStatic, NVTable.initBorrowed spaceLen numStatic = some t

def system : System NVTable Op where
  init := Fresh
  step t op t' := ∃ ok, exec names t op = some (ok, t')

def execTable (t : NVTable) (op : Op) : NVTable := ((exec names t op).map Prod.snd).getD t

variable {names}

theorem exec_eq_execTable {t : NVTable} {op : Op} {ok : Bool}
    (h : (exec names t op).map Prod.fst = some ok) :
    exec names t op = some (ok, execTable names t op) := by
  obtain ⟨⟨b, t'⟩, he, rfl⟩ := Option.map_eq_some_iff.mp h
  simp [execTable, he]

theorem reachable_execTable {ok : NVTable → Op → Prop} {t : NVTable}
    (hr : ((system names).restrict ok).Reachable t) (op : Op) (hop : ok t op) :
    ((system names).restrict ok).Reachable (execTable names t op) := by
  cases he : exec names t op with
  | none => simpa [execTable, he] using hr
  | some r => exact hr.step ⟨hop, r.1, by simp [execTable, he]⟩

end SyslogNg.NvTable
