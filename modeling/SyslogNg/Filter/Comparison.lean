import SyslogNg.PatternDb.RateLimit

/-!
# Comparisons in filters

`fop_cmp_new` and `fop_cmp_eval` of `lib/filter.c`. The operator is kept as a set of bits. The
`case` of a numeric operator sets `FCMP_NUM` and falls through to that of the operator for strings,
which assigns its own bits: the mark for numbers is lost, and numbers are compared as strings.
-/
namespace SyslogNg.Filter

open PatternDb (atoi)

inductive CmpOp
  | lt
  | le
  | eq
  | ne
  | ge
  | gt
  deriving DecidableEq

def fcmpEq : ℕ := 0x0001
def fcmpLt : ℕ := 0x0002
def fcmpGt : ℕ := 0x0004
def fcmpNum : ℕ := 0x0010

/-- What the `case` of an operator for strings assigns to `cmp_op` -/
def CmpOp.bits : CmpOp → ℕ
  | lt => fcmpLt
  | le => fcmpLt ||| fcmpEq
  | eq => fcmpEq
  | ne => 0
  | ge => fcmpGt ||| fcmpEq
  | gt => fcmpGt

/-- `fop_cmp_new`: the assignments to `cmp_op` that the `switch` makes, the last of which counts -/
def fopCmpNew (numeric : Bool) (op : CmpOp) : ℕ :=
  ((if numeric then [fcmpNum] else []) ++ [op.bits]).foldl (fun _ bits => bits) 0

def cstr (buf : Bytes) : Bytes := buf.takeWhile (· ≠ 0)

/-- `strcmp`, of whose result only the sign is specified -/
def strcmp (left right : Bytes) : ℤ :=
  match cmp (cstr left) (cstr right) with
  | .lt => -1
  | .eq => 0
  | .gt => 1

/-- `fop_cmp_eval` for what the two templates expand to -/
def fopCmpEval (cmpOp : ℕ) (comp : Bool) (left right : Bytes) : Bool :=
  let cmp : ℤ :=
    if cmpOp &&& fcmpNum ≠ 0 then
      if atoi left = atoi right then 0 else if atoi left > atoi right then -1 else 1
    else strcmp left right
  let result :=
    if cmp = 0 then cmpOp &&& fcmpEq ≠ 0
    else if cmp < 0 then cmpOp &&& fcmpLt ≠ 0 ∨ cmpOp = 0
    else cmpOp &&& fcmpGt ≠ 0 ∨ cmpOp = 0
  decide result ^^ comp

def CmpOp.holds : CmpOp → Ordering → Bool
  | lt, o => o.isLT
  | le, o => o.isLE
  | eq, o => o.isEq
  | ne, o => o.isNe
  | ge, o => o.isGE
  | gt, o => o.isGT

theorem CmpOp.holds_inj {o o' : Ordering} (h : ∀ op : CmpOp, op.holds o = op.holds o') :
    o = o' := by
  have hlt := h .lt
  have heq := h .eq
  cases o <;> cases o' <;> simp_all [holds]

/-- Both families compare texts. -/
theorem fopCmpEval_eq (numeric : Bool) (op : CmpOp) (comp : Bool) (left right : Bytes) :
    fopCmpEval (fopCmpNew numeric op) comp left right =
      (op.holds (cmp (cstr left) (cstr right)) ^^ comp) := by
  have hb : fopCmpNew numeric op = op.bits := by cases numeric <;> rfl
  rw [hb, fopCmpEval, strcmp]
  generalize cmp (cstr left) (cstr right) = o
  cases op <;> cases o <;> rfl

/-- A family of operators answers as an order does exactly if the texts stand in that order. -/
theorem family_correct_iff (numeric : Bool) (left right : Bytes) (o : Ordering) :
    (∀ op comp, fopCmpEval (fopCmpNew numeric op) comp left right = (op.holds o ^^ comp)) ↔
      cmp (cstr left) (cstr right) = o := by
  constructor
  · intro h
    refine CmpOp.holds_inj fun op => ?_
    have hop := h op false
    rwa [fopCmpEval_eq, Bool.xor_false, Bool.xor_false] at hop
  · rintro rfl op comp
    exact fopCmpEval_eq ..

/-- The operators for strings are right for two texts exactly if these have no NUL that makes a
difference to their order, those for numbers exactly if the texts stand in the same order as the
numbers that are read from them. In any case exactly one of less, equal and greater holds, and less
and greater change places with the operands. -/
theorem comparisons_correct_iff (left right : Bytes) :
    ((∀ op comp, fopCmpEval (fopCmpNew false op) comp left right =
        (op.holds (cmp left right) ^^ comp)) ↔ cmp (cstr left) (cstr right) = cmp left right) ∧
    ((∀ op comp, fopCmpEval (fopCmpNew true op) comp left right =
        (op.holds (cmp (atoi left) (atoi right)) ^^ comp)) ↔
      cmp (cstr left) (cstr right) = cmp (atoi left) (atoi right)) ∧
    ∀ numeric, ([CmpOp.lt, .eq, .gt].countP fun op =>
        fopCmpEval (fopCmpNew numeric op) false left right) = 1 ∧
      fopCmpEval (fopCmpNew numeric .lt) false left right =
        fopCmpEval (fopCmpNew numeric .gt) false right left := by
  refine ⟨family_correct_iff .., family_correct_iff .., fun numeric => ?_⟩
  have he := fun op => fopCmpEval_eq numeric op false left right
  constructor
  · rw [funext he]
    cases cmp (cstr left) (cstr right) <;> rfl
  · rw [he, fopCmpEval_eq, cmp, cmpUsing, cmp, cmpUsing]
    split_ifs with hl hm
    · exact absurd hl (List.lt_asymm hm)
    all_goals rfl

/-- `9 < 10` -/
theorem numbers_compared_as_texts :
    fopCmpEval (fopCmpNew true .lt) false [0x39] [0x31, 0x30] = false ∧
      atoi [0x39] < atoi [0x31, 0x30] := by
  decide

end SyslogNg.Filter
