import SyslogNg.Template.MsgRef

/-!
# The scanner of templates

What the compiler of `lib/template/templates.c` reads: the arguments of template functions, which
may be quoted.
-/
namespace SyslogNg.Template

open List Compiler Relation

/-! ### Arguments -/

def special : Bytes := [0x5c, 0x28, 0x29, 0x22, 0x27, 0x20, 0x09]

/-- Arguments between double quotes, each behind a space -/
def quotedArgs (args : List Bytes) : Bytes :=
  args.flatMap fun arg => 0x20 :: 0x22 :: (arg ++ [0x22])

namespace Compiler.ArgState

theorem loop_plain {text : Bytes} (ht : ∀ b ∈ text, b ∉ special) (fuel : ℕ) (more buf : Bytes)
    (result : List Bytes) : loop (text.length + fuel) ⟨text ++ more, 1, buf, result⟩ =
      loop fuel ⟨more, 1, buf ++ text, result⟩ := by
  induction text generalizing buf with
  | nil => simp
  | cons b text ih =>
    obtain ⟨hb, ht⟩ := forall_mem_cons.mp ht
    simp only [special, mem_cons, not_or] at hb
    rw [length_cons, Nat.add_right_comm, loop]
    simp [hb, ih ht]

theorem addQuotedString_closed {quote : UInt8} {inside : Bytes} (h : quote ∉ inside) (s : ArgState)
    (more : Bytes) : s.addQuotedString quote (inside ++ quote :: more) = some { s with
        cursor := more
        argBuf := s.argBuf ++ if s.parens = 1 then inside else quote :: inside ++ [quote] } := by
  rw [addQuotedString, takeWhile_ne_append h]
  simp

theorem loop_quoted {arg : Bytes} (ha : 0x22 ∉ arg) (fuel : ℕ) (more buf : Bytes)
    (result : List Bytes) :
    loop (fuel + 2) ⟨0x20 :: 0x22 :: (arg ++ 0x22 :: more), 1, buf, result⟩ =
      loop fuel ⟨more, 1, arg, result ++ [buf]⟩ := by
  simp [loop, endArg, addQuotedString_closed ha]

/-- The last argument is left out if it is empty. -/
theorem loop_quotedArgs {args : List Bytes} (ha : ∀ arg ∈ args, 0x22 ∉ arg) (fuel : ℕ)
    (rest buf : Bytes) (result : List Bytes) :
    loop (2 * args.length + fuel + 1) ⟨quotedArgs args ++ 0x29 :: rest, 1, buf, result⟩ =
      some (result ++ if (args.getLastD buf).isEmpty then (buf :: args).dropLast else buf :: args,
        0x29 :: rest, true) := by
  induction args generalizing buf result with
  | nil =>
    cases buf <;> simp [quotedArgs, loop, finish]
  | cons arg args ih =>
    obtain ⟨har, ha⟩ := forall_mem_cons.mp ha
    have hf : 2 * (arg :: args).length + fuel + 1 = (2 * args.length + fuel + 1) + 2 := by
      rw [length_cons]
      omega
    have ht : quotedArgs (arg :: args) ++ 0x29 :: rest =
        0x20 :: 0x22 :: (arg ++ 0x22 :: (quotedArgs args ++ 0x29 :: rest)) := by
      simp [quotedArgs]
    rw [hf, ht, loop_quoted har, ih ha, getLastD_cons]
    split_ifs <;> simp

end Compiler.ArgState

/-- Quoted arguments are read as they are, exactly if the last one is not empty. -/
theorem quoted_arguments_iff {name : Bytes} (hne : name ≠ []) (hname : ∀ b ∈ name, b ∉ special)
    {args : List Bytes} (hargs : ∀ arg ∈ args, 0x22 ∉ arg) (rest : Bytes) :
    processArgList (0x28 :: (name ++ quotedArgs args ++ 0x29 :: rest)) =
      some (name :: args, 0x29 :: rest, true) ↔ args.getLast? ≠ some [] := by
  have hln : 2 * args.length ≤ (quotedArgs args).length := by
    clear hargs
    induction args with
    | nil => exact Nat.zero_le _
    | cons arg args ih =>
      simp only [quotedArgs, flatMap_cons, length_append, length_cons] at ih ⊢
      omega
  have hs : (name ++ quotedArgs args ++ 0x29 :: rest).dropWhile (· = 0x20) =
      name ++ (quotedArgs args ++ 0x29 :: rest) := by
    obtain ⟨b, name, rfl⟩ := exists_cons_of_ne_nil hne
    have hb : b ≠ 0x20 := by
      rintro rfl
      exact hname _ mem_cons_self (by decide)
    simp [hb]
  have hf : (name ++ (quotedArgs args ++ 0x29 :: rest)).length =
      name.length +
      (2 * args.length + ((quotedArgs args).length - 2 * args.length + rest.length) + 1) := by
    simp only [length_append, length_cons]
    omega
  rw [processArgList, tail_cons, hs, hf, ArgState.loop_plain hname,
    ArgState.loop_quotedArgs hargs, getLastD_eq_getLast?]
  have hsh : (name :: args).dropLast ≠ name :: args := fun h => by
    have := congrArg length h
    simp at this
  cases hl : args.getLast? with
  | none => simp [hne]
  | some last => cases last <;> simp [hsh]

theorem quoted_arguments_paren :
    processArgList (0x28 :: ([0x66] ++ quotedArgs [[], [0x29, 0x5c]] ++ 0x29 :: [])) =
      some ([[0x66], [], [0x29, 0x5c]], [0x29], true) :=
  (quoted_arguments_iff (by decide) (by simp [special]) (by decide) []).mpr (by decide)

/-- `$(f "")` -/
theorem quoted_argument_lost :
    processArgList (0x28 :: ([0x66] ++ quotedArgs [[]] ++ [0x29])) =
      some ([[0x66]], [0x29], true) := by
  decide

/-! ### The end of the text -/

section Tokens

variable {Fn Msg : Type*} {env : Env Fn Msg} {self next : Compiler Fn}

/-- A pass of the loop of `log_template_compiler_compile` -/
def Passes (env : Env Fn Msg) (self next : Compiler Fn) : Prop :=
  self.cursor ≠ [] ∧ self.processToken env = some (.done next)

end Tokens

end SyslogNg.Template
