import SyslogNg.SyslogFormat.Message

/-!
# Templates

`lib/template/templates.c`: the compiler that turns the text of a template into a list of elements,
and the formatter that expands these for the messages of a correlation context. The text has no NUL
in it; the cursor of the compiler is the rest of the text, `*cursor` is NUL at its end.
-/
namespace SyslogNg.Template

/-- What templates refer to: the table of macros, with the options, the time zone, the sequence
number and the context id of an expansion fixed, the values of messages, and the template functions
among the plugins. -/
structure Env (Fn Msg : Type*) where
  /-- `macro_hash`; 0 is `M_NONE`. -/
  macroHash : Bytes → ℕ
  /-- `log_macro_expand`, with `escape` -/
  macroExpand : ℕ → Bool → Msg → Bytes
  /-- `log_msg_get_value` -/
  getValue : Msg → Bytes → Bytes
  /-- `plugin_find` and `prepare`, which returns the state of the function or an error. -/
  plugin : Bytes → Option (List Bytes → Except Bytes Fn)
  /-- `eval` and `call` -/
  call : Fn → List Msg → Bytes
  /-- The configuration is older than version 5.0. -/
  oldEscaping : Bool := false

inductive ElemKind (Fn : Type*)
  /-- `LTE_MACRO` -/
  | macroRef (id : ℕ)
  /-- `LTE_VALUE` -/
  | value (name : Bytes)
  /-- `LTE_FUNC` -/
  | func (f : Fn)
  deriving DecidableEq

structure Elem (Fn : Type*) where
  text : Bytes
  kind : ElemKind Fn
  defaultValue : Option Bytes := none
  /-- A `guint16` -/
  msgRef : ℕ
  deriving DecidableEq

inductive CompileError
  | missingBrace (pos : ℕ)
  | unknownSubstitution (pos : ℕ)
  | functionReference (pos : ℕ)
  | unknownFunction (name : Bytes)
  | prepare (info : Bytes)
  deriving DecidableEq

def utf8 (s : String) : Bytes := s.toUTF8.toList

def fillCompileError (info : String) (pos : ℕ) : Bytes :=
  utf8 info ++ utf8 ", error_pos='" ++ decimalText pos ++ utf8 "'"

def CompileError.text : CompileError → Bytes
  | missingBrace pos => fillCompileError "Invalid macro, '\x7d' is missing" pos
  | unknownSubstitution pos => fillCompileError "Unknown substitution function" pos
  | functionReference pos =>
    fillCompileError
      "Invalid template function reference, missing function name or inbalanced '('" pos
  | unknownFunction name => utf8 "Unknown template function " ++ name
  | prepare info => info

/-- `LogTemplateCompiler`, with the compiled elements in the order of the list in C, last first. -/
structure Compiler (Fn : Type*) where
  template : Bytes
  cursor : Bytes
  text : Bytes := []
  /-- A `gint`, modulo `2 ^ 32` -/
  msgRef : ℕ := 0
  compiled : List (Elem Fn) := []
  deriving DecidableEq

inductive Outcome (Fn : Type*)
  | done (self : Compiler Fn)
  | failed (error : CompileError) (self : Compiler Fn)
  deriving DecidableEq

namespace Compiler

variable {Fn Msg : Type*} (env : Env Fn Msg) (self : Compiler Fn)

def pos (cursor : Bytes) : ℕ := self.template.length - cursor.length

/-- What `log_template_add_macro_elem`, `log_template_add_value_elem` and
`log_template_add_func_elem` prepend -/
def addKind (kind : ElemKind Fn) (defaultValue : Option Bytes) : Compiler Fn :=
  { self with
    compiled := ⟨self.text, kind, defaultValue, self.msgRef % 2 ^ 16⟩ :: self.compiled }

/-- `log_template_compiler_add_elem`; `log_macro_lookup` copies the name into 256 bytes. -/
def addElem (name : Bytes) (defaultValue : Option Bytes) : Compiler Fn :=
  let id := env.macroHash (name.take 255)
  self.addKind (if id = 0 then .value name else .macroRef id) defaultValue

/-- One digit of a message reference: `msg_ref += msg_ref * 10 + (*cursor - '0')` -/
def msgRefDigit (msgRef : ℕ) (b : UInt8) : ℕ := (msgRef + (msgRef * 10 + digit b)) % 2 ^ 32

def parseMsgRef : Compiler Fn :=
  match self.cursor with
  | 0x40 :: rest =>
    if (rest.takeWhile isDigit).isEmpty then
      -- `@@` is a literal `@`, which the cursor is left at; so it is in front of anything else
      { self with cursor := if rest.head? = some 0x40 then rest else self.cursor, msgRef := 0 }
    else
      { self with
        cursor := rest.dropWhile isDigit
        msgRef := ((rest.takeWhile isDigit).foldl msgRefDigit 0 + 1) % 2 ^ 32 }
  | _ => { self with msgRef := 0 }

/-- `log_template_compiler_process_braced_template`, with the cursor at the brace. What stands
between the braces is a name, and behind the first colon the default value. -/
def processBracedTemplate : Outcome Fn :=
  let start := self.cursor.tail
  let inside := start.takeWhile (· ≠ 0x7d)
  if inside.length = start.length then .failed (.missingBrace self.template.length) self
  else
    let name := inside.takeWhile (· ≠ 0x3a)
    let self := { self with cursor := start.drop (inside.length + 1) }
    match inside.drop name.length with
    | [] => .done (self.parseMsgRef.addElem env name none)
    | _ :: 0x2d :: defaultValue => .done (self.parseMsgRef.addElem env name (some defaultValue))
    | _ => .failed (.unknownSubstitution (self.pos (start.drop (name.length + 1)))) self

/-- What the loop of `log_template_compiler_process_arg_list` works with -/
structure ArgState where
  cursor : Bytes
  parens : ℕ := 1
  argBuf : Bytes := []
  result : List Bytes := []
  deriving DecidableEq

namespace ArgState

/-- `log_template_append_and_increment`; it is also called at the end of the text behind a
backslash, and the cursor then leaves the text. -/
def appendAndIncrement (s : ArgState) : Option ArgState :=
  match s.cursor with
  | [] => none
  | b :: rest => some { s with cursor := rest, argBuf := s.argBuf ++ [b] }

/-- `log_template_compiler_add_quoted_string`: the quotes are left out at the top level. -/
def addQuotedString (s : ArgState) (quote : UInt8) (rest : Bytes) : Option ArgState :=
  let inside := rest.takeWhile (· ≠ quote)
  if inside.length = rest.length then none
  else some
    { s with
      cursor := rest.drop (inside.length + 1)
      argBuf := s.argBuf ++ if s.parens = 1 then inside else quote :: inside ++ [quote] }

def endArg (s : ArgState) : ArgState :=
  { s with
    cursor := s.cursor.dropWhile fun b => b == 0x20 || b == 0x09
    argBuf := []
    result := s.result ++ [s.argBuf] }

/-- The end of `log_template_compiler_process_arg_list`: the arguments and whether the list was
closed -/
def finish (s : ArgState) : List Bytes × Bytes × Bool :=
  (if s.argBuf.isEmpty then s.result else s.result ++ [s.argBuf], s.cursor,
    s.cursor.head? == some 0x29)

/-- The loop of `log_template_compiler_process_arg_list`, which passes at least a byte each time. -/
def loop : ℕ → ArgState → Option (List Bytes × Bytes × Bool)
  | 0, s => some s.finish
  | fuel + 1, s =>
    match s.cursor with
    | [] => some s.finish
    | b :: rest =>
      if b = 0x5c then
        (appendAndIncrement { s with cursor := rest }).bind (loop fuel)
      else if b = 0x28 then
        loop fuel { s with cursor := rest, parens := s.parens + 1, argBuf := s.argBuf ++ [b] }
      else if b = 0x29 then
        if s.parens = 1 then some { s with parens := 0 }.finish
        else loop fuel { s with cursor := rest, parens := s.parens - 1, argBuf := s.argBuf ++ [b] }
      else if b = 0x22 ∨ b = 0x27 then
        match s.addQuotedString b rest with
        | some s => loop fuel s
        -- no closing quote: the arguments so far, and the list is not closed
        | none => some (s.result, s.cursor, false)
      else if s.parens = 1 ∧ (b = 0x20 ∨ b = 0x09) then loop fuel s.endArg
      else loop fuel { s with cursor := rest, argBuf := s.argBuf ++ [b] }

end ArgState

/-- `log_template_compiler_process_arg_list`, with the cursor at the parenthesis: the arguments, the
cursor behind them and whether the list was closed. Without a value the text was left. -/
def processArgList (cursor : Bytes) : Option (List Bytes × Bytes × Bool) :=
  let start := cursor.tail.dropWhile (· = 0x20)
  ArgState.loop start.length { cursor := start }

def addFuncElem (argv : List Bytes) : Outcome Fn :=
  match argv with
  | [] => .done self
  | name :: _ =>
    match env.plugin name with
    | none => .failed (.unknownFunction name) self
    | some prepare =>
      match prepare argv with
      | .error info => .failed (.prepare info) self
      | .ok f => .done (self.addKind (.func f) none)

def processTemplateFunction : Option (Outcome Fn) :=
  (processArgList self.cursor).map fun args =>
    if args.2.2 then
      { self with cursor := args.2.1.tail }.parseMsgRef.addFuncElem env args.1
    else .failed (.functionReference (self.pos args.2.1)) { self with cursor := args.2.1 }

def isMacroName (b : UInt8) : Bool :=
  (0x41 ≤ b && b ≤ 0x5a) || (0x61 ≤ b && b ≤ 0x7a) || b == 0x5f || (0x30 ≤ b && b ≤ 0x39)

/-- `log_template_compiler_process_unbraced_template`, which takes the first character unseen -/
def processUnbracedTemplate : Compiler Fn :=
  let name := self.cursor.take 1 ++ self.cursor.tail.takeWhile isMacroName
  { self with cursor := self.cursor.drop name.length }.addElem env name none

/-- The text in front of a reference belongs to its element. -/
def truncateText : Outcome Fn → Outcome Fn
  | .done self => .done { self with text := [] }
  | .failed error self => .failed error self

def processValue : Option (Outcome Fn) :=
  let self := { self with cursor := self.cursor.tail }
  match self.cursor with
  | [] => some (.done { self with text := self.text ++ [0x24] })
  | p :: rest =>
    if p = 0x7b then some (truncateText (self.processBracedTemplate env))
    else if p = 0x28 then (self.processTemplateFunction env).map truncateText
    else if isMacroName p then some (truncateText (.done (self.processUnbracedTemplate env)))
    else
      let dollar : Bytes := if p = 0x24 then [] else [0x24]
      some (.done { self with cursor := rest, text := self.text ++ dollar ++ [p] })

def processToken : Option (Outcome Fn) :=
  let self := { self with msgRef := 0 }
  if self.cursor.head? = some 0x24 then self.processValue env
  else
    let cursor :=
      if self.cursor.head? = some 0x5c ∧ env.oldEscaping then self.cursor.tail else self.cursor
    some (.done { self with cursor := cursor.tail, text := self.text ++ cursor.take 1 })

/-- The loop of `log_template_compiler_compile`; every token passes at least a byte. -/
def tokens : ℕ → Compiler Fn → Option (Outcome Fn)
  | 0, self => some (.done self)
  | fuel + 1, self =>
    if self.cursor.isEmpty then some (.done self)
    else
      match self.processToken env with
      | none => none
      | some (.failed error self) => some (.failed error self)
      | some (.done self) => tokens fuel self

end Compiler

section Compile

variable {Fn Msg : Type*} (env : Env Fn Msg)

/-- `log_template_compiler_compile` for the outcome of its loop: a template that does not compile
expands to a text that says so. -/
def compiledElems : Outcome Fn → List (Elem Fn) × Option CompileError
  | .done self =>
    let last := if self.text.isEmpty && !self.compiled.isEmpty then self
      else self.addKind (.macroRef 0) none
    (last.compiled.reverse, none)
  | .failed error self =>
    ({ self with
        text := utf8 "error in template: " ++ self.template
        compiled := [] }.addKind (.macroRef 0) none |>.compiled, some error)

def compile (template : Bytes) : Option (List (Elem Fn) × Option CompileError) :=
  (Compiler.tokens env template.length { template, cursor := template }).map compiledElems

end Compile

/-! ### Expansion -/

def resultAppend (escape : Bool) (value : Bytes) : Bytes :=
  if escape then
    value.flatMap fun b =>
      if b = 0x27 ∨ b = 0x22 ∨ b = 0x5c then [0x5c, b]
      -- `format_uint32_padded` knows no base 8 and appends nothing
      else if b < 0x20 then []
      else [b]
  else value

/-- What was appended to the result, and the calls of template functions with their messages -/
structure Expansion (Fn Msg : Type*) where
  text : Bytes := []
  calls : List (Fn × List Msg) := []

section Format

variable {Fn Msg : Type*} (env : Env Fn Msg) (escape : Bool) (messages : List Msg)

/-- `messages[msg_ndx]` for a reference that is not larger than the number of messages. -/
def referred (msgRef : ℕ) : Option Msg :=
  -- without a reference it is the last message
  let msgNdx : ℤ := messages.length - msgRef - if msgRef = 0 then 1 else 0
  if msgNdx < 0 then none else messages[msgNdx.toNat]?

/-- The text of a value, or of its default where it is empty for C. -/
def valueText (value : Bytes) (defaultValue : Option Bytes) : Bytes :=
  if value.head?.all (· = 0) then (defaultValue.map (resultAppend escape)).getD []
  else resultAppend escape value

/-- One element of the loop of `log_template_append_format_with_context` -/
def appendElem (out : Expansion Fn Msg) (e : Elem Fn) : Option (Expansion Fn Msg) :=
  let out := { out with text := out.text ++ e.text }
  if e.msgRef > messages.length then some out
  else
    match e.kind with
    | .value name =>
      (referred messages e.msgRef).map fun msg =>
        { out with text := out.text ++ valueText escape (env.getValue msg name) e.defaultValue }
    | .macroRef id =>
      if id = 0 then some out
      else
        (referred messages e.msgRef).map fun msg =>
          let expanded := env.macroExpand id escape msg
          { out with
            text := out.text ++ if expanded.isEmpty then e.defaultValue.getD [] else expanded }
    | .func f =>
      -- a function without a reference gets the whole context
      let args := if e.msgRef = 0 then some messages else (referred messages e.msgRef).map ([·])
      args.map fun args =>
        { text := out.text ++ env.call f args, calls := out.calls ++ [(f, args)] }

/-- `log_template_format_with_context`; without a value a message outside of the context is read. -/
def formatWithContext (elems : List (Elem Fn)) : Option (Expansion Fn Msg) :=
  elems.foldlM (appendElem env escape messages) {}

def expand (template : Bytes) : Option (Expansion Fn Msg) :=
  (compile env template).bind fun compiled => formatWithContext env escape messages compiled.1

end Format

end SyslogNg.Template
