import SyslogNg.SyslogFormat.Message

/-!
# Parser nodes of the pattern tree

The parsers of `modules/dbparser/radix.c`. Each of them is given a pointer into the message and
answers whether the text from there on begins with something of its kind, and how long that is. The
pointer is kept as the bytes from it on, the terminating NUL and what lies behind it included: most
parsers stop at the NUL, but `strchr` finds a NUL in every string.
-/
namespace SyslogNg.PatternDb

/-! ### Characters and strings -/

def xdigitValue (b : UInt8) : ℕ :=
  if isDigit b then b.toNat - 0x30 else if b ≤ 0x46 then b.toNat - 0x37 else b.toNat - 0x57

def charAt (str : Bytes) (i : ℕ) : UInt8 := str.getD i 0

/-- The first `len` from the given one on where `while (p(str[len])) len++` stops. -/
def scan (p : UInt8 → Bool) (str : Bytes) (len : ℕ) : ℕ :=
  len + ((str.drop len).takeWhile p).length

/-- `strchr(str, c)`, as an offset; the terminating NUL is part of the string. -/
def strchr (str : Bytes) (c : UInt8) : Option ℕ :=
  let text := str.takeWhile (· != 0)
  if c = 0 then some text.length else text.findIdx? (· == c)

/-- Is `strchr(param, c)` not `NULL`? -/
def inParam (param : Bytes) (c : UInt8) : Bool := (strchr param c).isSome

def strstr (needle : Bytes) : Bytes → Option ℕ
  | [] => if needle = [] then some 0 else none
  | b :: rest =>
    if needle.isPrefixOf (b :: rest) then some 0
    else if b = 0 then none
    else (strstr needle rest).map (· + 1)

/-- A computation of a `gint` that is let overflow -/
def gint (x : ℤ) : ℤ := Int.bmod x (2 ^ 32)

/-! ### Parser nodes -/

inductive RParserType
  | string | qstring | estring | ipv4 | number | anystring | ipv6 | ip | float | set | macaddr
  | pcre | email | hostname | lladdr
  deriving DecidableEq

/-- The functions that `parse` of a parser node points to -/
inductive RParserFunc
  | string | qstring | estringC | estring | pcre | anystring | set | email | hostname | lladdr
  | macaddr | ipv4 | ipv6 | ip | float | number
  deriving DecidableEq

/-- `RParserNode`. Of `state`, that of a quoted string is its closing quote, that of `ESTRING` the
length of the parameter, and that of `PCRE` is compiled from the parameter. -/
structure RParserNode where
  param : Option Bytes := none
  closingQuote : UInt8 := 0
  markLen : ℕ := 0
  first : UInt8 := 0
  last : UInt8 := 255
  type : RParserType
  handle : ℕ := 0
  parse : RParserFunc
  deriving DecidableEq

/-- What a parser that accepts says: the length of the text that it consumes, and what it stores in
the empty match, `ofs` and (negative) `len` relative to that text. -/
structure Extraction where
  len : ℕ
  matchOfs : ℕ := 0
  matchLen : ℤ := 0
  deriving DecidableEq

/-- What the parsers use of the rest of the program: the registry of value names, and the length of
what `pcre_exec` matches with an anchored expression at the beginning of a text. -/
structure ParserEnv where
  valueHandle : Bytes → ℕ
  pcreExec : Bytes → Bytes → Option ℕ

/-! ### The parsers -/

/-- A parser that consumed `len` bytes and accepts if these are not too few -/
def accept (isEnough : Bool) (len : ℕ) : Option Extraction :=
  if isEnough then some { len := len } else none

def parserString (param : Option Bytes) (str : Bytes) : Option Extraction :=
  let len := scan (fun b => b != 0 && (isAlnum b || param.any fun p => inParam p b)) str 0
  accept (0 < len) len

def parserQstring (closingQuote : UInt8) (str : Bytes) : Option Extraction :=
  (strchr (str.drop 1) closingQuote).map fun i =>
    { len := i + 1 + 1, matchOfs := 1, matchLen := -2 }

def parserEstringC (param : Option Bytes) (str : Bytes) : Option Extraction := do
  let param ← param
  let i ← strchr str (charAt param 0)
  return { len := i + 1, matchLen := -1 }

def parserEstring (param : Option Bytes) (markLen : ℕ) (str : Bytes) : Option Extraction := do
  let param ← param
  let i ← strstr param str
  return { len := i + markLen, matchLen := -markLen }

def parserAnystring (str : Bytes) : Option Extraction :=
  some { len := scan (· != 0) str 0 }

def parserSet (param : Option Bytes) (str : Bytes) : Option Extraction := do
  let param ← param
  let len := scan (inParam param) str 0
  accept (0 < len) len

def emailChars : Bytes :=
  [0x21, 0x23, 0x24, 0x25, 0x26, 0x27, 0x2a, 0x2b, 0x2d, 0x2f, 0x3d, 0x3f, 0x5e, 0x5f, 0x60, 0x7b,
    0x7c, 0x7d, 0x7e, 0x2e]

/-- The loop of `r_parser_email` and `r_parser_hostname` over the labels of a host name: the length
and the number of labels. A label is followed by at most one dot. -/
def hostLabels : Bool → Bytes → ℕ × ℕ
  | _, [] => (0, 0)
  | inLabel, b :: rest =>
    if isAlnum b || b == 0x2d then
      let labels := hostLabels true rest
      (labels.1 + 1, if inLabel then labels.2 else labels.2 + 1)
    else if inLabel && b == 0x2e then
      let labels := hostLabels false rest
      (labels.1 + 1, labels.2)
    else (0, 0)

/-- `r_parser_email`. If nothing stands before the `@`, then `str[*len-1]` is the character before
`str`, which is `prev`. -/
def parserEmail (param : Option Bytes) (prev : UInt8) (str : Bytes) : Option Extraction :=
  let skip (len : ℕ) : ℕ := match param with
    | some param => scan (inParam param) str len
    | none => len
  let ofs := skip 0
  if charAt str ofs = 0x2e then none
  else
    let len := scan (fun b => isAlnum b || inParam emailChars b) str ofs
    if (if len = 0 then prev else charAt str (len - 1)) = 0x2e then none
    else if charAt str len ≠ 0x40 then none
    else
      let labels := hostLabels false (str.drop (len + 1))
      if labels.2 < 2 then none
      else
        let stop := len + 1 + labels.1
        let len := skip stop
        some { len := len, matchOfs := ofs, matchLen := stop - len - (ofs % 65536 : ℕ) }

def parserHostname (str : Bytes) : Option Extraction :=
  let labels := hostLabels false str
  accept (2 ≤ labels.2) labels.1

/-- The loop of `_r_parser_lladdr` over the parts that are left -/
def lladdrParts (str : Bytes) : (isFirst : Bool) → (parts : ℕ) → (len : ℕ) → Option ℕ
  | _, 0, len => some len
  | isFirst, parts + 1, len =>
    if !isXdigit (charAt str len) || !isXdigit (charAt str (len + 1)) then
      if isFirst then none else some (len - 1)
    else if parts = 0 then some (len + 2)
    else if charAt str (len + 2) ≠ 0x3a then some (len + 2)
    else lladdrParts str false parts (len + 3)

def parserLladdrParts (count parts : ℤ) (str : Bytes) : Option Extraction := do
  let len ← lladdrParts str true parts.toNat 0
  if (len : ℤ) > count then none else some { len := len }

def parserLladdr (param : Option Bytes) (str : Bytes) : Option Extraction :=
  let parts := match param with
    | some param =>
      (param.takeWhile isDigit).foldl (fun parts b => gint (parts * 10 + xdigitValue b)) 0
    | none => 20
  parserLladdrParts (gint (parts * 3 - 1)) parts str

def parserMacaddr (str : Bytes) : Option Extraction := parserLladdrParts 17 6 str

/-- The loop of `r_parser_ipv4`: the length with the last values of `dots` and `octet` -/
def ipv4Loop (dots : ℕ) (octet : ℤ) : Bytes → Option (ℕ × ℕ × ℤ)
  | [] => some (0, dots, octet)
  | b :: rest =>
    if b = 0x2e then
      if octet > 255 ∨ octet = -1 then none
      else if dots = 3 then some (0, dots, octet)
      else (ipv4Loop (dots + 1) (-1) rest).map fun r => (r.1 + 1, r.2)
    else if isDigit b then
      let octet := gint ((if octet = -1 then 0 else octet * 10) + xdigitValue b)
      (ipv4Loop dots octet rest).map fun r => (r.1 + 1, r.2)
    else some (0, dots, octet)

def parserIpv4 (str : Bytes) : Option Extraction := do
  let (len, dots, octet) ← ipv4Loop 0 (-1) str
  if dots ≠ 3 ∨ octet > 255 ∨ octet = -1 then none else some { len := len }

structure Ipv6State where
  colons : ℤ := 0
  dots : ℤ := 0
  octet : ℤ := 0
  digit : ℤ := 16
  shortened : Bool := false

def ipv6Loop (s : Ipv6State) : Bytes → Option (ℕ × Ipv6State)
  | [] => some (0, s)
  | b :: rest =>
    if b = 0x3a then
      if s.octet > 0xffff ∨ (s.octet = -1 ∧ s.shortened = true) ∨ s.digit = 10 then none
      else
        let s := { s with shortened := s.shortened || s.octet == -1 }
        if s.colons = 7 then some (0, s)
        else (ipv6Loop { s with colons := s.colons + 1, octet := -1 } rest).map fun r =>
          (r.1 + 1, r.2)
    else if isXdigit b then
      let octet := gint ((if s.octet = -1 then 0 else s.octet * s.digit) + xdigitValue b)
      (ipv6Loop { s with octet := octet } rest).map fun r => (r.1 + 1, r.2)
    else if b = 0x2e then
      if s.digit = 10 ∧ s.octet > 255 then none
      else if (s.digit = 16 ∧ s.octet > 597) ∨ s.octet = -1 ∨ s.colons = 7 ∨ s.dots = 3 then
        some (0, s)
      else (ipv6Loop { s with dots := s.dots + 1, octet := -1, digit := 10 } rest).map fun r =>
        (r.1 + 1, r.2)
    else some (0, s)

/-- `r_parser_ipv6`. The character before `str`, which is looked at if the loop did not move, has no
say: there are no colons then. -/
def parserIpv6 (str : Bytes) : Option Extraction := do
  let (len, s) ← ipv6Loop {} str
  let (len, s) :=
    if 0 < len ∧ charAt str (len - 1) = 0x2e then (len - 1, { s with dots := s.dots - 1 })
    else if 0 < len ∧ charAt str (len - 1) = 0x3a ∧ ¬ (1 < len ∧ charAt str (len - 2) = 0x3a) then
      (len - 1, { s with colons := s.colons - 1 })
    else (len, s)
  if s.colons < 2 ∨ s.colons > 7 ∨ (s.digit = 10 ∧ s.octet > 255) ∨
      (s.digit = 16 ∧ s.octet > 0xffff) ∨ ¬ (s.dots = 0 ∨ s.dots = 3) ∨
      (s.shortened = false ∧ s.colons < 7 ∧ s.dots = 0) then none
  else some { len := len }

def parserIp (str : Bytes) : Option Extraction := (parserIpv4 str).or (parserIpv6 str)

/-- The digits of `r_parser_float`, with one dot among them -/
def floatDigits : Bool → Bytes → ℕ
  | _, [] => 0
  | dot, b :: rest =>
    if isDigit b then floatDigits dot rest + 1
    else if !dot && b == 0x2e then floatDigits true rest + 1
    else 0

def parserFloat (str : Bytes) : Option Extraction :=
  let len := if charAt str 0 = 0x2d then 1 else 0
  let len := len + floatDigits false (str.drop len)
  if 0 < len ∧ (charAt str len = 0x65 ∨ charAt str len = 0x45) then
    let len := if charAt str (len + 1) = 0x2d then len + 2 else len + 1
    some { len := scan isDigit str len }
  else accept (0 < len) len

def parserNumber (str : Bytes) : Option Extraction :=
  if [0x30, 0x78].isPrefixOf str || [0x30, 0x58].isPrefixOf str then
    let len := scan isXdigit str 2
    accept (3 ≤ len) len
  else
    let sign := if charAt str 0 = 0x2d then 1 else 0
    let len := scan isDigit str sign
    accept (sign + 1 ≤ len) len

namespace RParserNode

/-- `parser_node->parse(...)`; `prev` is the character before `str`. -/
def callParse (env : ParserEnv) (node : RParserNode) (prev : UInt8) (str : Bytes) :
    Option Extraction :=
  match node.parse with
  | .string => parserString node.param str
  | .qstring => parserQstring node.closingQuote str
  | .estringC => parserEstringC node.param str
  | .estring => parserEstring node.param node.markLen str
  | .pcre => (env.pcreExec (node.param.getD []) str).map fun len => { len := len }
  | .anystring => parserAnystring str
  | .set => parserSet node.param str
  | .email => parserEmail node.param prev str
  | .hostname => parserHostname str
  | .lladdr => parserLladdr node.param str
  | .macaddr => parserMacaddr str
  | .ipv4 => parserIpv4 str
  | .ipv6 => parserIpv6 str
  | .ip => parserIp str
  | .float => parserFloat str
  | .number => parserNumber str

def tryParse (env : ParserEnv) (node : RParserNode) (prev : UInt8) (str : Bytes) :
    Option Extraction :=
  if node.first ≤ charAt str 0 ∧ charAt str 0 ≤ node.last then node.callParse env prev str
  else none

def equal (a b : RParserNode) : Bool :=
  a.parse == b.parse && a.handle == b.handle && a.param == b.param

end RParserNode

/-! ### Making parser nodes -/

def ascii (text : String) : Bytes := text.toList.map fun c => UInt8.ofNat c.toNat

/-- `g_strsplit(key, ":", n)` of a text that is not empty -/
def splitColons : ℕ → Bytes → List Bytes
  | 0, _ => []
  | 1, text => [text]
  | n + 2, text =>
    match text.findIdx? (· == 0x3a) with
    | some i => text.take i :: splitColons (n + 1) (text.drop (i + 1))
    | none => [text]

/-- The part of `r_new_pnode` that looks at the type: the node without its handle and parameter.
`arg` is the third part. -/
def pnodeOfType (name : Bytes) (arg : Option Bytes) : Option RParserNode :=
  if name = ascii "IPv4" then some { parse := .ipv4, type := .ipv4, first := 0x30, last := 0x39 }
  else if name = ascii "IPv6" then some { parse := .ipv6, type := .ipv6 }
  else if name = ascii "IPvANY" then some { parse := .ip, type := .ip }
  else if name = ascii "MACADDR" then some { parse := .macaddr, type := .macaddr }
  else if name = ascii "NUMBER" then
    some { parse := .number, type := .number, first := 0x2d, last := 0x39 }
  else if name = ascii "FLOAT" ∨ name = ascii "DOUBLE" then
    some { parse := .float, type := .float, first := 0x2d, last := 0x39 }
  else if name = ascii "STRING" then some { parse := .string, type := .string }
  else if name = ascii "ESTRING" then
    arg.map fun arg =>
      if 1 < arg.length then { parse := .estring, type := .estring, markLen := arg.length }
      else { parse := .estringC, type := .estring }
  else if name = ascii "PCRE" then arg.map fun _ => { parse := .pcre, type := .pcre }
  else if name = ascii "ANYSTRING" then some { parse := .anystring, type := .anystring }
  else if name = ascii "SET" then arg.map fun _ => { parse := .set, type := .set }
  else if name = ascii "EMAIL" then some { parse := .email, type := .email }
  else if name = ascii "HOSTNAME" then some { parse := .hostname, type := .hostname }
  else if name = ascii "LLADDR" then some { parse := .lladdr, type := .lladdr }
  else if (ascii "QSTRING").isPrefixOf name then
    arg.map fun arg =>
      { parse := .qstring
        type := .qstring
        first := charAt arg 0
        last := charAt arg 0
        closingQuote := if arg.length = 2 then charAt arg 1 else charAt arg 0 }
  else none

def newPnode (env : ParserEnv) (key : Bytes) : Option RParserNode :=
  let params := splitColons 3 key
  (pnodeOfType (params.headD []) params[2]?).map fun node =>
    match params[1]? with
    | none => node
    | some name =>
      { node with
        handle := if name = [] then 0 else env.valueHandle name
        param := params[2]? }

end SyslogNg.PatternDb
