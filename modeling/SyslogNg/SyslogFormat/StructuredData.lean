import SyslogNg.SyslogFormat.Header

/-!
# Structured data

`log_msg_parse_sd` of `modules/syslogformat/syslog-format.c` reads elements with parameters and
stores each parameter under one name, in which the id of the element and the name of the parameter
are joined by a dot. `log_msg_append_format_sdata` of `lib/logmsg.c` writes such values as elements
again; it splits a name at its last dot.
-/
namespace SyslogNg.SyslogFormat

/-! ### Parsing -/

/-- The bytes that can be in the id of an element or in the name of a parameter. -/
def isSdNameByte (b : UInt8) : Bool :=
  b < 0x80 && b != 0x3d && b != 0x20 && b != 0x5d && b != 0x22

/-- A name up to a stop or the end. It fails at a byte that cannot be in a name or that is one too
many. -/
def sdName (stop : UInt8 → Bool) : ℕ → Bytes → ℤ → Option (Bool × Bytes × Cursor)
  | _, [], left => if left = 0 then some (true, [], ⟨[], 0⟩) else none
  | place, b :: rest, left =>
    if left = 0 ∨ stop b then some (true, [], ⟨b :: rest, left⟩)
    else if place = 0 ∨ !isSdNameByte b then some (false, [], ⟨b :: rest, left⟩)
    else (sdName stop (place - 1) rest (left - 1)).map fun r => (r.1, b :: r.2.1, r.2.2)

/-- What is stored for a byte of a value when there is place for so many bytes: a backslash that was
no escape is stored, too. -/
def sdStored (place : ℕ) (quote : Bool) (b : UInt8) : Bytes :=
  (if quote && b != 0x22 && b != 0x5d && b != 0x5c then [0x5c, b] else [b]).take place

/-- A value up to its closing quote or the end. It fails at a bracket that is not escaped. -/
def sdValue : ℕ → Bool → Bytes → ℤ → Option (Bool × Bytes × Cursor)
  | _, _, [], left => if left = 0 then some (true, [], ⟨[], 0⟩) else none
  | place, quote, b :: rest, left =>
    if left = 0 ∨ (b = 0x22 ∧ !quote) then some (true, [], ⟨b :: rest, left⟩)
    else if b = 0x5c ∧ !quote then sdValue place true rest (left - 1)
    else if b = 0x5d ∧ !quote then some (false, [], ⟨b :: rest, left⟩)
    else
      let stored := sdStored place quote b
      (sdValue (place - stored.length) false rest (left - 1)).map
        fun r => (r.1, stored ++ r.2.1, r.2.2)

/-- The C string in `sd_value_name`, which has place for 66 bytes. -/
def sdValueName (host : Host) (name : Bytes) : Bytes :=
  let name := (sdPrefix ++ name).takeWhile (· != 0)
  if name.length < 66 then name else name.take 66 ++ host.overrun (name.take 66)

namespace Parse

/-- A value in quotes, from the opening one on. -/
def parseSdValue (s : Parse) (opts : ParseOptions) : Option (Option Bytes × Parse) := do
  if ← s.cursor.isAt 0x22 then
    let c := s.cursor.step 1
    let (ok, value, c) ← sdValue opts.sdataParamValueMax false c.rest c.left
    if !ok then some (none, s.moveTo c)
    else if ← c.isAt 0x22 then some (some value, s.moveTo (c.step 1))
    else some (none, s.moveTo c)
  else some (none, s)

/-- A parameter, from the blank before it on. Its first byte is looked at even if nothing is
left. -/
def parseSdParam (s : Parse) (host : Host) (opts : ParseOptions) (id : Bytes) :
    Option (Bool × Parse) := do
  if !(← s.cursor.isAt 0x20) then some (false, s)
  else
    let s := s.moveTo (s.cursor.step 1)
    if !isSdNameByte (← s.cursor.byte 0) then some (false, s)
    else
      let (ok, name, c) ← sdName (· == 0x3d) 32 s.cursor.rest s.cursor.left
      let s := s.moveTo c
      if !ok then some (false, s)
      else if !(← s.cursor.isAt 0x3d) then some (false, s)
      else
        match ← (s.moveTo (s.cursor.step 1)).parseSdValue opts with
        | (none, s) => some (false, s)
        | (some value, s) =>
          some (true, s.setValue (.named (sdValueName host (id ++ 0x2e :: name))) value)

/-- The parameters of an element, up to the closing bracket or the end. -/
def parseSdParams (host : Host) (opts : ParseOptions) (id : Bytes) :
    ℕ → Parse → Option (Bool × Parse)
  | 0, _ => none
  | fuel + 1, s => do
    if s.cursor.left = 0 then some (true, s)
    else if ← s.cursor.isAt 0x5d then some (true, s)
    else
      match ← s.parseSdParam host opts id with
      | (false, s) => some (false, s)
      | (true, s) => parseSdParams host opts id fuel s

/-- An element behind its opening bracket. Its first byte and the one behind the id are looked at
even if nothing is left. -/
def parseSdElement (s : Parse) (host : Host) (opts : ParseOptions) : Option (Bool × Parse) := do
  if !isSdNameByte (← s.cursor.byte 0) then some (false, s)
  else
    let (ok, id, c) ← sdName (fun b => b == 0x20 || b == 0x5d) 32 s.cursor.rest s.cursor.left
    let s := s.moveTo c
    if !ok || id = [] then some (false, s)
    else
      let s :=
        if (← s.cursor.byte 0) = 0x5d then s.setValue (.named (sdValueName host id)) [] else s
      let (ok, s) ← parseSdParams host opts id (s.cursor.rest.length + 1) s
      if !ok then some (false, s)
      else if ← s.cursor.isAt 0x5d then some (true, s.moveTo (s.cursor.step 1))
      else some (false, s)

/-- Elements, from behind the opening bracket of the first one on. -/
def parseSdElements (host : Host) (opts : ParseOptions) : ℕ → Parse → Option (Bool × Parse)
  | 0, _ => none
  | fuel + 1, s => do
    match ← s.parseSdElement host opts with
    | (false, s) => some (false, s)
    | (true, s) =>
      if ← s.cursor.isAt 0x5b then
        let s := s.moveTo (s.cursor.step 1)
        if s.cursor.left = 0 then some (true, s) else parseSdElements host opts fuel s
      else some (true, s)

def parseSd (s : Parse) (host : Host) (opts : ParseOptions) : Option (Bool × Parse) := do
  if ← s.cursor.isAt 0x2d then some (true, s.moveTo (s.cursor.step 1))
  else if ← s.cursor.isAt 0x5b then
    let s := s.moveTo (s.cursor.step 1)
    parseSdElements host opts (s.cursor.rest.length + 1) s
  else some (true, s)

end Parse

/-! ### Formatting -/

def hexDigit (n : ℕ) : UInt8 := UInt8.ofNat (if n < 10 then 0x30 + n else 0x37 + n)

def sdataKeyEscaped (key : Bytes) : Bytes :=
  key.flatMap fun b =>
    if isSdNameByte b && b != 0x5b then [b]
    else [0x25, hexDigit (b.toNat / 16), hexDigit (b.toNat % 16)]

def sdataEscaped (value : Bytes) : Bytes :=
  value.flatMap fun b => if b = 0x22 ∨ b = 0x5c ∨ b = 0x5d then [0x5c, b] else [b]

/-- The id and the name of the parameter in a name without its SDATA prefix. `handle_flags >> 8` is
0, or the place of the last dot if `upgrade_sd_entries` has set it for a message that was read from
a file, so that it is the last dot which counts. -/
def splitSdName (name : Bytes) : Bytes × Bytes :=
  if 0x2e ∈ name then
    let param := (name.reverse.takeWhile (· != 0x2e)).reverse
    (name.take (name.length - param.length - 1), param)
  else (if name = [] then [0x6e, 0x6f, 0x6e, 0x65] else name, [])

def metaPrefix : Bytes := [0x6d, 0x65, 0x74, 0x61, 0x2e]

def sequenceIdParam (seqNum : Bytes) : Bytes :=
  [0x73, 0x65, 0x71, 0x75, 0x65, 0x6e, 0x63, 0x65, 0x49, 0x64, 0x3d, 0x22] ++ seqNum ++ [0x22]

/-- The state of the loop of `log_msg_append_format_sdata`. -/
structure SdataFormat where
  result : Bytes := []
  curElem : Option Bytes := none
  hasSeqNum : Bool

/-- One value in the loop of `log_msg_append_format_sdata`. The digits of the sequence number are
empty if it is 0. -/
def SdataFormat.append (f : SdataFormat) (seqNum : Bytes) (name value : Bytes) : SdataFormat :=
  let (elem, param) := splitSdName name
  let opening :=
    if f.curElem = some elem then []
    else (if f.curElem.isSome then [0x5d] else []) ++ 0x5b :: sdataKeyEscaped elem
  let needsSeqNum := !f.hasSeqNum && seqNum != [] && metaPrefix.isPrefixOf name
  let sequence := if needsSeqNum then 0x20 :: sequenceIdParam seqNum else []
  let assigned :=
    if param = [] then []
    else 0x20 :: (sdataKeyEscaped param ++ 0x3d :: 0x22 :: (sdataEscaped value ++ [0x22]))
  { result := f.result ++ opening ++ sequence ++ assigned
    curElem := some elem
    hasSeqNum := f.hasSeqNum || needsSeqNum }

def ValueName.sdName : ValueName → Bytes
  | named name => name.drop sdPrefix.length
  | _ => []

def sequenceId : ValueName :=
  .named (sdPrefix ++ [0x6d, 0x65, 0x74, 0x61, 0x2e, 0x73, 0x65, 0x71, 0x75, 0x65, 0x6e, 0x63, 0x65,
    0x49, 0x64])

def LogMessage.formatSdata (m : LogMessage) (seqNum : Bytes) : Bytes :=
  let seqId := (m.getValue sequenceId).takeWhile (· != 0)
  let start : SdataFormat := { hasSeqNum := seqId != [] }
  let f := m.sdata.foldl (fun f name => f.append seqNum name.sdName (m.getValue name)) start
  f.result ++ (if f.curElem.isSome then [0x5d] else []) ++
    if !f.hasSeqNum && seqNum != [] then
      0x5b :: (metaPrefix.take 4 ++ 0x20 :: (sequenceIdParam seqNum ++ [0x5d]))
    else []

end SyslogNg.SyslogFormat
