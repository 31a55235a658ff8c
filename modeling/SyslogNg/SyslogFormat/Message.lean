import SyslogNg.Foundations.Bytes
import SyslogNg.Time.TimeCache

/-!
# Messages and cursors of the syslog parser

What `modules/syslogformat/syslog-format.c` works on: the message that it fills, the options that
it is given, and the cursor that its functions hand on, a pointer with the number of bytes that are
left. The pointer is kept as the bytes that can be read from it on; these go on behind the end of
the message. A read behind them fails, which is `none` in all functions of the parser.
-/
namespace SyslogNg.SyslogFormat

open TimeUtils

/-! ### Messages -/

structure LogStamp where
  sec : ℤ := 0
  usec : ℕ := 0
  zoneOffset : ℤ := 0
  deriving DecidableEq

/-- The values that the parser sets: those with a handle of their own and the ones with a name. -/
inductive ValueName
  | host
  | message
  | program
  | pid
  | msgid
  | legacyMsghdr
  | named (name : Bytes)
  deriving DecidableEq

def sdPrefix : Bytes := [0x2e, 0x53, 0x44, 0x41, 0x54, 0x41, 0x2e]

/-- The handles that `log_msg_get_value_handle` marks with `LM_VF_SDATA`. -/
def ValueName.isSdata : ValueName → Bool
  | named name => sdPrefix.isPrefixOf name
  | _ => false

structure LogMessage where
  /-- `LF_LEGACY_MSGHDR` -/
  legacyMsghdr : Bool := false
  /-- `timestamps[LM_TS_STAMP]` -/
  stamp : LogStamp := { sec := -1, zoneOffset := -1 }
  /-- `timestamps[LM_TS_RECVD]` -/
  recvd : LogStamp := {}
  /-- A map in place of the `NVTable` of the message, so that a value always fits -/
  values : ValueName → Option Bytes := fun _ => none
  sdata : List ValueName := []

namespace LogMessage

variable (m : LogMessage)

def getValue (name : ValueName) : Bytes := (m.values name).getD []

/-- `log_msg_set_value` during the initial parse: a new value with the SDATA prefix is appended to
the SDATA array, which has place for 255. -/
def setValue (name : ValueName) (value : Bytes) : LogMessage :=
  { m with
    values := Function.update m.values name (some value)
    sdata :=
      if (m.values name).isNone ∧ name.isSdata ∧ m.sdata.length ≠ 255 then m.sdata ++ [name]
      else m.sdata
    legacyMsghdr := m.legacyMsghdr && name != .program && name != .pid }

end LogMessage

/-! ### Options -/

/-- `MsgFormatOptions`: the flags `LP_*`, and what else the parser reads. -/
structure ParseOptions where
  checkHostname : Bool := false
  syslogProtocol : Bool := false
  noParseDate : Bool := false
  sdataParamValueMax : ℕ := 65535

/-- What the parser depends on besides: the zone of the host and the current time. -/
structure Host where
  zone : Zone
  now : ℤ
  /-- What is read on the stack behind an array without NUL at its end, up to the next NUL. -/
  overrun : Bytes → Bytes := fun _ => []

/-- `g_ascii_isspace`, which leaves out the vertical tab -/
def isSpace (b : UInt8) : Bool := b == 0x20 || b == 0x09 || b == 0x0a || b == 0x0c || b == 0x0d

/-! ### Cursors -/

structure Cursor where
  rest : Bytes
  left : ℤ
  deriving DecidableEq

namespace Cursor

variable (c : Cursor)

def byte (i : ℕ) : Option UInt8 := c.rest[i]?

def step (n : ℕ) : Cursor := ⟨c.rest.drop n, c.left - n⟩

/-- `p₁(src[i₁]) && p₂(src[i₂]) && …` -/
def tests : List (ℕ × (UInt8 → Bool)) → Option Bool
  | [] => some true
  | (i, p) :: more => do
    let b ← c.byte i
    if p b then tests more else some false

end Cursor

end SyslogNg.SyslogFormat
