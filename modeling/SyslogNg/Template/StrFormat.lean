import Mathlib.Data.Nat.Digits.Lemmas
import SyslogNg.Template.Escaping

/-!
# Padded numbers

`format_uint32_padded` and `format_uint64_padded` of `lib/str-format.c`. The digits come last one
first; for 32 bits the first of them is written whatever the value is, for 64 bits only while the
value is not zero. A `GString` has the room that is needed.
-/
namespace SyslogNg.Template

open List

variable {base room value : ℕ}

variable (result : Bytes) (fieldLen : ℤ) (padChar : UInt8)

end SyslogNg.Template
