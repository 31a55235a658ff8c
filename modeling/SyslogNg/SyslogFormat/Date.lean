import SyslogNg.SyslogFormat.Message

/-!
# The timestamp of a message

`log_msg_parse_date` of `modules/syslogformat/syslog-format.c` with the scanners of
`lib/str-format.c`. A timestamp is an ISO one with a zone, or one of the formats without it. The
fields are converted by `mktime` as if they were local time, and the result is corrected by what
`mktime` changed in the hour, the local offset and the zone of the timestamp.
-/
namespace SyslogNg.SyslogFormat

open TimeUtils

/-! ### Scanners -/

/-- What the scanners of a timestamp expect. -/
inductive Field
  | number (width : ℕ)
  | char (b : UInt8)
  | month

/-- `scan_uint32`: digits, in which blanks count as nothing. -/
def scanUint32 : ℕ → Bytes → ℤ → ℕ → Option (Option (ℕ × Cursor))
  | 0, rest, left, n => some (some (n, ⟨rest, left⟩))
  | width + 1, rest, left, n =>
    if left ≤ 0 then some none
    else
      match rest with
      | [] => none
      | b :: rest =>
        if isDigit b then scanUint32 width rest (left - 1) (10 * n + digit b)
        else if isSpace b then scanUint32 width rest (left - 1) n
        else some none

def scanExpectChar (value : UInt8) (c : Cursor) : Option (Option Cursor) :=
  if c.left = 0 then some none
  else do
    let b ← c.byte 0
    some (if b = value then some (c.step 1) else none)

def monthNames : List Bytes :=
  [[0x4a, 0x61, 0x6e], [0x46, 0x65, 0x62], [0x4d, 0x61, 0x72], [0x41, 0x70, 0x72],
    [0x4d, 0x61, 0x79], [0x4a, 0x75, 0x6e], [0x4a, 0x75, 0x6c], [0x41, 0x75, 0x67],
    [0x53, 0x65, 0x70], [0x4f, 0x63, 0x74], [0x4e, 0x6f, 0x76], [0x44, 0x65, 0x63]]

def toLower (b : UInt8) : UInt8 := if 0x41 ≤ b ∧ b ≤ 0x5a then b + 0x20 else b

/-- `scan_month_abbrev`: the first letter has to be that of a month; if the other ones are not, the
month is -1. -/
def scanMonthAbbrev (c : Cursor) : Option (Option (ℤ × Cursor)) :=
  if c.left < 3 then some none
  else do
    let b ← c.byte 0
    let name := (c.rest.take 3).map toLower
    if monthNames.any fun month => month.head? = some b then
      let mon : ℤ :=
        match monthNames.findIdx? fun month => month.map toLower = name with
        | some i => i
        | none => -1
      some (some (mon, c.step 3))
    else some none

def scanField (c : Cursor) : Field → Option (Option (List ℤ × Cursor))
  | .number width =>
      (scanUint32 width c.rest c.left 0).map fun r => r.map fun r => ([(r.1 : ℤ)], r.2)
  | .char b => (scanExpectChar b c).map fun r => r.map fun c => ([], c)
  | .month => (scanMonthAbbrev c).map fun r => r.map fun r => ([r.1], r.2)

/-- One field after the other, and the numbers that they have. -/
def scanFields : List Field → Cursor → Option (Option (List ℤ × Cursor))
  | [], c => some (some ([], c))
  | field :: fields, c => do
    match ← scanField c field with
    | none => some none
    | some scanned =>
      match ← scanFields fields scanned.2 with
      | none => some none
      | some more => some (some (scanned.1 ++ more.1, more.2))

def clockFields : List Field := [.number 2, .char 0x3a, .number 2, .char 0x3a, .number 2]

def scanIsoTimestamp (tm : Tm) (c : Cursor) : Option (Option (Tm × Cursor)) := do
  let fields := [.number 4, .char 0x2d, .number 2, .char 0x2d, .number 2, .char 0x54] ++ clockFields
  match ← scanFields fields c with
  | some ([year, mon, mday, hour, min, sec], c) =>
    some (some ({ tm with year := year - 1900, mon := mon - 1, mday, hour, min, sec }, c))
  | _ => some none

def scanPixTimestamp (tm : Tm) (c : Cursor) : Option (Option (Tm × Cursor)) := do
  let fields := [.month, .char 0x20, .number 2, .char 0x20, .number 4, .char 0x20] ++ clockFields
  match ← scanFields fields c with
  | some ([mon, mday, year, hour, min, sec], c) =>
    some (some ({ tm with year := year - 1900, mon, mday, hour, min, sec }, c))
  | _ => some none

def scanLinksysTimestamp (tm : Tm) (c : Cursor) : Option (Option (Tm × Cursor)) := do
  let fields :=
    [.month, .char 0x20, .number 2, .char 0x20] ++ clockFields ++ [.char 0x20, .number 4]
  match ← scanFields fields c with
  | some ([mon, mday, hour, min, sec, year], c) =>
    some (some ({ tm with year := year - 1900, mon, mday, hour, min, sec }, c))
  | _ => some none

def scanBsdTimestamp (tm : Tm) (c : Cursor) : Option (Option (Tm × Cursor)) := do
  let fields := [.month, .char 0x20, .number 2, .char 0x20] ++ clockFields
  match ← scanFields fields c with
  | some ([mon, mday, hour, min, sec], c) => some (some ({ tm with mon, mday, hour, min, sec }, c))
  | _ => some none

/-! ### Fractions and zones -/

/-- Digits of the fraction, as long as some are left and at most as many as fit. -/
def fracDigits : ℕ → Bytes → ℤ → Option (Bytes × Cursor)
  | 0, rest, left => some ([], ⟨rest, left⟩)
  | count + 1, rest, left =>
    if left ≤ 0 then some ([], ⟨rest, left⟩)
    else
      match rest with
      | [] => none
      | b :: rest =>
        if isDigit b then (fracDigits count rest (left - 1)).map fun r => (b :: r.1, r.2)
        else some ([], ⟨b :: rest, left⟩)

/-- The other digits are skipped, without a look at how many bytes are left. -/
def skipDigits : Bytes → ℤ → Option Cursor
  | [], _ => none
  | b :: rest, left => if isDigit b then skipDigits rest (left - 1) else some ⟨b :: rest, left⟩

def parseUsec (c : Cursor) : Option (ℕ × Cursor) :=
  if c.left ≤ 0 then some (0, c)
  else do
    let b ← c.byte 0
    if b = 0x2e then
      let frac ← fracDigits 6 (c.step 1).rest (c.step 1).left
      let c ← skipDigits frac.2.rest frac.2.left
      some (decimal frac.1 * (1000000 / 10 ^ frac.1.length), c)
    else some (0, c)

def hasIsoTimezone (c : Cursor) : Option Bool :=
  if c.left < 5 then some false
  else
    c.tests [(0, fun b => b == 0x2b || b == 0x2d), (1, isDigit), (2, isDigit), (3, (· == 0x3a)),
      (4, isDigit), (5, isDigit), (6, fun b => !isDigit b)]

def parseIsoTimezone (c : Cursor) : Option (ℤ × Cursor) := do
  let sign : ℤ := if (← c.byte 0) = 0x2d then -1 else 1
  let hours := digit (← c.byte 1) * 10 + digit (← c.byte 2)
  let mins := digit (← c.byte 4) * 10 + digit (← c.byte 5)
  some (sign * (hours * 3600 + mins * 60), c.step 6)

def tzKnown : ValueName :=
  .named (sdPrefix ++ [0x74, 0x69, 0x6d, 0x65, 0x51, 0x75, 0x61, 0x6c, 0x69, 0x74, 0x79, 0x2e,
    0x74, 0x7a, 0x4b, 0x6e, 0x6f, 0x77, 0x6e])

def isSynced : ValueName :=
  .named (sdPrefix ++ [0x74, 0x69, 0x6d, 0x65, 0x51, 0x75, 0x61, 0x6c, 0x69, 0x74, 0x79, 0x2e,
    0x69, 0x73, 0x53, 0x79, 0x6e, 0x63, 0x65, 0x64])

structure Parse where
  cursor : Cursor
  msg : LogMessage
  time : TimeState

namespace Parse

/-- A quality of the time is stored as `0` or `1`, if dates are parsed. -/
def setQuality (s : Parse) (opts : ParseOptions) (name : ValueName) (found : Bool) : Parse :=
  if opts.noParseDate then s
  else { s with msg := s.msg.setValue name [if found then 0x31 else 0x30] }

def setZoneOffset (s : Parse) (zoneOffset : ℤ) (c : Cursor) : Parse :=
  { s with cursor := c, msg := { s.msg with stamp := { s.msg.stamp with zoneOffset } } }

def startsWithZ (c : Cursor) : Option Bool :=
  if c.left > 0 then (c.byte 0).map (· == 0x5a) else some false

def parseDateTz (s : Parse) (opts : ParseOptions) : Option Parse := do
  if ← startsWithZ s.cursor then
    some ((s.setZoneOffset 0 (s.cursor.step 1)).setQuality opts tzKnown true)
  else if ← hasIsoTimezone s.cursor then
    let tz ← parseIsoTimezone s.cursor
    some ((s.setZoneOffset tz.1 tz.2).setQuality opts tzKnown true)
  else some (s.setQuality opts tzKnown false)

def setUsec (s : Parse) (usec : ℕ) : Parse :=
  { s with msg := { s.msg with stamp := { s.msg.stamp with usec } } }

def isIsoStamp (c : Cursor) : Option Bool :=
  if c.left < 19 then some false
  else
    c.tests [(4, (· == 0x2d)), (7, (· == 0x2d)), (10, (· == 0x54)), (13, (· == 0x3a)),
      (16, (· == 0x3a))]

def parseIsoStamp (s : Parse) (host : Host) (opts : ParseOptions) : Option (Option Tm × Parse) := do
  let now := cachedLocaltime host.zone s.time host.now
  let s := { s.setUsec 0 with time := now.2 }
  match ← scanIsoTimestamp now.1 s.cursor with
  | none => some (none, s)
  | some (tm, c) =>
    let usec ← parseUsec c
    let s ← ({ s.setUsec usec.1 with cursor := usec.2 }).parseDateTz opts
    some (some tm, s)

def leftAtLeast (left : ℤ) (n : ℕ) : Bool := left < 0 || n ≤ left

def isBsdPixOrAsa (c : Cursor) : Option Bool :=
  if !leftAtLeast c.left 21 then some false
  else
    c.tests [(3, (· == 0x20)), (6, (· == 0x20)), (11, (· == 0x20)), (14, (· == 0x3a)),
      (17, (· == 0x3a)), (20, fun b => b == 0x3a || b == 0x20), (7, isDigit), (8, isDigit),
      (9, isDigit), (10, isDigit)]

def isBsdLinksys (c : Cursor) : Option Bool :=
  if !leftAtLeast c.left 21 then some false
  else
    c.tests [(3, (· == 0x20)), (6, (· == 0x20)), (9, (· == 0x3a)), (12, (· == 0x3a)),
      (15, (· == 0x20)), (16, isDigit), (17, isDigit), (18, isDigit), (19, isDigit), (20, isSpace)]

def isBsdRfc3164 (c : Cursor) : Option Bool :=
  if !leftAtLeast c.left 15 then some false
  else c.tests [(3, (· == 0x20)), (6, (· == 0x20)), (9, (· == 0x3a)), (12, (· == 0x3a))]

def determineYearForMonth (month : ℤ) (now : Tm) : ℤ :=
  if month = 11 ∧ now.mon = 0 then now.year - 1
  else if month = 0 ∧ now.mon = 11 then now.year + 1
  else now.year

/-- `__parse_bsd_timestamp` with the fraction; the cursor stays where it is if there is none. -/
def parseBsdTimestamp (s : Parse) (host : Host) : Option (Option (Tm × ℕ) × Parse) := do
  let now := cachedLocaltime host.zone s.time host.now
  if ← isBsdPixOrAsa s.cursor then
    let s := { s with time := now.2 }
    match ← scanPixTimestamp now.1 s.cursor with
    | none => some (none, s)
    | some (tm, c) =>
      let b ← c.byte 0
      some (some (tm, 0), { s with cursor := if b = 0x3a then c.step 1 else c })
  else if ← isBsdLinksys s.cursor then
    let s := { s with time := now.2 }
    match ← scanLinksysTimestamp now.1 s.cursor with
    | none => some (none, s)
    | some (tm, c) => some (some (tm, 0), { s with cursor := c })
  else if ← isBsdRfc3164 s.cursor then
    let s := { s with time := now.2 }
    match ← scanBsdTimestamp now.1 s.cursor with
    | none => some (none, s)
    | some (tm, c) =>
      let usec ← parseUsec c
      let tm := { tm with year := determineYearForMonth tm.mon now.1 }
      some (some (tm, usec.1), { s with cursor := usec.2 })
  else some (none, s)

/-! ### Dates -/

def parseDateIsSynced (s : Parse) (opts : ParseOptions) : Option Parse := do
  let b ← s.cursor.byte 0
  let s' := if b = 0x2a ∨ b = 0x2e then { s with cursor := s.cursor.step 1 } else s
  some (s'.setQuality opts isSynced (b == 0x2e))

/-- `log_msg_parse_date_unnormalized`: the cursor is moved only if there is a date. -/
def parseDateUnnormalized (s : Parse) (host : Host) (opts : ParseOptions) :
    Option (Option Tm × Parse) := do
  let start := s.cursor
  let s ← s.parseDateIsSynced opts
  let failed (s : Parse) : Parse :=
    { s with cursor := start, msg := { s.msg with stamp := s.msg.recvd } }
  if ← isIsoStamp s.cursor then
    match ← s.parseIsoStamp host opts with
    | (some tm, s) => some (some tm, s)
    | (none, s) => some (none, failed s)
  else if !opts.syslogProtocol then
    match ← s.parseBsdTimestamp host with
    | (some (tm, usec), s) => some (some tm, s.setUsec usec)
    | (none, s) => some (none, failed s)
  else some (none, { s with cursor := start })

end Parse

def calculateUnnormalizedHour (unnormalized tm : Tm) : ℤ :=
  if unnormalized.hour ≠ tm.hour ∧ unnormalized.mday ≠ tm.mday then
    let diffDay := unnormalized.mday - tm.mday
    let diffDay := if diffDay > 1 then -1 else if diffDay < -1 then 1 else diffDay
    unnormalized.hour + 24 * diffDay
  else unnormalized.hour

def calculateCorrectTime (zone : Zone) (time : TimeState) (stamp : LogStamp)
    (normalizedHour unnormalizedHour assumeTimezone : ℤ) : LogStamp × TimeState :=
  let ofs := getLocalTimezoneOfs zone time stamp.sec
  let zoneOffset := if stamp.zoneOffset = -1 then assumeTimezone else stamp.zoneOffset
  let zoneOffset := if zoneOffset = -1 then ofs.1 else zoneOffset
  ({ stamp with
      sec := stamp.sec + ofs.1 - (normalizedHour - unnormalizedHour) * 3600 - zoneOffset
      zoneOffset },
    ofs.2)

def normalizeTime (zone : Zone) (time : TimeState) (stamp : LogStamp) (tm : Tm)
    (assumeTimezone : ℤ) : LogStamp × TimeState :=
  let tm := { tm with isdst := -1 }
  let made := cachedMktime zone time tm
  calculateCorrectTime zone made.2.2 { stamp with sec := made.1 } made.2.1.hour
    (calculateUnnormalizedHour tm made.2.1) assumeTimezone

def Parse.parseDate (s : Parse) (host : Host) (opts : ParseOptions) (assumeTimezone : ℤ) :
    Option (Bool × Parse) := do
  match ← s.parseDateUnnormalized host opts with
  | (none, s) => some (false, s)
  | (some tm, s) =>
    if opts.noParseDate then
      some (true, { s with msg := { s.msg with stamp := { sec := -1, zoneOffset := -1 } } })
    else
      let normalized := normalizeTime host.zone s.time s.msg.stamp tm assumeTimezone
      some (true, { s with msg := { s.msg with stamp := normalized.1 }, time := normalized.2 })

end SyslogNg.SyslogFormat
