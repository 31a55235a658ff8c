import SyslogNg.SyslogFormat.Date

/-!
# RFC 3339 timestamps

The text of a timestamp with a zone is parsed to the fields that it was made of. For every time zone
of the host and every history of the caches it is said when the instant that is stored is the one
that the text denotes: mostly, its fields are a local time that the host has, or `mktime` moves them
by hours.
-/
namespace SyslogNg.SyslogFormat

open TimeUtils List Cursor Parse Calendar.Date

/-! ### Digits -/

def twoDigits (n : ℕ) : Bytes := [UInt8.ofNat (48 + n / 10), UInt8.ofNat (48 + n % 10)]

def fourDigits (n : ℕ) : Bytes := twoDigits (n / 100) ++ twoDigits (n % 100)

theorem isDigit_of_mem_twoDigits {n : ℕ} (h : n < 100) : ∀ b ∈ twoDigits n, isDigit b = true := by
  intro b hb
  rcases mem_pair.mp hb with rfl | rfl
  · exact (digit_ofNat (by omega)).1
  · exact (digit_ofNat (by omega)).1

theorem decimal_append (a b : Bytes) :
    decimal (a ++ b) = decimal a * 10 ^ b.length + decimal b := by
  have hf : ∀ (b : Bytes) (n : ℕ), b.foldl (fun n b => 10 * n + digit b) n =
      n * 10 ^ b.length + b.foldl (fun n b => 10 * n + digit b) 0 := by
    intro b
    induction b with
    | nil => intro n; simp
    | cons x b ih =>
      intro n
      rw [foldl_cons, foldl_cons, ih, ih (10 * 0 + digit x), length_cons]
      ring
  unfold decimal
  rw [foldl_append, hf]

theorem decimal_twoDigits {n : ℕ} (h : n < 100) : decimal (twoDigits n) = n := by
  unfold decimal twoDigits
  simp only [foldl_cons, foldl_nil]
  rw [(digit_ofNat (by omega)).2, (digit_ofNat (by omega)).2]
  omega

theorem isDigit_of_mem_fourDigits {n : ℕ} (h : n < 10000) :
    ∀ b ∈ fourDigits n, isDigit b = true := by
  intro b hb
  rcases mem_append.mp hb with hb | hb
  · exact isDigit_of_mem_twoDigits (by omega) b hb
  · exact isDigit_of_mem_twoDigits (by omega) b hb

theorem decimal_fourDigits {n : ℕ} (h : n < 10000) : decimal (fourDigits n) = n := by
  unfold fourDigits
  rw [decimal_append, decimal_twoDigits (by omega), decimal_twoDigits (by omega)]
  change n / 100 * 10 ^ 2 + n % 100 = n
  omega

/-! ### Scanning -/

inductive Piece
  | number (digits : Bytes)
  | char (b : UInt8)

namespace Piece

def field : Piece → Field
  | number digits => .number digits.length
  | char b => .char b

def bytes : Piece → Bytes
  | number digits => digits
  | char b => [b]

def values : Piece → List ℤ
  | number digits => [(decimal digits : ℤ)]
  | char _ => []

def Valid : Piece → Prop
  | number digits => ∀ b ∈ digits, isDigit b = true
  | char _ => True

end Piece

variable {left : ℤ} {digits : Bytes}

theorem scanUint32_digits (hd : ∀ b ∈ digits, isDigit b = true) (rest : Bytes)
    (hl : digits.length ≤ left) (n : ℕ) : scanUint32 digits.length (digits ++ rest) left n =
      some (some (digits.foldl (fun n b => 10 * n + digit b) n, ⟨rest, left - digits.length⟩)) := by
  induction digits generalizing left n with
  | nil => simp [scanUint32]
  | cons b digits ih =>
    rw [length_cons] at hl
    rw [length_cons, cons_append, scanUint32, if_neg (by omega), if_pos (hd b mem_cons_self),
      ih (fun b hb => hd b (mem_cons_of_mem _ hb)) (by omega), foldl_cons]
    push_cast
    rw [sub_sub, add_comm (1 : ℤ)]

theorem scanField_piece {p : Piece} (hp : p.Valid) (rest : Bytes)
    (hl : p.bytes.length ≤ left) : scanField ⟨p.bytes ++ rest, left⟩ p.field =
      some (some (p.values, ⟨rest, left - p.bytes.length⟩)) := by
  cases p with
  | number digits =>
    change (scanUint32 digits.length (digits ++ rest) left 0).map _ = _
    rw [scanUint32_digits hp rest hl 0]
    rfl
  | char b =>
    have hne : left ≠ 0 := by
      change ((1 : ℕ) : ℤ) ≤ left at hl
      omega
    simp [scanField, scanExpectChar, Piece.field, Piece.bytes, Piece.values, byte, step, hne]

theorem scanFields_pieces {pieces : List Piece} (hpc : ∀ p ∈ pieces, p.Valid) (rest : Bytes)
    (hl : (pieces.flatMap Piece.bytes).length ≤ left) :
    scanFields (pieces.map Piece.field) ⟨pieces.flatMap Piece.bytes ++ rest, left⟩ =
      some (some (pieces.flatMap Piece.values,
        ⟨rest, left - (pieces.flatMap Piece.bytes).length⟩)) := by
  induction pieces generalizing left with
  | nil => simp [scanFields]
  | cons p pieces ih =>
    rw [flatMap_cons, length_append] at hl
    rw [map_cons, flatMap_cons, append_assoc, scanFields,
      scanField_piece (hpc p mem_cons_self) _ (by omega)]
    simp only [Option.bind_eq_bind, Option.bind_some]
    rw [ih (fun p hp => hpc p (mem_cons_of_mem _ hp)) (by omega)]
    simp only [Option.bind_some, flatMap_cons, length_append]
    push_cast
    rw [sub_sub]

/-! ### The text of a timestamp -/

inductive ZoneText
  | utc
  | offset (negative : Bool) (hours mins : ℕ)
  deriving DecidableEq

namespace ZoneText

def bytes : ZoneText → Bytes
  | utc => [0x5a]
  | offset negative hours mins =>
    (if negative then 0x2d else 0x2b) :: (twoDigits hours ++ 0x3a :: twoDigits mins)

def seconds : ZoneText → ℤ
  | utc => 0
  | offset negative hours mins => (if negative then -1 else 1) * (hours * 3600 + mins * 60)

def Valid : ZoneText → Prop
  | utc => True
  | offset _ hours mins => hours ≤ 23 ∧ mins ≤ 59

end ZoneText

/-- A timestamp with as many digits of the fraction as there are. -/
structure Rfc3339 where
  year : ℕ
  month : ℕ
  day : ℕ
  hour : ℕ
  min : ℕ
  sec : ℕ
  frac : Bytes
  zone : ZoneText
  deriving DecidableEq

namespace Rfc3339

variable (t : Rfc3339)

def pieces : List Piece :=
  [.number (fourDigits t.year), .char 0x2d, .number (twoDigits t.month), .char 0x2d,
    .number (twoDigits t.day), .char 0x54, .number (twoDigits t.hour), .char 0x3a,
    .number (twoDigits t.min), .char 0x3a, .number (twoDigits t.sec)]

def dateTime : Bytes := t.pieces.flatMap Piece.bytes

def fraction : Bytes := if t.frac = [] then [] else 0x2e :: t.frac

def text : Bytes := t.dateTime ++ (t.fraction ++ t.zone.bytes)

def tm : Tm :=
  { sec := t.sec, min := t.min, hour := t.hour, mday := t.day, mon := t.month - 1,
    year := t.year - 1900, isdst := -1 }

def instant : ℤ := t.tm.wall - t.zone.seconds

def usec : ℕ := decimal (t.frac.take 6) * 10 ^ (6 - (t.frac.take 6).length)

/-- A timestamp of the years 1970 to 2037; the last second of a minute can be a leap second. -/
structure Valid : Prop where
  year : 1970 ≤ t.year ∧ t.year ≤ 2037
  date : (⟨t.year, t.month, t.day⟩ : Calendar.Date).Valid
  hour : t.hour ≤ 23
  min : t.min ≤ 59
  sec : t.sec ≤ 60
  frac : ∀ b ∈ t.frac, isDigit b = true
  zone : t.zone.Valid

variable {t}

theorem length_dateTime : t.dateTime.length = 19 := rfl

theorem Valid.day_le (h : t.Valid) : t.month ≤ 12 ∧ t.day ≤ 31 := by
  have hm := h.date.month_le
  have hd := h.date.day_le
  have hle : Calendar.daysInMonth t.year t.month ≤ 31 := by
    unfold Calendar.daysInMonth
    split
    · split <;> omega
    · split <;> omega
  dsimp only at hm hd
  omega

theorem Valid.pieces (h : t.Valid) : ∀ p ∈ t.pieces, p.Valid := by
  have hy := h.year
  have hd := h.day_le
  have hh := h.hour
  have hm := h.min
  have hs := h.sec
  simp only [Rfc3339.pieces, mem_cons, not_mem_nil, or_false, forall_eq_or_imp, forall_eq]
  exact ⟨isDigit_of_mem_fourDigits (by omega), trivial, isDigit_of_mem_twoDigits (by omega),
    trivial,
    isDigit_of_mem_twoDigits (by omega), trivial, isDigit_of_mem_twoDigits (by omega), trivial,
    isDigit_of_mem_twoDigits (by omega), trivial, isDigit_of_mem_twoDigits (by omega)⟩

theorem Valid.values (h : t.Valid) : t.pieces.flatMap Piece.values =
    [(t.year : ℤ), (t.month : ℤ), (t.day : ℤ), (t.hour : ℤ), (t.min : ℤ), (t.sec : ℤ)] := by
  have hy := h.year
  have hd := h.day_le
  have hh := h.hour
  have hm := h.min
  have hs := h.sec
  simp only [Rfc3339.pieces, flatMap_cons, flatMap_nil, Piece.values, nil_append, singleton_append]
  rw [decimal_fourDigits (by omega), decimal_twoDigits (by omega), decimal_twoDigits (by omega),
    decimal_twoDigits (by omega), decimal_twoDigits (by omega), decimal_twoDigits (by omega)]

theorem Valid.scanIsoTimestamp_eq (h : t.Valid) (tm : Tm) (rest : Bytes)
    (hl : 19 ≤ left) : scanIsoTimestamp tm ⟨t.dateTime ++ rest, left⟩ = some (some ({ tm with
        year := t.year - 1900, mon := t.month - 1, mday := t.day, hour := t.hour, min := t.min,
        sec := t.sec }, ⟨rest, left - 19⟩)) := by
  have hs : scanFields _ ⟨_, left⟩ = _ :=
    scanFields_pieces h.pieces rest (by exact_mod_cast hl)
  have hf : t.pieces.map Piece.field =
      [.number 4, .char 0x2d, .number 2, .char 0x2d, .number 2, .char 0x54] ++ clockFields := rfl
  rw [hf, h.values] at hs
  unfold scanIsoTimestamp
  dsimp only
  change scanFields _ ⟨t.dateTime ++ rest, left⟩ = _ at hs
  rw [hs]
  rfl

end Rfc3339

/-! ### Fractions and zones -/

theorem fracDigits_eq (hd : ∀ b ∈ digits, isDigit b = true) {z : UInt8}
    (hz : isDigit z = false) (more : Bytes) (count : ℕ) (hl : digits.length < left) :
    fracDigits count (digits ++ z :: more) left =
      some (digits.take count,
        ⟨digits.drop count ++ z :: more, left - (digits.take count).length⟩) := by
  induction count generalizing digits left with
  | zero => simp [fracDigits]
  | succ count ih =>
    cases digits with
    | nil =>
      simp [fracDigits, hz]
    | cons b digits =>
      rw [length_cons] at hl
      rw [cons_append, fracDigits, if_neg (by omega), if_pos (hd b mem_cons_self),
        ih (fun b hb => hd b (mem_cons_of_mem _ hb)) (by omega)]
      simp [sub_sub, add_comm]

theorem skipDigits_eq (hd : ∀ b ∈ digits, isDigit b = true) {z : UInt8}
    (hz : isDigit z = false) (more : Bytes) (left : ℤ) :
    skipDigits (digits ++ z :: more) left = some ⟨z :: more, left - digits.length⟩ := by
  induction digits generalizing left with
  | nil => simp [skipDigits, hz]
  | cons b digits ih =>
    rw [cons_append, skipDigits, if_pos (hd b mem_cons_self),
      ih fun b hb => hd b (mem_cons_of_mem _ hb), length_cons]
    push_cast
    rw [sub_sub, add_comm (1 : ℤ)]

theorem parseUsec_eq (hd : ∀ b ∈ digits, isDigit b = true) {z : UInt8}
    (hz : isDigit z = false) (more : Bytes) (hl : digits.length + 1 < left) :
    parseUsec ⟨0x2e :: (digits ++ z :: more), left⟩ =
      some (decimal (digits.take 6) * 10 ^ (6 - (digits.take 6).length),
        ⟨z :: more, left - (digits.length + 1)⟩) := by
  have hf : fracDigits 6 (digits ++ z :: more) (left - 1) = _ :=
    fracDigits_eq hd hz more 6 (by omega)
  have hs : skipDigits (digits.drop 6 ++ z :: more) (left - 1 - (digits.take 6).length) = _ :=
    skipDigits_eq (fun b hb => hd b (mem_of_mem_drop hb)) hz more _
  have hdv : 1000000 / 10 ^ (digits.take 6).length = 10 ^ (6 - (digits.take 6).length) := by
    have hle : (digits.take 6).length ≤ 6 := length_take_le 6 digits
    exact Nat.pow_div hle (Nat.zero_lt_succ 9)
  have hln : (left - 1 - (digits.take 6).length - (digits.drop 6).length : ℤ) =
      left - (digits.length + 1) := by
    have ht := congrArg List.length (take_append_drop 6 digits)
    rw [length_append] at ht
    omega
  unfold parseUsec
  rw [if_neg (by dsimp only; omega)]
  simp only [byte, step, List.getElem?_cons_zero, drop_succ_cons, drop_zero,
    Nat.cast_one, Option.bind_eq_bind, Option.bind_some, if_true]
  rw [hf, Option.bind_some, hs, Option.bind_some, hdv, hln]

theorem parseUsec_none {z : UInt8} (hz : z ≠ 0x2e) (more : Bytes) (left : ℤ) :
    parseUsec ⟨z :: more, left⟩ = some (0, ⟨z :: more, left⟩) := by
  unfold parseUsec
  split
  · rfl
  · simp [byte, hz]

section Zones

variable {negative : Bool} {hours mins : ℕ}

theorem offset_bytes (more : Bytes) : (ZoneText.offset negative hours mins).bytes ++ more =
    (if negative then 0x2d else 0x2b) :: UInt8.ofNat (48 + hours / 10) ::
      UInt8.ofNat (48 + hours % 10) :: 0x3a :: UInt8.ofNat (48 + mins / 10) ::
      UInt8.ofNat (48 + mins % 10) :: more := rfl

theorem hasIsoTimezone_eq (hh : hours < 100) (hm : mins < 100) {b : UInt8}
    (hb : isDigit b = false) (more : Bytes) (hl : 5 ≤ left) :
    hasIsoTimezone ⟨(ZoneText.offset negative hours mins).bytes ++ b :: more, left⟩ =
      some true := by
  have hh₁ := (digit_ofNat (show hours / 10 < 10 by omega)).1
  have hh₂ := (digit_ofNat (show hours % 10 < 10 by omega)).1
  have hm₁ := (digit_ofNat (show mins / 10 < 10 by omega)).1
  have hm₂ := (digit_ofNat (show mins % 10 < 10 by omega)).1
  have hs : ((if negative then 0x2d else 0x2b : UInt8) == 0x2b ||
      (if negative then 0x2d else 0x2b : UInt8) == 0x2d) = true := by
    cases negative <;> rfl
  unfold hasIsoTimezone
  rw [if_neg (by dsimp only; omega), offset_bytes]
  generalize UInt8.ofNat (48 + hours / 10) = h₁ at hh₁ ⊢
  generalize UInt8.ofNat (48 + hours % 10) = h₂ at hh₂ ⊢
  generalize UInt8.ofNat (48 + mins / 10) = m₁ at hm₁ ⊢
  generalize UInt8.ofNat (48 + mins % 10) = m₂ at hm₂ ⊢
  generalize (if negative then 0x2d else 0x2b : UInt8) = sign at hs ⊢
  simp only [tests, byte, List.getElem?_cons_zero, List.getElem?_cons_succ,
    Option.bind_eq_bind, Option.bind_some, hs, hh₁, hh₂, hm₁, hm₂, hb, if_true, beq_self_eq_true,
    Bool.not_false]

theorem parseIsoTimezone_eq (hh : hours < 100) (hm : mins < 100) (more : Bytes) (left : ℤ) :
    parseIsoTimezone ⟨(ZoneText.offset negative hours mins).bytes ++ more, left⟩ =
      some ((ZoneText.offset negative hours mins).seconds, ⟨more, left - 6⟩) := by
  have hh₁ := (digit_ofNat (show hours / 10 < 10 by omega)).2
  have hh₂ := (digit_ofNat (show hours % 10 < 10 by omega)).2
  have hm₁ := (digit_ofNat (show mins / 10 < 10 by omega)).2
  have hm₂ := (digit_ofNat (show mins % 10 < 10 by omega)).2
  have hh' : hours / 10 * 10 + hours % 10 = hours := by omega
  have hm' : mins / 10 * 10 + mins % 10 = mins := by omega
  rw [offset_bytes]
  simp only [parseIsoTimezone, byte, List.getElem?_cons_zero,
    List.getElem?_cons_succ, Option.bind_eq_bind, Option.bind_some, hh₁, hh₂, hm₁, hm₂, hh',
    hm']
  cases negative <;> rfl

end Zones

/-! ### The date of a message -/

namespace Rfc3339

variable {t : Rfc3339} {s : Parse} {tail : Bytes} {left : ℤ}

/-- What follows a zone with digits is not a digit. -/
def Delimited (t : Rfc3339) (tail : Bytes) : Prop :=
  t.zone = .utc ∨ ∃ b more, tail = b :: more ∧ isDigit b = false

theorem Valid.parseDateTz_eq (h : t.Valid) (htail : t.Delimited tail) (opts : ParseOptions)
    (hcr : s.cursor = ⟨t.zone.bytes ++ tail, left⟩) (hl : t.zone.bytes.length ≤ left) :
    s.parseDateTz opts = some ((s.setZoneOffset t.zone.seconds
      ⟨tail, left - t.zone.bytes.length⟩).setQuality opts tzKnown true) := by
  have hzn := h.zone
  unfold Delimited at htail
  unfold parseDateTz startsWithZ
  rw [hcr]
  cases hz : t.zone with
  | utc =>
    rw [hz] at hl
    have hp : left > 0 := by
      change ((1 : ℕ) : ℤ) ≤ left at hl
      omega
    simp [hp, byte, ZoneText.bytes, ZoneText.seconds, step]
  | offset negative hours mins =>
    rw [hz] at hl hzn htail
    obtain ⟨hh, hm⟩ := hzn
    obtain ⟨b, more, rfl, hb⟩ := htail.resolve_left nofun
    have hs : 6 ≤ left := by exact_mod_cast hl
    have hn : ((if negative then 0x2d else 0x2b : UInt8) == 0x5a) = false := by
      cases negative <;> rfl
    have hf : byte ⟨(ZoneText.offset negative hours mins).bytes ++ b :: more, left⟩ 0 =
        some (if negative then 0x2d else 0x2b) := rfl
    dsimp only
    rw [if_pos (by omega), hf, Option.map_some, hn,
      hasIsoTimezone_eq (by omega) (by omega) hb more (by omega),
      parseIsoTimezone_eq (by omega) (by omega)]
    rfl

theorem zone_bytes_cons (t : Rfc3339) :
    ∃ z more, t.zone.bytes = z :: more ∧ isDigit z = false ∧ z ≠ 0x2e := by
  cases hz : t.zone with
  | utc => exact ⟨_, _, rfl, rfl, by decide⟩
  | offset negative hours mins =>
    refine ⟨_, _, rfl, ?_, ?_⟩ <;> cases negative <;> decide

theorem Valid.parseUsec_eq (h : t.Valid) (hl : (t.fraction ++ t.zone.bytes).length ≤ left) :
    parseUsec ⟨t.fraction ++ (t.zone.bytes ++ tail), left⟩ =
      some (t.usec, ⟨t.zone.bytes ++ tail, left - t.fraction.length⟩) := by
  obtain ⟨z, more, hz, hd, hdt⟩ := zone_bytes_cons t
  rw [length_append, hz, length_cons] at hl
  unfold fraction at hl ⊢
  rw [hz, cons_append]
  split
  case isTrue hn =>
    have hu : t.usec = 0 := by
      unfold usec
      rw [hn]
      rfl
    rw [nil_append, parseUsec_none hdt, hu]
    simp
  case isFalse hne =>
    rw [if_neg hne, length_cons] at hl
    rw [cons_append, SyslogFormat.parseUsec_eq h.frac hd _ (by omega)]
    rfl

theorem first_byte (h : t.Valid) (rest : Bytes) :
    ∃ b, (t.dateTime ++ rest)[0]? = some b ∧ b ≠ 0x2a ∧ b ≠ 0x2e := by
  have hy := h.year
  obtain ⟨hd, -⟩ := digit_ofNat (show t.year / 100 / 10 < 10 by omega)
  refine ⟨UInt8.ofNat (48 + t.year / 100 / 10), rfl, ?_, ?_⟩
  · rintro heq
    rw [heq] at hd
    cases hd
  · rintro heq
    rw [heq] at hd
    cases hd

theorem isIsoStamp_eq (rest : Bytes) (hl : 19 ≤ left) :
    Parse.isIsoStamp ⟨t.dateTime ++ rest, left⟩ = some true := by
  unfold isIsoStamp
  rw [if_neg (by dsimp only; omega)]
  rfl

/-- The message with the fraction and the zone of the timestamp. -/
def stamped (t : Rfc3339) (opts : ParseOptions) (s : Parse) (c : Cursor) (time : TimeState) :
    Parse :=
  let s := s.setQuality opts isSynced false
  let s := ({ s.setUsec t.usec with time := time }).setZoneOffset t.zone.seconds c
  s.setQuality opts tzKnown true

theorem setQuality_cursor (s : Parse) (opts : ParseOptions) (name : ValueName) (found : Bool) :
    (s.setQuality opts name found).cursor = s.cursor ∧
      (s.setQuality opts name found).time = s.time := by
  unfold setQuality
  split <;> exact ⟨rfl, rfl⟩

section

variable (h : t.Valid) (htail : t.Delimited tail) (host : Host) (opts : ParseOptions)
include h htail host opts

theorem Valid.parseIsoStamp_eq
    (hcr : s.cursor = ⟨t.dateTime ++ (t.fraction ++ (t.zone.bytes ++ tail)), left⟩)
    (hl : t.text.length ≤ left) : s.parseIsoStamp host opts =
      let now := cachedLocaltime host.zone s.time host.now
      some (some { t.tm with isdst := now.1.isdst, gmtoff := now.1.gmtoff },
        (({ s.setUsec t.usec with time := now.2 }).setZoneOffset t.zone.seconds
          ⟨tail, left - t.text.length⟩).setQuality opts tzKnown true) := by
  have hln : (t.text.length : ℤ) = 19 + t.fraction.length + t.zone.bytes.length := by
    unfold text
    rw [length_append, length_append, length_dateTime]
    push_cast
    ring
  have hs : ∀ tm, scanIsoTimestamp tm s.cursor = _ := fun tm =>
    hcr ▸ h.scanIsoTimestamp_eq tm _ (by omega)
  unfold parseIsoStamp
  dsimp only
  have hcr' : ∀ time, ({ s.setUsec 0 with time := time } : Parse).cursor = s.cursor := fun _ => rfl
  rw [hcr', hs]
  simp only [Option.bind_eq_bind, Option.bind_some]
  rw [h.parseUsec_eq (by rw [length_append]; push_cast; omega)]
  simp only [Option.bind_some]
  rw [h.parseDateTz_eq htail opts rfl (by omega)]
  have he : left - 19 - t.fraction.length - t.zone.bytes.length = left - t.text.length := by
    omega
  rw [he]
  rfl

theorem Valid.parseDateUnnormalized_eq (hcr : s.cursor = ⟨t.text ++ tail, left⟩)
    (hl : t.text.length ≤ left) : s.parseDateUnnormalized host opts =
      let now := cachedLocaltime host.zone s.time host.now
      some (some { t.tm with isdst := now.1.isdst, gmtoff := now.1.gmtoff },
        t.stamped opts s ⟨tail, left - t.text.length⟩ now.2) := by
  have ht : t.text ++ tail = t.dateTime ++ (t.fraction ++ (t.zone.bytes ++ tail)) := by
    unfold text
    rw [append_assoc, append_assoc]
  have hn : 19 ≤ left := by
    have hln : 19 ≤ t.text.length := by
      unfold text
      rw [length_append]
      exact Nat.le_add_right _ _
    omega
  obtain ⟨hcr', ht'⟩ := setQuality_cursor s opts isSynced false
  obtain ⟨b, hb, hst, hd⟩ := first_byte h (t.fraction ++ (t.zone.bytes ++ tail))
  have hs : s.parseDateIsSynced opts = some (s.setQuality opts isSynced false) := by
    have hby : s.cursor.byte 0 = some b := by
      rw [hcr]
      exact hb
    have hnt : (b == 0x2e) = false := beq_eq_false_iff_ne.mpr hd
    unfold parseDateIsSynced
    rw [hby]
    simp only [Option.bind_eq_bind, Option.bind_some, hst, hd, or_self, if_false, hnt]
  rw [ht] at hcr
  unfold parseDateUnnormalized
  rw [hs]
  simp only [Option.bind_eq_bind, Option.bind_some]
  rw [hcr', hcr, isIsoStamp_eq _ hn, Option.bind_some,
    h.parseIsoStamp_eq htail host opts (hcr'.trans hcr) hl, ht']
  rfl

end

end Rfc3339

/-! ### The instant -/

/-- The hour of the text on the day of a local time, which is counted from the days of the month. -/
theorem exists_dayStep {tm : Tm} {day : ℤ} (hd : (ofDayNumber day).day = tm.mday)
    (shown isdst gmtoff : ℤ) : ∃ step : ℤ,
    calculateUnnormalizedHour tm (brokenDown shown isdst gmtoff) = tm.hour + 24 * step ∧
      -1 ≤ step ∧ step ≤ 1 ∧ (tm.hour = shown / 3600 % 24 → step = 0) ∧
      (shown / 86400 = day → step = 0) ∧ (tm.hour ≠ shown / 3600 % 24 →
        (shown / 86400 = day + 1 → step = -1) ∧ (shown / 86400 + 1 = day → step = 1)) := by
  have hup := day_ofDayNumber_add_one day
  have hdown := day_ofDayNumber_add_one (shown / 86400)
  unfold calculateUnnormalizedHour
  change ∃ step : ℤ, (if tm.hour ≠ shown / 3600 % 24 ∧
    tm.mday ≠ (ofDayNumber (shown / 86400)).day then _ else tm.hour) = _ ∧ _
  dsimp only [brokenDown]
  rw [hd] at hup
  split_ifs with hc hgt hlt
  · refine ⟨-1, rfl, by omega, by omega, by omega, ?_, fun _ => ⟨fun _ => rfl, ?_⟩⟩
    · rintro rfl
      omega
    · intro hn
      rw [hn, hd] at hdown
      omega
  · refine ⟨1, rfl, by omega, by omega, by omega, ?_, fun _ => ⟨?_, fun _ => rfl⟩⟩
    · rintro rfl
      omega
    · intro hn
      rw [← hn] at hup
      omega
  · refine ⟨_, rfl, by omega, by omega, by omega, ?_, fun _ => ⟨?_, ?_⟩⟩
    · rintro rfl
      omega
    · intro hn
      rw [← hn] at hup
      omega
    · intro hn
      rw [hn, hd] at hdown
      omega
  · refine ⟨0, by omega, by omega, by omega, by omega, by omega, fun hne => ⟨?_, ?_⟩⟩
    · intro hn
      rw [← hn] at hup
      omega
    · intro hn
      rw [hn, hd] at hdown
      omega

theorem calculateUnnormalizedHour_self (tm : Tm) : calculateUnnormalizedHour tm tm = tm.hour :=
  if_neg fun h => h.1 rfl

namespace Rfc3339

variable {t : Rfc3339}

theorem tm_date (t : Rfc3339) (hm : 1 ≤ t.month ∧ t.month ≤ 12) :
    t.tm.date = ⟨t.year, t.month, t.day⟩ := by
  unfold tm Tm.date
  rw [Calendar.Date.mk.injEq]
  dsimp only
  exact ⟨by omega, by omega, rfl⟩

/-- The local time is some hours from that of the text, and the hours of the two clocks and the days
of the month tell how many. -/
structure HoursTold (t : Rfc3339) (shown : ℤ) : Prop where
  sec : ¬(t.min = 59 ∧ t.sec = 60)
  hours : 3600 ∣ shown - t.tm.wall
  day : (shown - t.tm.wall).natAbs ≠ 86400
  near : (shown / 86400 - t.tm.wall / 86400).natAbs ≤ 1

/-- The hours that are taken back happen to be those of the text from the time 0. -/
def MadeUp (t : Rfc3339) (shown : Tm) : Prop :=
  t.min = 0 ∧ t.sec = 0 ∧ shown.hour = 0 ∧
      (t.tm.wall < 86400 ∧ (t.hour = 0 ∨ shown.mday = 1) ∨
        86400 < t.tm.wall ∧ t.tm.wall < 2 * 86400 ∧ (shown.mday = 1 ∨ 3 < shown.mday)) ∨
    t.min = 59 ∧ t.sec = 60 ∧ shown.hour = 23 ∧ t.tm.wall < 86400 ∧ 2 < shown.mday

theorem Valid.date_eq (h : t.Valid) : t.tm.date = ⟨t.year, t.month, t.day⟩ := by
  have hl := h.date.month_pos
  have hh := h.date.month_le
  dsimp only at hl hh
  exact tm_date t ⟨by omega, by omega⟩

theorem Valid.wall_eq (h : t.Valid) : ∃ day : ℤ, 0 ≤ day ∧ (ofDayNumber day).day = t.day ∧
    t.tm.wall = 86400 * day + 3600 * t.hour + 60 * t.min + t.sec := by
  refine ⟨t.tm.date.dayNumber, ?_, ?_, rfl⟩
  · have hy := h.year
    have hm := h.date.month_pos
    have hm' := h.date.month_le
    have hdp := h.date.day_pos
    rw [h.date_eq]
    unfold Calendar.Date.dayNumber Calendar.Date.marchYear Calendar.Date.dayOfYear
    dsimp only at *
    split_ifs with hb
    · have hc : ((t.year : ℤ) - 1) / 100 - (t.year - 1) / 400 = 15 := by omega
      have hmod : ((t.month : ℤ) + 9) % 12 = t.month + 9 := by omega
      omega
    · have hc : (t.year : ℤ) / 100 - t.year / 400 = 15 := by omega
      omega
  · rw [h.date_eq, h.date.ofDayNumber_dayNumber]

theorem hoursTold_iff_and (shown : ℤ) : t.HoursTold shown ↔ ¬(t.min = 59 ∧ t.sec = 60) ∧
    3600 ∣ shown - t.tm.wall ∧ (shown - t.tm.wall).natAbs ≠ 86400 ∧
      (shown / 86400 - t.tm.wall / 86400).natAbs ≤ 1 :=
  ⟨fun ⟨a, b, c, d⟩ => ⟨a, b, c, d⟩, fun ⟨a, b, c, d⟩ => ⟨a, b, c, d⟩⟩

theorem Valid.hoursTold_iff (h : t.Valid) (shown isdst gmtoff gmt : ℤ) :
    shown - ((brokenDown shown isdst gmtoff).hour -
      calculateUnnormalizedHour { t.tm with gmtoff := gmt }
        (brokenDown shown isdst gmtoff)) * 3600 =
        t.tm.wall ↔ t.HoursTold shown := by
  obtain ⟨day, h0, hd, hw⟩ := h.wall_eq
  obtain ⟨step, hu, hl, hg, hs, he, hn⟩ :=
    exists_dayStep (show _ = ({ t.tm with gmtoff := gmt } : Tm).mday from hd) shown isdst gmtoff
  have hhour := h.hour
  have hmin := h.min
  have hsec := h.sec
  rw [hu, hoursTold_iff_and, hw]
  change shown - (shown / 3600 % 24 - ((t.hour : ℤ) + 24 * step)) * 3600 = _ ↔ _
  replace hs : (t.hour : ℤ) = shown / 3600 % 24 → step = 0 := hs
  replace hn : (t.hour : ℤ) ≠ shown / 3600 % 24 →
    (shown / 86400 = day + 1 → step = -1) ∧ (shown / 86400 + 1 = day → step = 1) := hn
  -- the days are as many apart as the hours say, and minutes and seconds are the same
  have hk : shown - (shown / 3600 % 24 - ((t.hour : ℤ) + 24 * step)) * 3600 =
      86400 * day + 3600 * t.hour + 60 * t.min + t.sec ↔
      shown % 3600 = 60 * t.min + t.sec ∧ shown / 86400 + step = day := by
    omega
  rw [hk]
  clear hk hu h hd hw
  constructor
  · rintro ⟨hr, hday⟩
    refine ⟨by omega, by omega, ?_, by omega⟩
    by_cases hh : (t.hour : ℤ) = shown / 3600 % 24
    · have := hs hh
      omega
    · omega
  · rintro ⟨hne, hdv, hab, hnear⟩
    have hr : shown % 3600 = 60 * t.min + t.sec := by omega
    refine ⟨hr, ?_⟩
    by_cases hh : (t.hour : ℤ) = shown / 3600 % 24
    · have := hs hh
      omega
    · have := hn hh
      omega

theorem Valid.madeUp_iff (h : t.Valid) (shown isdst gmtoff gmt : ℤ) :
    -((brokenDown shown isdst gmtoff).hour -
      calculateUnnormalizedHour { t.tm with gmtoff := gmt }
        (brokenDown shown isdst gmtoff)) * 3600 =
        t.tm.wall ↔ t.MadeUp (brokenDown shown isdst gmtoff) := by
  obtain ⟨day, h0, hd, hw⟩ := h.wall_eq
  have hhour := h.hour
  have hmin := h.min
  have hsec := h.sec
  have hh := (brokenDown_normal shown isdst gmtoff).hour
  have hp : 1 ≤ (brokenDown shown isdst gmtoff).mday :=
    (brokenDown_normal shown isdst gmtoff).date.day_pos
  have hzero : day = 0 → t.day = 1 := by
    rintro rfl
    exact Int.ofNat_inj.mp hd.symm
  have hone : day = 1 → t.day = 2 := by
    rintro rfl
    exact Int.ofNat_inj.mp hd.symm
  clear hd h
  unfold MadeUp calculateUnnormalizedHour
  generalize brokenDown shown isdst gmtoff = n at *
  rw [hw]
  change -(n.hour - (if (t.hour : ℤ) ≠ n.hour ∧ (t.day : ℤ) ≠ n.mday then _ else (t.hour : ℤ))) *
    3600 = _ ↔ _
  dsimp only [tm]
  clear hw
  split_ifs with hc hgt hlt
  · omega
  · omega
  · omega
  · omega

variable {zone : Zone}

/-- When the stored instant is right: `unused` says that the slot of the time 0 is still empty when
the offset of the host is looked up, `hit` that the fields are those that `mktime` converted
last. -/
def Converts (zone : Zone) (unused hit : Bool) (t : Rfc3339) : Prop :=
  let made := zone.mktime t.tm.wall
  let shown := made + zone.offset made
  if made = 0 ∧ zone.offset 0 ≠ 0 ∧ unused then
    if hit then t.tm.wall = 0 else t.MadeUp (zone.localtime 0)
  else if hit then zone.Shows t.tm.wall
  else t.HoursTold shown

theorem getLocalTimezoneOfs_eq {time : TimeState} (htime : time.Valid zone) (when : ℤ) :
    (getLocalTimezoneOfs zone time when).1 =
      if when = 0 ∧ zone.offset 0 ≠ 0 ∧ time.localTimeCache 0 = {} then 0
      else zone.offset when := by
  by_cases hu : when ≠ 0 ∨ time.localTimeCache 0 ≠ {}
  · have ho : (getLocalTimezoneOfs zone time when).1 = zone.offset when :=
      congrArg Tm.gmtoff (htime.localtime.cachedTime_eq hu)
    rw [ho, if_neg]
    rintro ⟨rfl, -, he⟩
    exact hu.elim (fun hne => hne rfl) fun hne => hne he
  · obtain ⟨rfl, he⟩ : when = 0 ∧ time.localTimeCache 0 = {} := by simpa [not_or] using hu
    have ho : (getLocalTimezoneOfs zone time 0).1 = 0 :=
      congrArg (fun r => r.1.gmtoff) (cachedTime_zero he)
    rw [ho]
    split_ifs with hc
    · rfl
    · by_contra hne
      exact hc ⟨rfl, Ne.symm hne, he⟩

theorem seconds_ne (zone : ZoneText) : zone.seconds ≠ -1 := by
  cases zone with
  | utc => decide
  | offset negative hours mins =>
    intro hs
    simp only [ZoneText.seconds] at hs
    split at hs <;> omega

/-- The fields are left as they are on a hit, and are those of the local time otherwise. -/
theorem cachedMktime_fields (time : TimeState) (gmtoff : ℤ) :
    (cachedMktime zone time { t.tm with gmtoff }).2.1 =
      if t.tm.sameTime time.mktimePrevTm then { t.tm with gmtoff }
      else zone.localtime (zone.mktime t.tm.wall) := by
  have hs : ({ t.tm with gmtoff } : Tm).sameTime time.mktimePrevTm =
    t.tm.sameTime time.mktimePrevTm := rfl
  unfold cachedMktime
  rw [hs]
  split_ifs <;> rfl

theorem Valid.normalizeTime_iff (h : t.Valid) {time : TimeState} (htime : time.Valid zone)
    (stamp : LogStamp) (hz : stamp.zoneOffset = t.zone.seconds) {tm : Tm}
    (htm : { tm with isdst := -1 } = { t.tm with gmtoff := tm.gmtoff }) (assumeTimezone : ℤ) :
    let normalized := (normalizeTime zone time stamp tm assumeTimezone).1
    normalized.usec = stamp.usec ∧ normalized.zoneOffset = t.zone.seconds ∧
      (normalized.sec = t.instant ↔
        t.Converts zone (time.localTimeCache 0 = {}) (t.tm.sameTime time.mktimePrevTm)) := by
  obtain ⟨hm, hv, hcc⟩ : (cachedMktime zone time { t.tm with gmtoff := tm.gmtoff }).1 = _ ∧ _ ∧ _ :=
    htime.cachedMktime_eq rfl
  have hw : ({ t.tm with gmtoff := tm.gmtoff } : Tm).wall = t.tm.wall := rfl
  have ho := getLocalTimezoneOfs_eq hv (zone.mktime t.tm.wall)
  have hne : stamp.zoneOffset ≠ -1 := hz ▸ seconds_ne t.zone
  rw [hcc] at ho
  unfold normalizeTime calculateCorrectTime
  dsimp only
  rw [htm, if_neg hne, if_neg hne, hm, hw, ho, cachedMktime_fields, hz]
  refine ⟨rfl, rfl, ?_⟩
  unfold Converts Rfc3339.instant
  rw [sub_left_inj]
  simp only [decide_eq_true_eq]
  split_ifs with hzero hit hit
  · rw [calculateUnnormalizedHour_self, sub_self, zero_mul, sub_zero, hzero.1, add_zero]
    exact eq_comm
  · rw [hzero.1, add_zero, zero_sub, ← neg_mul]
    exact h.madeUp_iff _ _ _ _
  · rw [calculateUnnormalizedHour_self, sub_self, zero_mul, sub_zero, Zone.shows_iff]
  · exact h.hoursTold_iff _ _ _ _

/-- The current time is converted before, which can use the slot of the time 0. -/
def zeroUnused (host : Host) (time : TimeState) : Bool :=
  time.localTimeCache (slot 0) = {} ∧ (host.now = 0 ∨ slot host.now ≠ slot 0)

theorem zeroUnused_eq (host : Host) (time : TimeState) :
    decide ((cachedLocaltime host.zone time host.now).2.localTimeCache 0 = {}) =
      zeroUnused host time := by
  have h0 : slot 0 = 0 := rfl
  unfold zeroUnused
  rw [h0]
  refine decide_eq_decide.mpr ?_
  change (cachedTime host.zone.localtime time.localTimeCache host.now).2 0 = {} ↔ _
  unfold cachedTime
  split_ifs with hhit
  · refine ⟨fun (he : time.localTimeCache 0 = {}) => ⟨he, ?_⟩, And.left⟩
    by_cases hs : slot host.now = 0
    · rw [hs, he] at hhit
      exact .inl hhit
    · exact .inr hs
  · dsimp only
    by_cases hs : slot host.now = 0
    · have hn : host.now ≠ 0 ∨ time.localTimeCache 0 ≠ {} := by
        by_contra hc
        obtain ⟨h0, he⟩ := not_or.mp hc
        rw [not_not] at h0 he
        rw [hs, he] at hhit
        exact hhit h0
      have hd : 1 ≤ (host.zone.localtime host.now).mday :=
        (brokenDown_normal _ (host.zone.isdst host.now) (host.zone.offset host.now)).date.day_pos
      rw [hs, Function.update_self]
      constructor
      · intro he
        have hz : (host.zone.localtime host.now).mday = 0 := congrArg (fun c => c.tm.mday) he
        omega
      · rintro ⟨he, h0 | h0⟩
        · exact absurd hn (by simp [he, h0])
        · exact absurd rfl h0
    · rw [Function.update_of_ne (Ne.symm hs)]
      exact ⟨fun he => ⟨he, .inr hs⟩, And.left⟩

/-- For every zone of the host and every history of the caches: the date is accepted, the fraction
and the zone are those of the text, and the stored instant is that of the text exactly if it
converts. -/
theorem parseDate_instant_iff {host : Host} {opts : ParseOptions} {s : Parse} {tail : Bytes}
    {left : ℤ} (hhistory : (timeSystem host.zone).Reachable s.time) (h : t.Valid)
    (htail : t.Delimited tail) (hparse : opts.noParseDate = false)
    (hcursor : s.cursor = ⟨t.text ++ tail, left⟩) (hleft : t.text.length ≤ left)
    (assumeTimezone : ℤ) :
    ∃ s', s.parseDate host opts assumeTimezone = some (true, s') ∧
      s'.cursor = ⟨tail, left - t.text.length⟩ ∧ s'.msg.stamp.usec = t.usec ∧
      s'.msg.stamp.zoneOffset = t.zone.seconds ∧ (s'.msg.stamp.sec = t.instant ↔
        t.Converts host.zone (zeroUnused host s.time) (t.tm.sameTime s.time.mktimePrevTm)) := by
  have hv := (valid_of_reachable hhistory).apply (.localtime host.now)
  have hs : (t.stamped opts s ⟨tail, left - t.text.length⟩
      (cachedLocaltime host.zone s.time host.now).2).msg.stamp.usec = t.usec ∧
      (t.stamped opts s ⟨tail, left - t.text.length⟩
        (cachedLocaltime host.zone s.time host.now).2).msg.stamp.zoneOffset = t.zone.seconds ∧
      (t.stamped opts s ⟨tail, left - t.text.length⟩
        (cachedLocaltime host.zone s.time host.now).2).cursor = ⟨tail, left - t.text.length⟩ ∧
      (t.stamped opts s ⟨tail, left - t.text.length⟩
        (cachedLocaltime host.zone s.time host.now).2).time =
        (cachedLocaltime host.zone s.time host.now).2 := by
    unfold stamped setQuality
    rw [if_neg (by simp [hparse])]
    exact ⟨rfl, rfl, rfl, rfl⟩
  obtain ⟨hu, hz, hcursor', htime⟩ := hs
  unfold parseDate
  rw [h.parseDateUnnormalized_eq htail host opts hcursor hleft]
  simp only [hparse]
  refine ⟨_, rfl, hcursor', ?_⟩
  rw [htime, ← hu, ← zeroUnused_eq]
  refine h.normalizeTime_iff hv _ hz ?_ _
  rfl

/-- A zone whose clocks are set forward by an hour at 2015-03-29T01:00:00Z. A time that is skipped
is taken as one before the change. -/
def summerTime : Zone where
  offset t := if t < 1427590800 then 0 else 3600
  isdst t := if t < 1427590800 then 0 else 1
  mktime wall := if wall < 1427590800 + 3600 then wall else wall - 3600
  mktime_local t := by split_ifs <;> omega

def summerHost : Host := { zone := summerTime, now := 1500000000 }

/-- `2015-03-29T01:30:00.25-01:00`, a local time that is skipped -/
def skippedTime : Rfc3339 := ⟨2015, 3, 29, 1, 30, 0, [0x32, 0x35], .offset true 1 0⟩

theorem skippedTime_valid : skippedTime.Valid :=
  ⟨by decide, ⟨by decide, by decide, by decide, by decide⟩, by decide, by decide, by decide,
    List.all_eq_true.mp rfl, show 1 ≤ 23 ∧ 0 ≤ 59 by decide⟩

/-- The parser before the text of the skipped time and a blank. -/
def atSkippedTime (time : TimeState) : Parse := ⟨⟨skippedTime.text ++ [0x20], 29⟩, {}, time⟩

theorem parseDate_instant_iff_skippedTime :
    ∃ s', (atSkippedTime {}).parseDate summerHost {} (-1) = some (true, s') ∧
      s'.cursor = ⟨[0x20], 29 - 28⟩ ∧ s'.msg.stamp = ⟨skippedTime.instant, 250000, -3600⟩ := by
  have hh : (timeSystem summerHost.zone).Reachable (atSkippedTime {}).time := .init rfl
  obtain ⟨s', hp, hc, hu, hz, hi⟩ := parseDate_instant_iff hh skippedTime_valid
    (.inr ⟨0x20, [], rfl, rfl⟩) (show ({} : ParseOptions).noParseDate = false from rfl)
    (show (atSkippedTime {}).cursor = ⟨skippedTime.text ++ [0x20], 29⟩ from rfl) (by decide) (-1)
  have hcv : skippedTime.Converts summerHost.zone (zeroUnused summerHost {})
      (skippedTime.tm.sameTime ({} : TimeState).mktimePrevTm) := by
    unfold Converts
    rw [if_neg (by decide +kernel), if_neg (by decide +kernel)]
    exact ⟨by decide, by decide +kernel, by decide +kernel, by decide +kernel⟩
  refine ⟨s', hp, hc, ?_⟩
  rw [← hi.mpr hcv, ← (show skippedTime.usec = 250000 by decide +kernel), ← hu,
    ← (show skippedTime.zone.seconds = -3600 by decide), ← hz]

/-- The state after the time was converted once. -/
def convertedOnce : TimeState := TimeState.apply summerTime {} (.mktime skippedTime.tm)

def storedSec (parsed : Option (Bool × Parse)) : Option ℤ := parsed.map fun r => r.2.msg.stamp.sec

/-- A skipped time that was converted before is stored as an hour later than the first time. -/
theorem skippedTime_twice :
    (timeSystem summerTime).Reachable convertedOnce ∧ skippedTime.instant = 1427596200 ∧
      storedSec ((atSkippedTime {}).parseDate summerHost {} (-1)) = some 1427596200 ∧
      storedSec ((atSkippedTime convertedOnce).parseDate summerHost {} (-1)) = some 1427599800 :=
  ⟨.step (.init rfl) rfl, by decide +kernel, by decide +kernel, by decide +kernel⟩

end Rfc3339

end SyslogNg.SyslogFormat
