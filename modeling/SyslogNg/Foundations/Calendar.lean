import Mathlib.Tactic

/-!
# Dates and day numbers

Days of the Gregorian calendar are counted from 1970-01-01, in both directions. Years are taken to
begin with March, so that the leap day is the last one of a year: 400 years have 146097 days, the
centuries in them 36524, four years in these 1461, and a year 365, except for the last of each.
-/
namespace SyslogNg.Calendar

structure Date where
  year : ℤ
  month : ℤ
  day : ℤ
  deriving DecidableEq, Repr

def IsLeap (year : ℤ) : Prop := year % 4 = 0 ∧ (year % 100 ≠ 0 ∨ year % 400 = 0)

instance (year : ℤ) : Decidable (IsLeap year) := inferInstanceAs (Decidable (_ ∧ _))

def daysInMonth (year month : ℤ) : ℤ :=
  if month = 2 then if IsLeap year then 29 else 28
  else if month = 4 ∨ month = 6 ∨ month = 9 ∨ month = 11 then 30 else 31

theorem daysInMonth_ge (year month : ℤ) : 28 ≤ daysInMonth year month := by
  unfold daysInMonth
  split
  · split <;> omega
  · split <;> omega

namespace Date

structure Valid (d : Date) : Prop where
  month_pos : 1 ≤ d.month
  month_le : d.month ≤ 12
  day_pos : 1 ≤ d.day
  day_le : d.day ≤ daysInMonth d.year d.month

/-- The year that begins with March. -/
def marchYear (d : Date) : ℤ := if d.month ≤ 2 then d.year - 1 else d.year

/-- Days since the first of March. -/
def dayOfYear (d : Date) : ℤ := (153 * ((d.month + 9) % 12) + 2) / 5 + d.day - 1

/-- Days since 1970-01-01. -/
def dayNumber (d : Date) : ℤ :=
  365 * d.marchYear + d.marchYear / 4 - d.marchYear / 100 + d.marchYear / 400 + d.dayOfYear - 719468

/-- The date in a year that begins with March. -/
def ofMarchYear (year dayOfYear : ℤ) : Date :=
  let month := (5 * dayOfYear + 2) / 153
  ⟨if month < 10 then year else year + 1, if month < 10 then month + 3 else month - 9,
    dayOfYear - (153 * month + 2) / 5 + 1⟩

def ofDayNumber (n : ℤ) : Date :=
  let days := (n + 719468) % 146097
  let century := min (days / 36524) 3
  let days₁ := days - 36524 * century
  let days₂ := days₁ % 1461
  let year := min (days₂ / 365) 3
  ofMarchYear (400 * ((n + 719468) / 146097) + 100 * century + 4 * (days₁ / 1461) + year)
    (days₂ - 365 * year)

/-- The last day is there in leap years only. -/
def FitsYear (year dayOfYear : ℤ) : Prop :=
  0 ≤ dayOfYear ∧ (dayOfYear < 365 ∨ dayOfYear = 365 ∧ IsLeap (year + 1))

variable {year dayOfYear : ℤ}

theorem ofMarchYear_valid (h : FitsYear year dayOfYear) : (ofMarchYear year dayOfYear).Valid := by
  obtain ⟨hp, hle⟩ := h
  unfold ofMarchYear
  generalize hm : (5 * dayOfYear + 2) / 153 = month
  have hlw : 0 ≤ month := by omega
  refine ⟨?_, ?_, ?_, ?_⟩
  · dsimp only
    split <;> omega
  · dsimp only
    split <;> omega
  · dsimp only
    omega
  · -- Each month has as many days as there are to the start of the next one.
    by_cases hf : month = 11
    · subst hf
      simp only [daysInMonth]
      norm_num
      rcases hle with hlt | ⟨heq, hl⟩
      · split <;> omega
      · rw [if_pos hl]
        omega
    · have hb : month ≤ 10 := by omega
      interval_cases month <;> simp only [daysInMonth] <;> norm_num <;> omega

theorem ofMarchYear_eq (h : FitsYear year dayOfYear) :
    (ofMarchYear year dayOfYear).marchYear = year ∧
      (ofMarchYear year dayOfYear).dayOfYear = dayOfYear := by
  obtain ⟨hp, hle⟩ := h
  unfold ofMarchYear marchYear Date.dayOfYear
  generalize hm : (5 * dayOfYear + 2) / 153 = month
  dsimp only
  constructor
  · split <;> split <;> omega
  · split <;> omega

/-- A day in 400 years: the century, the four years in it, the year in these and the day in it. -/
structure Parts (century four year dayOfYear : ℤ) : Prop where
  century_le : 0 ≤ century ∧ century ≤ 3
  four_le : 0 ≤ four ∧ four ≤ 24
  year_le : 0 ≤ year ∧ year ≤ 3
  day_le : 0 ≤ dayOfYear ∧ dayOfYear ≤ 365
  leap : dayOfYear = 365 → year = 3 ∧ (four = 24 → century = 3)

section Parts

variable {era century four year dayOfYear : ℤ}

theorem Parts.fitsYear (h : Parts century four year dayOfYear) :
    FitsYear (400 * era + 100 * century + 4 * four + year) dayOfYear := by
  obtain ⟨hc, hf, hy, hd, hl⟩ := h
  unfold FitsYear IsLeap
  omega

theorem exists_parts {marchYear : ℤ} (h : FitsYear marchYear dayOfYear) :
    ∃ era century four year, marchYear = 400 * era + 100 * century + 4 * four + year ∧
      Parts century four year dayOfYear := by
  refine ⟨marchYear / 400, marchYear % 400 / 100, marchYear % 100 / 4, marchYear % 4, by omega, ?_⟩
  unfold FitsYear IsLeap at h
  exact ⟨by omega, by omega, by omega, by omega, by omega⟩

theorem Parts.days (h : Parts century four year dayOfYear) {marchYear : ℤ}
    (hyr : marchYear = 400 * era + 100 * century + 4 * four + year) :
    365 * marchYear + marchYear / 4 - marchYear / 100 + marchYear / 400 + dayOfYear =
      146097 * era + 36524 * century + 1461 * four + 365 * year + dayOfYear := by
  obtain ⟨hc, hf, hy, -, -⟩ := h
  omega

theorem Parts.ofDayNumber_eq (h : Parts century four year dayOfYear) {n : ℤ}
    (hn : n + 719468 = 146097 * era + 36524 * century + 1461 * four + 365 * year + dayOfYear) :
    ofDayNumber n = ofMarchYear (400 * era + 100 * century + 4 * four + year) dayOfYear := by
  obtain ⟨hc, hf, hy, hd, hl⟩ := h
  have he : (n + 719468) / 146097 = era := by omega
  have hc' : min ((n + 719468) % 146097 / 36524) 3 = century := by omega
  have hd₁ : (n + 719468) % 146097 - 36524 * century =
      1461 * four + 365 * year + dayOfYear := by omega
  have hf' : (1461 * four + 365 * year + dayOfYear) / 1461 = four := by omega
  have hd₂ : (1461 * four + 365 * year + dayOfYear) % 1461 = 365 * year + dayOfYear := by omega
  have hy' : min ((365 * year + dayOfYear) / 365) 3 = year := by omega
  unfold ofDayNumber
  dsimp only
  rw [he, hc', hd₁, hf', hd₂, hy', add_sub_cancel_left]

theorem exists_parts_of_day (n : ℤ) : ∃ era century four year dayOfYear,
    n + 719468 = 146097 * era + 36524 * century + 1461 * four + 365 * year + dayOfYear ∧
      Parts century four year dayOfYear := by
  generalize he : (n + 719468) / 146097 = era
  generalize hd : (n + 719468) % 146097 = days
  generalize hc : min (days / 36524) 3 = century
  generalize hf : (days - 36524 * century) / 1461 = four
  generalize hd₂ : (days - 36524 * century) % 1461 = days₂
  generalize hy : min (days₂ / 365) 3 = year
  refine ⟨era, century, four, year, days₂ - 365 * year, by omega, ?_⟩
  exact ⟨by omega, by omega, by omega, by omega, by omega⟩

end Parts

theorem dayNumber_ofMarchYear (h : FitsYear year dayOfYear) :
    (ofMarchYear year dayOfYear).dayNumber =
      365 * year + year / 4 - year / 100 + year / 400 + dayOfYear - 719468 := by
  unfold dayNumber
  rw [(ofMarchYear_eq h).1, (ofMarchYear_eq h).2]

@[simp] theorem dayNumber_ofDayNumber (n : ℤ) : (ofDayNumber n).dayNumber = n := by
  obtain ⟨era, century, four, year, dayOfYear, hn, hp⟩ := exists_parts_of_day n
  rw [hp.ofDayNumber_eq hn, dayNumber_ofMarchYear hp.fitsYear, hp.days rfl]
  omega

theorem ofDayNumber_valid (n : ℤ) : (ofDayNumber n).Valid := by
  obtain ⟨era, century, four, year, dayOfYear, hn, hp⟩ := exists_parts_of_day n
  rw [hp.ofDayNumber_eq hn]
  exact ofMarchYear_valid hp.fitsYear

theorem Valid.fitsYear {d : Date} (h : d.Valid) : FitsYear d.marchYear d.dayOfYear := by
  obtain ⟨year, month, day⟩ := d
  obtain ⟨hlw, hh, hp, hle⟩ := h
  dsimp only at hlw hh hp hle
  unfold FitsYear marchYear dayOfYear
  by_cases hf : month = 2
  · subst hf
    simp only [daysInMonth, if_true] at hle
    split at hle
    case isTrue hl =>
      norm_num [hl]
      omega
    case isFalse => norm_num; omega
  · simp only [daysInMonth] at hle
    split at hle <;> dsimp only <;> omega

theorem Valid.ofMarchYear_eq {d : Date} (h : d.Valid) :
    ofMarchYear d.marchYear d.dayOfYear = d := by
  obtain ⟨year, month, day⟩ := d
  obtain ⟨hl, hh, hp, hle⟩ := h
  dsimp only at hl hh hp hle
  have hd : day ≤ 31 ∧ (month = 2 → day ≤ 29) ∧
      (month = 4 ∨ month = 6 ∨ month = 9 ∨ month = 11 → day ≤ 30) := by
    unfold daysInMonth at hle
    split at hle
    · split at hle <;> omega
    · split at hle <;> omega
  unfold ofMarchYear marchYear dayOfYear
  dsimp only
  have hm : (5 * ((153 * ((month + 9) % 12) + 2) / 5 + day - 1) + 2) / 153 = (month + 9) % 12 := by
    interval_cases month <;> omega
  rw [hm, Date.mk.injEq]
  by_cases he : month ≤ 2
  · have hs : (month + 9) % 12 = month + 9 := by omega
    exact ⟨by omega, by omega, by omega⟩
  · have hs : (month + 9) % 12 = month - 3 := by omega
    rw [if_neg he, if_pos (by omega)]
    exact ⟨rfl, by omega, by omega⟩

theorem Valid.ofDayNumber_dayNumber {d : Date} (h : d.Valid) : ofDayNumber d.dayNumber = d := by
  obtain ⟨era, century, four, year, hy, hp⟩ := exists_parts h.fitsYear
  have hd := hp.days hy
  have hn : d.dayNumber + 719468 =
      146097 * era + 36524 * century + 1461 * four + 365 * year + d.dayOfYear := by
    unfold dayNumber
    omega
  rw [hp.ofDayNumber_eq hn, ← hy, h.ofMarchYear_eq]

/-- The day of the month after a day: the next one, or the first after the end of a month. -/
theorem day_ofDayNumber_add_one (n : ℤ) : (ofDayNumber (n + 1)).day = (ofDayNumber n).day + 1 ∨
      (ofDayNumber (n + 1)).day = 1 ∧ 28 ≤ (ofDayNumber n).day := by
  have hv := ofDayNumber_valid n
  have hn := dayNumber_ofDayNumber n
  generalize ofDayNumber n = d at hv hn
  obtain ⟨year, month, day⟩ := d
  obtain ⟨hlw, hh, hp, hle⟩ := hv
  dsimp only at hlw hh hp hle
  by_cases hl : day = daysInMonth year month
  · -- The first day of the next month has the next number.
    have hnx : ofDayNumber (n + 1) =
        if month = 12 then ⟨year + 1, 1, 1⟩ else ⟨year, month + 1, 1⟩ := by
      have hf : (if month = 12 then ⟨year + 1, 1, 1⟩ else ⟨year, month + 1, 1⟩ : Date).Valid := by
        split
        · exact ⟨le_rfl, by norm_num, le_rfl,
            (by norm_num : (1 : ℤ) ≤ 28).trans (daysInMonth_ge _ _)⟩
        · exact ⟨by dsimp only; omega, by dsimp only; omega, le_rfl,
            (by norm_num : (1 : ℤ) ≤ 28).trans (daysInMonth_ge _ _)⟩
      rw [← hf.ofDayNumber_dayNumber]
      congr 1
      rw [← hn, hl]
      unfold dayNumber marchYear dayOfYear daysInMonth IsLeap
      interval_cases month <;> norm_num <;> omega
    right
    rw [hnx]
    refine ⟨?_, hl ▸ daysInMonth_ge year month⟩
    split <;> rfl
  · have hnx : ofDayNumber (n + 1) = ⟨year, month, day + 1⟩ := by
      have hv : (⟨year, month, day + 1⟩ : Date).Valid :=
        ⟨hlw, hh, by dsimp only; omega, by dsimp only; omega⟩
      rw [← hv.ofDayNumber_dayNumber]
      congr 1
      rw [← hn]
      unfold dayNumber marchYear dayOfYear
      dsimp only
      omega
    left
    rw [hnx]

end Date
end SyslogNg.Calendar
