import SyslogNg.Foundations.Calendar
import SyslogNg.Foundations.Run

/-!
# Broken-down times and their caches

`struct tm`, the conversions of the C library for the time zone of the host, and the caches that
`lib/timeutils.c` keeps in front of them for each thread. The slots of a cache are zeroed at the
start; such a slot looks like the conversion of the time 0.
-/
namespace SyslogNg.TimeUtils

open Calendar Function

structure Tm where
  sec : ℤ := 0
  min : ℤ := 0
  hour : ℤ := 0
  mday : ℤ := 0
  mon : ℤ := 0
  year : ℤ := 0
  isdst : ℤ := 0
  gmtoff : ℤ := 0
  deriving DecidableEq, Repr

namespace Tm

def date (tm : Tm) : Date := ⟨tm.year + 1900 + tm.mon / 12, tm.mon % 12 + 1, tm.mday⟩

/-- The seconds that the fields denote if they are taken as UTC. -/
def wall (tm : Tm) : ℤ := 86400 * tm.date.dayNumber + 3600 * tm.hour + 60 * tm.min + tm.sec

/-- The fields of a time without a leap second. -/
structure Normal (tm : Tm) : Prop where
  sec : 0 ≤ tm.sec ∧ tm.sec ≤ 59
  min : 0 ≤ tm.min ∧ tm.min ≤ 59
  hour : 0 ≤ tm.hour ∧ tm.hour ≤ 23
  mon : 0 ≤ tm.mon ∧ tm.mon ≤ 11
  date : tm.date.Valid

/-- The fields that `cached_mktime` compares. -/
def sameTime (a b : Tm) : Bool :=
  a.sec == b.sec && a.min == b.min && a.hour == b.hour && a.mday == b.mday && a.mon == b.mon &&
    a.year == b.year && a.isdst == b.isdst

theorem sameTime_iff {a b : Tm} : a.sameTime b = true ↔ a.sec = b.sec ∧ a.min = b.min ∧
    a.hour = b.hour ∧ a.mday = b.mday ∧ a.mon = b.mon ∧ a.year = b.year ∧ a.isdst = b.isdst := by
  simp [sameTime, and_assoc]

theorem wall_eq_of_sameTime {a b : Tm} (h : a.sameTime b = true) : a.wall = b.wall := by
  obtain ⟨hs, hmn, hh, hm, hmo, hy, -⟩ := sameTime_iff.mp h
  unfold wall date
  rw [hs, hmn, hh, hm, hmo, hy]

end Tm

def brokenDown (seconds isdst gmtoff : ℤ) : Tm :=
  let d := Date.ofDayNumber (seconds / 86400)
  { sec := seconds % 60
    min := seconds / 60 % 60
    hour := seconds / 3600 % 24
    mday := d.day
    mon := d.month - 1
    year := d.year - 1900
    isdst
    gmtoff }

theorem brokenDown_date (seconds isdst gmtoff : ℤ) :
    (brokenDown seconds isdst gmtoff).date = Date.ofDayNumber (seconds / 86400) := by
  have hv := Date.ofDayNumber_valid (seconds / 86400)
  unfold brokenDown Tm.date
  generalize Date.ofDayNumber (seconds / 86400) = d at hv
  obtain ⟨hl, hh, -, -⟩ := hv
  dsimp only at hl hh ⊢
  rw [Date.mk.injEq]
  exact ⟨by omega, by omega, rfl⟩

theorem brokenDown_normal (seconds isdst gmtoff : ℤ) :
    (brokenDown seconds isdst gmtoff).Normal := by
  have hv := Date.ofDayNumber_valid (seconds / 86400)
  refine ⟨?_, ?_, ?_, ?_, brokenDown_date seconds isdst gmtoff ▸ hv⟩
  · change 0 ≤ seconds % 60 ∧ seconds % 60 ≤ 59
    omega
  · change 0 ≤ seconds / 60 % 60 ∧ seconds / 60 % 60 ≤ 59
    omega
  · change 0 ≤ seconds / 3600 % 24 ∧ seconds / 3600 % 24 ≤ 23
    omega
  · have hl := hv.month_pos
    have hh := hv.month_le
    change 0 ≤ (Date.ofDayNumber (seconds / 86400)).month - 1 ∧
      (Date.ofDayNumber (seconds / 86400)).month - 1 ≤ 11
    omega

/-! ### The time zone of the host -/

/-- The offset of local time at each instant, and what `mktime` makes of a local time whose
`tm_isdst` is -1: if there is an instant with this local time, then such an instant. -/
structure Zone where
  offset : ℤ → ℤ
  isdst : ℤ → ℤ
  mktime : ℤ → ℤ
  mktime_local : ∀ t, mktime (t + offset t) + offset (mktime (t + offset t)) = t + offset t

namespace Zone

def utc : Zone where
  offset _ := 0
  isdst _ := 0
  mktime wall := wall
  mktime_local _ := add_zero _

variable (z : Zone)

def localtime (t : ℤ) : Tm := brokenDown (t + z.offset t) (z.isdst t) (z.offset t)

/-- Some instant has the local time. -/
def Shows (wall : ℤ) : Prop := ∃ t, t + z.offset t = wall

theorem shows_iff {z : Zone} {wall : ℤ} :
    z.Shows wall ↔ z.mktime wall + z.offset (z.mktime wall) = wall := by
  refine ⟨?_, fun h => ⟨_, h⟩⟩
  rintro ⟨t, rfl⟩
  exact z.mktime_local t

end Zone

def gmtime (t : ℤ) : Tm := brokenDown t 0 0

/-! ### The caches -/

structure TimeCache where
  when : ℤ := 0
  tm : Tm := {}
  deriving DecidableEq

structure TimeState where
  localTimeCache : Fin 64 → TimeCache := fun _ => {}
  gmTimeCache : Fin 64 → TimeCache := fun _ => {}
  mktimePrevTm : Tm := {}
  mktimePrevTime : ℤ := 0

def slot (when : ℤ) : Fin 64 := Fin.ofNat 64 (when % 64).toNat

/-- A conversion with a cache in front of it. -/
def cachedTime (convert : ℤ → Tm) (cache : Fin 64 → TimeCache) (when : ℤ) :
    Tm × (Fin 64 → TimeCache) :=
  if when = (cache (slot when)).when then ((cache (slot when)).tm, cache)
  else (convert when, update cache (slot when) ⟨when, convert when⟩)

def cachedLocaltime (z : Zone) (st : TimeState) (when : ℤ) : Tm × TimeState :=
  let converted := cachedTime z.localtime st.localTimeCache when
  (converted.1, { st with localTimeCache := converted.2 })

def cachedGmtime (st : TimeState) (when : ℤ) : Tm × TimeState :=
  let converted := cachedTime gmtime st.gmTimeCache when
  (converted.1, { st with gmTimeCache := converted.2 })

/-- `cached_mktime`: the fields are normalized only if the result is not the stored one. -/
def cachedMktime (z : Zone) (st : TimeState) (tm : Tm) : ℤ × Tm × TimeState :=
  if tm.sameTime st.mktimePrevTm then (st.mktimePrevTime, tm, st)
  else
    let t := z.mktime tm.wall
    (t, z.localtime t, { st with mktimePrevTm := tm, mktimePrevTime := t })

def getLocalTimezoneOfs (z : Zone) (st : TimeState) (when : ℤ) : ℤ × TimeState :=
  let converted := cachedLocaltime z st when
  (converted.1.gmtoff, converted.2)

/-! ### Every history -/

/-- What is done with the caches; dates are converted with a `tm_isdst` of -1. -/
inductive TimeOp
  | localtime (when : ℤ)
  | gmtime (when : ℤ)
  | mktime (tm : Tm)

def TimeState.apply (z : Zone) (st : TimeState) : TimeOp → TimeState
  | .localtime when => (cachedLocaltime z st when).2
  | .gmtime when => (cachedGmtime st when).2
  | .mktime tm => (cachedMktime z st { tm with isdst := -1 }).2.2

def timeSystem (z : Zone) : System TimeState TimeOp where
  init st := st = {}
  step st op st' := st' = st.apply z op

/-- Each slot is still empty, or has the conversion of its time. -/
def CacheValid (convert : ℤ → Tm) (cache : Fin 64 → TimeCache) : Prop :=
  ∀ i, cache i = {} ∨ (cache i).tm = convert (cache i).when

structure TimeState.Valid (z : Zone) (st : TimeState) : Prop where
  localtime : CacheValid z.localtime st.localTimeCache
  gmtime : CacheValid TimeUtils.gmtime st.gmTimeCache
  mktime : st.mktimePrevTm.isdst = -1 → st.mktimePrevTime = z.mktime st.mktimePrevTm.wall

theorem slot_zero : slot 0 = 0 := rfl

variable {cache : Fin 64 → TimeCache} {convert : ℤ → Tm}

theorem CacheValid.cachedTime (h : CacheValid convert cache) (when : ℤ) :
    CacheValid convert (TimeUtils.cachedTime convert cache when).2 := by
  unfold TimeUtils.cachedTime
  split
  · exact h
  · intro i
    dsimp only
    by_cases hi : i = slot when
    · subst hi
      right
      rw [update_self]
    · rw [update_of_ne hi]
      exact h i

/-- The conversion is right, unless the slot of the time 0 is still empty. -/
theorem CacheValid.cachedTime_eq
    (h : CacheValid convert cache) {when : ℤ} (hu : when ≠ 0 ∨ cache 0 ≠ {}) :
    (TimeUtils.cachedTime convert cache when).1 = convert when := by
  unfold TimeUtils.cachedTime
  split
  case isFalse => rfl
  case isTrue hw =>
    rcases h (slot when) with he | htm
    · rw [he] at hw
      obtain rfl : when = 0 := hw
      rcases hu with hne | hne
      · exact absurd rfl hne
      · exact absurd he hne
    · rw [htm, ← hw]

theorem cachedTime_zero (he : cache 0 = {}) :
    TimeUtils.cachedTime convert cache 0 = ({}, cache) := by
  unfold TimeUtils.cachedTime
  rw [slot_zero, he]
  rfl

theorem TimeState.Valid.cachedMktime_eq {z : Zone} {st : TimeState} (h : st.Valid z) {tm : Tm}
    (hi : tm.isdst = -1) :
    (cachedMktime z st tm).1 = z.mktime tm.wall ∧ (cachedMktime z st tm).2.2.Valid z ∧
      (cachedMktime z st tm).2.2.localTimeCache = st.localTimeCache := by
  unfold cachedMktime
  split
  case isTrue hs =>
    obtain ⟨-, -, -, -, -, -, hd⟩ := Tm.sameTime_iff.mp hs
    rw [Tm.wall_eq_of_sameTime hs]
    exact ⟨h.mktime (hd.symm.trans hi), h, rfl⟩
  case isFalse => exact ⟨rfl, ⟨h.localtime, h.gmtime, fun _ => rfl⟩, rfl⟩

theorem TimeState.Valid.apply {z : Zone} {st : TimeState} (h : st.Valid z) (op : TimeOp) :
    (st.apply z op).Valid z := by
  cases op with
  | localtime when => exact ⟨h.localtime.cachedTime when, h.gmtime, h.mktime⟩
  | gmtime when => exact ⟨h.localtime, h.gmtime.cachedTime when, h.mktime⟩
  | mktime tm => exact (h.cachedMktime_eq rfl).2.1

theorem valid_of_reachable {z : Zone} {st : TimeState} (h : (timeSystem z).Reachable st) :
    st.Valid z := by
  apply h.invariant
  · rintro st rfl
    exact ⟨fun _ => .inl rfl, fun _ => .inl rfl, fun hd => absurd hd (by decide)⟩
  · rintro st op st' hst rfl
    exact hst.apply op

end SyslogNg.TimeUtils
