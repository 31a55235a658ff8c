import SyslogNg.Foundations.DirectMapped
import SyslogNg.Time.TimeCache

/-!
# Are the time caches transparent?

The caches of `lib/timeutils.c` with all members of `struct tm` and with any C library behind them.
A history of calls has the answers of the library exactly when it stays clear of three things: a
slot that is still zeroed is taken for the conversion of the time 0, a conversion that fails leaves
what the buffer of an earlier caller held in its slot, and `cached_mktime` does not normalize the
fields of a caller that it has the result for.
-/
namespace SyslogNg.TimeUtils

open DirectMapped

/-- `struct tm` with the members that the other models leave out -/
structure StructTm extends Tm where
  wday : ℤ := 0
  yday : ℤ := 0
  zone : Option (List UInt8) := none
  deriving DecidableEq

/-- `localtime_r`, `gmtime_r` and `mktime`. A conversion that fails leaves the buffer alone, as does
a `mktime` that returns -1 for a failure. -/
structure CLibrary where
  localtime : ℤ → Option StructTm
  gmtime : ℤ → Option StructTm
  mktime : StructTm → ℤ × StructTm
  /-- The time 0 is a time of a day. -/
  localtime_zero : ∃ tm, localtime 0 = some tm ∧ tm.mday ≠ 0
  gmtime_zero : ∃ tm, gmtime 0 = some tm ∧ tm.mday ≠ 0
  /-- The other members are ignored. -/
  mktime_congr : ∀ {tm tm' : StructTm}, tm.sameTime tm'.toTm = true → (mktime tm).1 = (mktime tm').1
  /-- There is no day 0 of January 1900. -/
  mktime_zero : ∀ {tm : StructTm}, tm.sameTime {} = true → (mktime tm).2 ≠ tm

abbrev TimeSlot := Slot ℤ StructTm

def zeroed : TimeSlot := ⟨0, {}⟩

structure Caches where
  localTimeCache : Fin 64 → TimeSlot := fun _ => zeroed
  gmTimeCache : Fin 64 → TimeSlot := fun _ => zeroed
  mktimePrevTm : StructTm := {}
  mktimePrevTime : ℤ := 0

/-- A call with what the caller's buffer holds before it; that of `get_local_timezone_ofs` is a
local variable. -/
inductive TimeCall
  | cachedLocaltime (when : ℤ) (tm : StructTm)
  | cachedGmtime (when : ℤ) (tm : StructTm)
  | cachedMktime (tm : StructTm)
  | getLocalTimezoneOfs (when : ℤ) (tm : StructTm)
  | cleanTimeCache

/-- What a caller gets: the returned number and the buffer, of those that there are -/
structure TimeAnswer where
  result : Option ℤ := none
  tm : Option StructTm := none
  deriving DecidableEq

variable (lib : CLibrary)

def Caches.apply (c : Caches) : TimeCall → Caches
  | .cachedLocaltime when tm | .getLocalTimezoneOfs when tm =>
    { c with localTimeCache := fill slot lib.localtime c.localTimeCache when tm }
  | .cachedGmtime when tm => { c with gmTimeCache := fill slot lib.gmtime c.gmTimeCache when tm }
  | .cachedMktime tm =>
    if tm.sameTime c.mktimePrevTm.toTm then c
    else { c with mktimePrevTm := tm, mktimePrevTime := (lib.mktime tm).1 }
  | .cleanTimeCache =>
    { c with gmTimeCache := fun _ => zeroed, localTimeCache := fun _ => zeroed }

def Caches.answer (c : Caches) : TimeCall → TimeAnswer
  | .cachedLocaltime when tm => { tm := some (find slot lib.localtime c.localTimeCache when tm) }
  | .cachedGmtime when tm => { tm := some (find slot lib.gmtime c.gmTimeCache when tm) }
  | .cachedMktime tm =>
    if tm.sameTime c.mktimePrevTm.toTm then { result := some c.mktimePrevTime, tm := some tm }
    else { result := some (lib.mktime tm).1, tm := some (lib.mktime tm).2 }
  | .getLocalTimezoneOfs when tm =>
    { result := some (find slot lib.localtime c.localTimeCache when tm).gmtoff }
  | .cleanTimeCache => {}

def CLibrary.answer : TimeCall → TimeAnswer
  | .cachedLocaltime when tm => { tm := some (DirectMapped.answer lib.localtime when tm) }
  | .cachedGmtime when tm => { tm := some (DirectMapped.answer lib.gmtime when tm) }
  | .cachedMktime tm => { result := some (lib.mktime tm).1, tm := some (lib.mktime tm).2 }
  | .getLocalTimezoneOfs when tm =>
    { result := some (DirectMapped.answer lib.localtime when tm).gmtoff }
  | .cleanTimeCache => {}

def Caches.answers : Caches → List TimeCall → List TimeAnswer
  | _, [] => []
  | c, call :: calls => c.answer lib call :: answers (c.apply lib call) calls

/-- The calls that the caches do not stand in the way of -/
def Caches.Clear (c : Caches) : TimeCall → Prop
  | .cachedLocaltime when tm => Fresh slot lib.localtime c.localTimeCache when tm zeroed
  | .cachedGmtime when tm => Fresh slot lib.gmtime c.gmTimeCache when tm zeroed
  | .cachedMktime tm => tm.sameTime c.mktimePrevTm.toTm = true → (lib.mktime tm).2 = tm
  | .getLocalTimezoneOfs when tm =>
    when = (c.localTimeCache (slot when)).key →
      (c.localTimeCache (slot when) = zeroed →
        (DirectMapped.answer lib.localtime when tm).gmtoff = 0) ∧
      (c.localTimeCache (slot when) ≠ zeroed → (lib.localtime when).isSome = true ∨
        (c.localTimeCache (slot when)).value.gmtoff = tm.gmtoff)
  | .cleanTimeCache => True

/-- What the caches hold, in every history -/
structure Caches.Valid (c : Caches) : Prop where
  localtime : DirectMapped.Valid lib.localtime c.localTimeCache zeroed
  gmtime : DirectMapped.Valid lib.gmtime c.gmTimeCache zeroed
  mktime : c.mktimePrevTm = {} ∨ c.mktimePrevTime = (lib.mktime c.mktimePrevTm).1

variable {lib} {c : Caches}

theorem valid_zeroed : Caches.Valid lib {} := ⟨valid_unused, valid_unused, .inl rfl⟩

theorem Caches.Valid.apply (h : c.Valid lib) (call : TimeCall) : (c.apply lib call).Valid lib := by
  cases call with
  | cachedLocaltime when tm => exact ⟨h.localtime.fill, h.gmtime, h.mktime⟩
  | cachedGmtime when tm => exact ⟨h.localtime, h.gmtime.fill, h.mktime⟩
  | getLocalTimezoneOfs when tm => exact ⟨h.localtime.fill, h.gmtime, h.mktime⟩
  | cleanTimeCache => exact ⟨valid_unused, valid_unused, h.mktime⟩
  | cachedMktime tm =>
    rw [Caches.apply]
    split_ifs
    · exact h
    · exact ⟨h.localtime, h.gmtime, .inr rfl⟩

theorem CLibrary.mistakable {convert : ℤ → Option StructTm}
    (hz : ∃ tm, convert 0 = some tm ∧ tm.mday ≠ 0) :
    ∃ tm, convert zeroed.key = some tm ∧ tm ≠ zeroed.value := by
  obtain ⟨tm, htm, hd⟩ := hz
  refine ⟨tm, htm, ?_⟩
  rintro rfl
  exact hd rfl

theorem Caches.Valid.answer_eq_iff (h : c.Valid lib) (call : TimeCall) :
    c.answer lib call = lib.answer call ↔ c.Clear lib call := by
  cases call with
  | cachedLocaltime when tm =>
    rw [Clear, ← h.localtime.find_eq_iff (CLibrary.mistakable lib.localtime_zero), Caches.answer,
      CLibrary.answer]
    simp
  | cachedGmtime when tm =>
    rw [Clear, ← h.gmtime.find_eq_iff (CLibrary.mistakable lib.gmtime_zero), Caches.answer,
      CLibrary.answer]
    simp
  | getLocalTimezoneOfs when tm =>
    rw [Caches.answer, CLibrary.answer, TimeAnswer.mk.injEq, Option.some.injEq]
    refine (and_iff_left rfl).trans ((h.localtime.map_find_eq_iff (·.gmtoff)).trans ?_)
    exact forall_congr' fun _ => and_congr_left' (forall_congr' fun _ => eq_comm)
  | cleanTimeCache => exact ⟨fun _ => trivial, fun _ => rfl⟩
  | cachedMktime tm =>
    rw [Clear, Caches.answer, CLibrary.answer]
    split_ifs with hs
    · rw [TimeAnswer.mk.injEq, Option.some.injEq, Option.some.injEq]
      constructor
      · rintro ⟨-, htm⟩ -
        exact htm.symm
      · intro hn
        have htm := hn hs
        -- a zeroed entry would mean a day 0
        have hp : c.mktimePrevTm ≠ {} := by
          intro hz
          rw [hz] at hs
          exact lib.mktime_zero hs htm
        rw [h.mktime.resolve_left hp, lib.mktime_congr hs]
        exact ⟨rfl, htm.symm⟩
    · simp [hs]

/-- A history has the answers of the library exactly when the caches stand in the way of none of its
calls. -/
theorem answers_eq_iff (calls : List TimeCall) :
    Caches.answers lib {} calls = calls.map lib.answer ↔
      Along (Caches.apply lib) (Caches.Clear lib) {} calls := by
  suffices hall : ∀ c : Caches, c.Valid lib → (c.answers lib calls = calls.map lib.answer ↔
      Along (Caches.apply lib) (Caches.Clear lib) c calls) from hall {} valid_zeroed
  induction calls with
  | nil => exact fun _ _ => ⟨fun _ => trivial, fun _ => rfl⟩
  | cons call calls ih =>
    intro c h
    rw [Caches.answers, List.map_cons, List.cons.injEq, Along, h.answer_eq_iff, ih _ (h.apply call)]

/-- A library for a host whose local time is universal time -/
def utcLibrary : CLibrary where
  localtime when := some { gmtime when with zone := some [0x55, 0x54, 0x43] }
  gmtime when := some { gmtime when with zone := some [0x47, 0x4d, 0x54] }
  mktime tm := (tm.wall, { gmtime tm.wall with zone := some [0x55, 0x54, 0x43] })
  localtime_zero := ⟨_, rfl, by decide⟩
  gmtime_zero := ⟨_, rfl, by decide⟩
  mktime_congr hsame := Tm.wall_eq_of_sameTime hsame
  mktime_zero := by
    intro tm hsame htm
    have hday : (gmtime tm.wall).mday = tm.mday := congrArg (·.mday) htm
    obtain ⟨-, -, -, hmday, -⟩ := Tm.sameTime_iff.mp hsame
    rw [Tm.wall_eq_of_sameTime hsame, hmday] at hday
    exact absurd hday (by decide)

/-- The first conversion of the time 0 gives the zeroed slot instead of a day. -/
theorem answers_zero_time : Caches.answers utcLibrary {} [.cachedGmtime 0 {}] ≠
    [TimeCall.cachedGmtime 0 {}].map utcLibrary.answer := by
  decide

end SyslogNg.TimeUtils
