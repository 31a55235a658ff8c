import SyslogNg.Foundations.TimingWheel

/-!
# The timer wheel

`modules/dbparser/timerwheel.c`: four levels of 1024, 64, 64 and 64 slots and a list for what is
beyond them. Times are `guint64`s. An entry is known by a number instead of its address, and what
is called back is the list of the entries' numbers with the time of the wheel at the call.
-/
namespace SyslogNg.PatternDb

open TimingWheel

structure TWEntry where
  id : ℕ
  target : ℕ
  deriving DecidableEq

/-- `TWLevel`: `mask` selects the bits of the slot, `slot_mask` the bits below them. -/
structure TWLevel where
  num : ℕ
  shift : ℕ
  slots : ℕ → List TWEntry

namespace TWLevel

variable (level : TWLevel)

def new (bits shift : ℕ) : TWLevel := ⟨2 ^ bits, shift, fun _ => []⟩

def unit : ℕ := 2 ^ level.shift

def slotOf (time : ℕ) : ℕ := time / level.unit % level.num

/-- `num << shift`, the time of one revolution -/
def span : ℕ := level.unit * level.num

/-- `base & ~slot_mask & ~mask`, the time of slot 0 -/
def levelBase (base : ℕ) : ℕ := base / level.span * level.span

def prepend (e : TWEntry) : TWLevel :=
  { level with slots := put TWEntry.target level.num level.unit level.slots e }

def clear (slot : ℕ) : TWLevel := { level with slots := Function.update level.slots slot [] }

/-- The slot that `timer_wheel_cascade` empties. -/
def sourceSlot (now : ℕ) : ℕ :=
  if level.slotOf now = level.num - 1 then 0 else level.slotOf now + 1

/-- Whether `timer_wheel_add_timer_entry` takes this level. -/
def covers (now base target : ℕ) : Bool :=
  !decide (target > (level.levelBase base + level.span) % 2 ^ 64) ||
    (decide (target < (level.levelBase base + level.span * 2) % 2 ^ 64) &&
      decide (level.slotOf now > level.slotOf target))

def unlink (id : ℕ) : TWLevel :=
  { level with slots := fun slot => (level.slots slot).filter (·.id != id) }

end TWLevel

/-- `TimerWheel`. `num_timers` is a `gint`; what matters is whether it is 0. -/
structure TimerWheel where
  levels : List TWLevel
  future : List TWEntry
  now : ℕ
  base : ℕ
  numTimers : ℕ

/-- The loop of `timer_wheel_add_timer_entry`: the levels, unless the target is over all of them. -/
def addTimerEntry (now base : ℕ) (e : TWEntry) : List TWLevel → Option (List TWLevel)
  | [] => none
  | level :: rest =>
    if level.covers now base e.target then some (level.prepend e :: rest)
    else (addTimerEntry now base e rest).map (level :: ·)

/-- `timer_wheel_cascade`: entries of the next slot of a level are moved to the level below, and
if this slot was the last one the level above follows. What is above the last level is `future`. -/
def cascade (now base : ℕ) : TWLevel → List TWLevel → List TWEntry → List TWLevel × List TWEntry
  | level, [], future =>
    let isNext (e : TWEntry) : Bool :=
      e.target < (level.levelBase base + 2 * level.span) % 2 ^ 64
    ([(future.filter isNext).foldl .prepend level], future.filter (!isNext ·))
  | level, source :: rest, future =>
    let slot := source.sourceSlot now
    let level := (source.slots slot).foldl .prepend level
    let source := source.clear slot
    if slot < source.num - 1 then (level :: source :: rest, future)
    else
      let above := cascade now base source rest future
      (level :: above.1, above.2)

namespace TimerWheel

variable (w : TimerWheel)

def new : TimerWheel where
  levels := [.new 10 0, .new 6 10, .new 6 16, .new 6 22]
  future := []
  now := 0
  base := 0
  numTimers := 0

def addEntry (e : TWEntry) : TimerWheel :=
  match addTimerEntry w.now w.base e w.levels with
  | some levels => { w with levels := levels }
  | none => { w with future := e :: w.future }

def unlink (id : ℕ) : TimerWheel :=
  { w with levels := w.levels.map (·.unlink id), future := w.future.filter (·.id != id) }

def addTimer (id timeout : ℕ) : TimerWheel :=
  { w.addEntry ⟨id, (w.now + timeout) % 2 ^ 64⟩ with numTimers := (w.numTimers + 1) % 2 ^ 32 }

def delTimer (id : ℕ) : TimerWheel :=
  { w.unlink id with numTimers := (w.numTimers + (2 ^ 32 - 1)) % 2 ^ 32 }

def modTimer (id timeout : ℕ) : TimerWheel :=
  (w.unlink id).addEntry ⟨id, (w.now + timeout) % 2 ^ 64⟩

def jump (newNow : ℕ) : TimerWheel :=
  { w with now := newNow, base := newNow / 1024 * 1024 }

def expire : List TWEntry × TimerWheel :=
  match w.levels with
  | [] => ([], w)
  | level :: rest =>
    let slot := level.slotOf w.now
    (level.slots slot,
      { w with
        levels := level.clear slot :: rest
        numTimers := (w.numTimers + (2 ^ 32 - (level.slots slot).length % 2 ^ 32)) % 2 ^ 32 })

/-- The end of an iteration: cascading behind the last slot, and the next time. -/
def next : TimerWheel :=
  match w.levels with
  | [] => { w with now := w.now + 1 }
  | level :: rest =>
    if level.slotOf w.now = level.num - 1 then
      let cascaded := cascade w.now w.base level rest w.future
      { w with
        levels := cascaded.1
        future := cascaded.2
        base := (w.base + level.num) % 2 ^ 64
        now := w.now + 1 }
    else { w with now := w.now + 1 }

/-- The loop of `timer_wheel_set_time`, for so many iterations. The entries are called back with
the time of the wheel. -/
def advance (newNow : ℕ) : ℕ → TimerWheel → List (ℕ × ℕ) × TimerWheel
  | 0, w => ([], w)
  | n + 1, w =>
    let expired := w.expire
    let calls := expired.1.map fun e => (e.id, w.now)
    if expired.2.numTimers = 0 then (calls, expired.2.jump newNow)
    else
      let rest := advance newNow n expired.2.next
      (calls ++ rest.1, rest.2)

def setTime (newNow : ℕ) : List (ℕ × ℕ) × TimerWheel :=
  if w.now ≥ newNow then ([], w)
  else if w.numTimers = 0 then ([], w.jump newNow)
  else advance newNow (newNow - w.now) w

end TimerWheel
end SyslogNg.PatternDb
