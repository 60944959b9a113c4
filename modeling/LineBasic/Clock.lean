/-!
# The clock

The machine has no clock of its own: whenever the host calls, it says what its clocks show.
-/

namespace LineBasic

set_option autoImplicit false

structure Clock where
  /-- Nanoseconds of a clock that never goes back. -/
  nanos : Nat := 0
  /-- Milliseconds since the start of 1970. -/
  millis : Int := nanos / 1000000
  /-- The local time of day, as hours, minutes and seconds. -/
  timeOfDay : String := "00:00:00"
  /-- The local date, as year, month and day. -/
  date : String := "1970-01-01"
deriving DecidableEq, Repr, Inhabited

end LineBasic
