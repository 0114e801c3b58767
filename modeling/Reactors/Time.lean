/-! # Time values

    A time value is a magnitude with a unit; only the magnitude zero may go without one.  Time is
    counted in nanoseconds.
-/

namespace Reactors

/-- The units of time. -/
inductive Time.Unit where
  | nanosecond
  | microsecond
  | millisecond
  | second
  | minute
  | hour
  | day
  | week
  deriving DecidableEq

namespace Time.Unit

/-- The length of a unit in nanoseconds. -/
def nanoseconds : Time.Unit → Nat
  | nanosecond => 1
  | microsecond => 1000
  | millisecond => 1000 * 1000
  | second => 1000 * 1000 * 1000
  | minute => 60 * (1000 * 1000 * 1000)
  | hour => 3600 * (1000 * 1000 * 1000)
  | day => 86400 * (1000 * 1000 * 1000)
  | week => 604800 * (1000 * 1000 * 1000)

/-- The spellings of a unit. -/
def spellings : Time.Unit → List String
  | nanosecond => ["ns", "nsec", "nsecs"]
  | microsecond => ["us", "usec", "usecs"]
  | millisecond => ["ms", "msec", "msecs"]
  | second => ["s", "sec", "secs", "second", "seconds"]
  | minute => ["min", "mins", "minute", "minutes"]
  | hour => ["h", "hour", "hours"]
  | day => ["d", "day", "days"]
  | week => ["week", "weeks"]

/-- All units, the shortest first. -/
def all : List Time.Unit :=
  [nanosecond, microsecond, millisecond, second, minute, hour, day, week]

/-- The unit with a spelling. -/
def ofText? (s : String) : Option Time.Unit :=
  all.find? fun u => u.spellings.contains s

/-- What is said about a text that spells no unit. -/
def unknownText (s : String) : String := "unknown time unit `" ++ s ++ "`"

end Time.Unit

/-- A span of time. -/
structure Time where
  /-- How many units. -/
  magnitude : Nat
  /-- The unit; without one the magnitude counts nanoseconds. -/
  unit : Option Time.Unit
  deriving DecidableEq

namespace Time

/-- The length in nanoseconds. -/
def nanoseconds (t : Time) : Nat :=
  t.magnitude * (t.unit.map Unit.nanoseconds).getD 1

end Time

end Reactors
