/-!
# Versions and the clock

Every write carries a version, a 64-bit word.  The upper 56 bits of a minted
version hold its mint time in microseconds and the low byte counts versions
minted within one microsecond.  Version 0 means "unversioned".

A clock reading is a signed count of microseconds since the epoch; a clock set
before the epoch reads as the epoch itself.
-/

namespace Keyspace

/-- A write version.  Newer versions are larger; 0 marks an unversioned value. -/
abbrev Version := UInt64

/-- The time in microseconds at which a version was minted. -/
def Version.mintMicros (version : Version) : Nat :=
  (version >>> 8).toNat

/-- Milliseconds, either since the epoch or of a duration. -/
abbrev Millis := Nat

/-- A wall-clock reading. -/
structure Clock where
  /-- Microseconds since the epoch, negative before it. -/
  reading : Int
  deriving DecidableEq, Repr, Inhabited

namespace Clock

/-- Microseconds since the epoch, 0 before it. -/
def micros (clock : Clock) : Nat :=
  clock.reading.toNat

/-- Whole milliseconds since the epoch, 0 before it. -/
def millis (clock : Clock) : Millis :=
  clock.micros / 1000

/-- The version minted at this reading when `last` was the one minted before.
The time part is shifted into a 64-bit word and loses what does not fit; a
clock that stands still or runs backwards counts on from `last`. -/
def mint (clock : Clock) (last : Version) : Version :=
  max (UInt64.ofNat clock.micros <<< 8) (last + 1)

end Clock

end Keyspace
