import Keyspace.Version

/-!
# Deadlines

A key with a time to live is stored with an absolute deadline in milliseconds
since the epoch.  All arithmetic on deadlines saturates at `horizon`, the last
millisecond that a 64-bit word can name, and the relative part is at least one
millisecond, so that a computed deadline is never in the past.  Before the horizon
it lies ahead; at the horizon it is that very instant.
-/

namespace Keyspace

/-- The last representable instant. -/
def horizon : Millis := UInt64.size - 1

/-- An instant or a duration, cut off at the horizon. -/
def saturate (millis : Millis) : Millis :=
  min millis horizon

/-- The unit of a time to live. -/
inductive TtlUnit where
  | seconds
  | millis
  deriving DecidableEq, Repr

/-- A time to live in milliseconds. -/
def TtlUnit.toMillis : TtlUnit → Nat → Millis
  | .seconds, ttl => saturate (ttl * 1000)
  | .millis, ttl => ttl

/-- How a time to live becomes a deadline. -/
inductive ExpiryMode where
  /-- It counts from now. -/
  | absolute
  /-- It counts from the mint time of the version that sets it. -/
  | versionRelative
  deriving DecidableEq, Repr, Inhabited

namespace ExpiryMode

/-- How much of a time to live is left at `now`.  A version minted in the
future and version 0 count as minted now. -/
def timeLeft (mode : ExpiryMode) (now : Millis) (ttl : Nat) (unit : TtlUnit)
    (version : Version) : Millis :=
  match mode with
  | .absolute => unit.toMillis ttl
  | .versionRelative =>
    if version = 0 then unit.toMillis ttl
    else unit.toMillis ttl - (now - version.mintMicros / 1000)

/-- The deadline of a time to live set at `now`. -/
def deadline (mode : ExpiryMode) (now : Millis) (ttl : Nat) (unit : TtlUnit)
    (version : Version) : Millis :=
  saturate (now + max (mode.timeLeft now ttl unit version) 1)

end ExpiryMode

/-- The circumstances under which a command runs.  One reading of the clock
serves the whole command: every call that it makes to the store is answered at
that moment.  An engine that reads its clock at every call can see it move
between two calls of one command; such runs are not described here. -/
structure Context where
  clock : Clock
  mode : ExpiryMode
  deriving DecidableEq, Repr, Inhabited

namespace Context

/-- The reading of the clock in milliseconds. -/
def now (context : Context) : Millis :=
  context.clock.millis

/-- The deadline of a time to live set now. -/
def deadline (context : Context) (ttl : Nat) (unit : TtlUnit) (version : Version) :
    Millis :=
  context.mode.deadline context.now ttl unit version

end Context

/-- Milliseconds from the clock reading to a deadline, 0 once it has passed. -/
def Clock.remaining (clock : Clock) (deadline : Millis) : Millis :=
  deadline - clock.millis

end Keyspace
