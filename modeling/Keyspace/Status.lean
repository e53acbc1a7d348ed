/-!
# Outcomes

A command reports one `Status`.  A call into the store itself can fail for one
of three reasons, a `Failure`, and `Failure.status` is the status under which a
command reports it.
-/

namespace Keyspace

/-- The outcome of a command. -/
inductive Status where
  | ok
  /-- The key was required to be absent, or the member was there before. -/
  | alreadyExists
  /-- The key, field or member does not exist. -/
  | notExist
  /-- A range of an existing sorted set selects nothing. -/
  | rangeEmpty
  | error
  | wrongArgCount
  | versionMismatch
  | wrongType
  | notANumber
  | overflow
  | outOfRange
  | noExpireSet
  deriving DecidableEq, Repr, Inhabited

namespace Status

/-- The number that stands for a status. -/
def code : Status → Int
  | ok => 0
  | notExist => 3
  | alreadyExists => 5
  | rangeEmpty => -12
  | error => -1
  | wrongArgCount => -5
  | versionMismatch => -11
  | wrongType => -13
  | notANumber => -15
  | overflow => -16
  | outOfRange => -19
  | noExpireSet => -26

/-- The word that stands for a status. -/
def name : Status → String
  | ok => "OK"
  | alreadyExists => "OK_BUT_ALREADY_EXISTS"
  | notExist => "OK_BUT_NOT_EXIST"
  | rangeEmpty => "OK_RANGE_EMPTY"
  | error => "ERROR"
  | wrongArgCount => "ERROR_WRONG_ARG_COUNT"
  | versionMismatch => "ERROR_VERSION_MISMATCH"
  | wrongType => "ERROR_WRONG_TYPE"
  | notANumber => "ERROR_NOT_A_NUMBER"
  | overflow => "ERROR_OVERFLOW"
  | outOfRange => "ERROR_OUT_OF_RANGE"
  | noExpireSet => "ERROR_NO_EXPIRE_SET"

/-- A status as it is shown: its word, then its number in parentheses. -/
def text (status : Status) : String :=
  status.name ++ " (" ++ toString status.code ++ ")"

/-- Whether the command ran, even if it found nothing to do. -/
def isOk : Status → Bool
  | ok | alreadyExists | notExist | rangeEmpty => true
  | _ => false

end Status

/-- The reasons for which a call into the store fails. -/
inductive Failure where
  /-- The medium below the store failed. -/
  | io
  /-- The key holds a value of another kind. -/
  | wrongType
  /-- The store has been closed. -/
  | closed
  deriving DecidableEq, Repr

namespace Failure

/-- The status under which a command reports a failure. -/
def status : Failure → Status
  | wrongType => .wrongType
  | _ => .error

/-- A failure in words. -/
def message : Failure → String
  | io => "I/O error"
  | wrongType => "operation against a key holding the wrong kind of value"
  | closed => "engine is closed"

end Failure

/-- The status of an item once a later failure has undone its success. -/
def Status.spoiledBy (failure : Failure) (status : Status) : Status :=
  if status = .ok then failure.status else status

end Keyspace
