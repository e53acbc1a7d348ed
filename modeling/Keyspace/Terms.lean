import Keyspace.Item
import Keyspace.Status

/-!
# The terms of a write

A caller may make a write depend on the version that the key has now
(`Terms.expected`), give a deadline along with it, and require that the key be
absent (`WriteMode`).
-/

namespace Keyspace

/-- What a caller demands of the key that a command writes to. -/
structure Terms where
  /-- The version that the key must have, if the caller cares.  An absent key
  has version 0. -/
  expected : Option Version := none
  /-- The deadline for modes that apply one, 0 for none. -/
  expireTime : Millis := 0
  deriving DecidableEq, Repr, Inhabited

namespace Terms

/-- The terms that demand a version and nothing else. -/
def expecting (version : Version) : Terms :=
  ⟨some version, 0⟩

/-- The deadline that the terms give. -/
def deadline (terms : Terms) : Option Millis :=
  if terms.expireTime = 0 then none else some terms.expireTime

/-- Whether a key with this record, or without one, is as the caller expects. -/
def permit (terms : Terms) (found : Option Record) : Bool :=
  match terms.expected with
  | none => true
  | some version => (found.map Record.version).getD 0 == version

end Terms

/-- How a string is written. -/
structure WriteMode where
  /-- The write is refused where the key exists. -/
  onlyIfAbsent : Bool := false
  /-- The write stores the deadline of its terms instead of none. -/
  appliesDeadline : Bool := false
  deriving DecidableEq, Repr, Inhabited

namespace WriteMode

/-- The deadline that a write stores. -/
def deadline (mode : WriteMode) (terms : Terms) : Option Millis :=
  if mode.appliesDeadline then terms.deadline else none

/-- The verdict on a write at version `offered` to a key at version `current`,
which is `none` for an absent key: a write has to be newer than what is there. -/
def verdict (mode : WriteMode) (current : Option Version) (offered : Version) :
    Status :=
  match current with
  | none => .ok
  | some version =>
    if mode.onlyIfAbsent then .alreadyExists
    else if offered ≤ version then .versionMismatch
    else .ok

end WriteMode

end Keyspace
