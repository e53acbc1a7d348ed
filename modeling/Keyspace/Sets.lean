import Keyspace.Admission
import Keyspace.Expiry

/-!
# Sets

Each member of a set is stamped with the version that wrote it last.  Adding a
member must be newer than its stamp and tells a new member from one that is
stamped anew; removing one must not be older.
-/

namespace Keyspace.Sets

/-- Adds one member of a batch. -/
def addOne (key : Bytes) (item : Item) : Script Status Status :=
  Script.settle do
    requireVersion item.version
    let stored ← query (.member key item.value)
    requireNewer stored item.version
    let isNew ← query (.addMember key item.value item.version)
    return if isNew then .ok else .alreadyExists

/-- Adds members. -/
def addMany (key : Bytes) (members : List Item) (terms : Terms) :
    Script Status (List Status) := do
  requireSome members
  discard (checkKind key terms .set)
  members.mapM (addOne key)

/-- Removes one member of a batch. -/
def dropOne (key : Bytes) (item : Item) : Script Status Status :=
  Script.settle do
    requireVersion item.version
    let stored ← Script.ofOption .notExist (← query (.member key item.value))
    requireCurrent stored item.version
    discard (query (.dropMember key item.value item.version))
    return .ok

/-- Removes members. -/
def dropMany (key : Bytes) (members : List Item) (terms : Terms) :
    Script Status (List Status) := do
  requireSome members
  discard (checkExisting key terms .set)
  members.mapM (dropOne key)

/-- All members in order, each with its stamp. -/
def toList (key : Bytes) : Script Status (List Item) := do
  discard (requireKind key .set)
  let members ← query (.members key)
  return members.map fun (member, version) => ⟨member, version⟩

/-- The number of members. -/
def size (key : Bytes) : Script Status Nat :=
  countOf (query (.memberCount key))

/-- Succeeds if `member` is in the set. -/
def contains (key member : Bytes) : Script Status Unit := do
  discard (Script.ofOption .notExist (← query (.member key member)))

/-- Removes some member and answers with it, stamped with `version`.  The clock
picks the member. -/
def pop (context : Context) (key : Bytes) (version : Version) (terms : Terms) :
    Script Status Item := do
  requireVersion version
  discard (checkCurrent key terms .set version)
  let members ← query (.members key)
  let picked := members[context.clock.micros % members.length]?
  let (member, _) ← Script.ofOption .notExist picked
  discard (query (.dropMember key member version))
  return ⟨member, version⟩

end Keyspace.Sets
