import Keyspace.Admission
import Keyspace.Arithmetic
import Keyspace.Ranking.Range

/-!
# Sorted sets

Giving a member a score must be newer than its mark and tells a new member from
one that is scored anew; removing one must not be older.  Members are asked for
by name, by rank or by score, and removed in the same three ways.
-/

namespace Keyspace

/-- A member to be given a score. -/
structure Scored where
  member : Bytes
  score : Int64
  version : Version
  deriving DecidableEq, Repr

namespace Rankings

/-- Gives one member of a batch its score. -/
def addOne (key : Bytes) (item : Scored) : Script Status Status :=
  Script.settle do
    requireVersion item.version
    let stored ← query (.mark key item.member)
    requireNewer (stored.map Mark.version) item.version
    let isNew ← query (.putScore key item.member item.score item.version)
    return if isNew then .ok else .alreadyExists

/-- Gives members their scores. -/
def addMany (key : Bytes) (items : List Scored) (terms : Terms) :
    Script Status (List Status) := do
  requireSome items
  discard (checkKind key terms .zset)
  items.mapM (addOne key)

/-- Removes one member of a batch. -/
def dropOne (key : Bytes) (item : Item) : Script Status Status :=
  Script.settle do
    requireVersion item.version
    let stored ← Script.ofOption .notExist (← query (.mark key item.value))
    requireCurrent stored.version item.version
    discard (query (.dropScore key item.value item.version))
    return .ok

/-- Removes members. -/
def dropMany (key : Bytes) (members : List Item) (terms : Terms) :
    Script Status (List Status) := do
  requireSome members
  discard (checkExisting key terms .zset)
  members.mapM (dropOne key)

/-- Adds to the score of a member; a missing one counts as 0. -/
def add (key member : Bytes) (version : Version) (delta : Int64) (terms : Terms) :
    Script Status Int64 := do
  requireVersion version
  discard (checkKind key terms .zset)
  let stored ← query (.mark key member)
  requireNewer (stored.map Mark.version) version
  let current := (stored.map Mark.score).getD 0
  let next ← Script.ofOption .overflow (addWithin current delta)
  discard (query (.putScore key member next version))
  return next

/-- The number of members. -/
def size (key : Bytes) : Script Status Nat :=
  countOf (query (.rankedCount key))

/-- The score of a member. -/
def score (key member : Bytes) : Script Status Int64 := do
  let mark ← Script.ofOption .notExist (← query (.mark key member))
  return mark.score

/-- The two scores that a pair of bounds stands for. -/
def bounds (min max : String) : Script Status (Int64 × Int64) := do
  let min ← Script.ofOption .notANumber (scoreBound? min)
  let max ← Script.ofOption .notANumber (scoreBound? max)
  return (min, max)

/-- The number of members with scores within bounds. -/
def count (key : Bytes) (min max : String) : Script Status Nat := do
  let (min, max) ← bounds min max
  discard (requireKind key .zset)
  query (.countByScore key min max)

/-- The members at a range of ranks, counted from the end if `reverse`. -/
def byRank (key : Bytes) (start stop : Int) (reverse : Bool) :
    Script Status (List Ranked) := do
  discard (requireKind key .zset)
  let size ← query (.rankedCount key)
  let (first, last) ← Script.ofOption .rangeEmpty (rankRange? start stop size)
  let (low, high) := if reverse then (size - 1 - last, size - 1 - first) else (first, last)
  let members ← query (.byRank key (.ofNat low) (.ofNat high))
  return if reverse then members.reverse else members

/-- The members with scores within bounds, from the highest down if
`reverse`. -/
def byScore (key : Bytes) (min max : String) (reverse : Bool) :
    Script Status (List Ranked) := do
  let (min, max) ← bounds min max
  discard (requireKind key .zset)
  let members ← query (.byScore key min max)
  if members.isEmpty then .refuse .rangeEmpty
  else return if reverse then members.reverse else members

/-- Removes the members with scores within bounds and answers with their
number. -/
def dropByScore (key : Bytes) (min max : String) (version : Version) (terms : Terms) :
    Script Status Nat := do
  requireVersion version
  let (min, max) ← bounds min max
  discard (checkCurrent key terms .zset version)
  let removed ← query (.dropByScore key min max version)
  if removed = 0 then .refuse .rangeEmpty else return removed

/-- Removes members one by one.  A failure ends it; the answer is how it ended
and how many members went. -/
def dropEach (key : Bytes) (version : Version) (removed : Nat) :
    List Ranked → Script Status (Status × Nat)
  | [] => return (.ok, removed)
  | entry :: rest => do
    match ← (query (.dropScore key entry.member version)).outcome with
    | .ok wasThere => dropEach key version (if wasThere then removed + 1 else removed) rest
    | .error status => return (status, removed)

/-- Removes the members at a range of ranks and answers with their number. -/
def dropByRank (key : Bytes) (start stop : Int) (version : Version) (terms : Terms) :
    Script Status (Status × Nat) := do
  requireVersion version
  discard (checkCurrent key terms .zset version)
  let size ← query (.rankedCount key)
  let (first, last) ← Script.ofOption .rangeEmpty (rankRange? start stop size)
  let doomed ← query (.byRank key (.ofNat first) (.ofNat last))
  dropEach key version 0 doomed

/-- The rank of a member, counted from the end if `reverse`. -/
def rank (key member : Bytes) (reverse : Bool) : Script Status Nat := do
  let rank ← Script.ofOption .notExist (← query (.rank key member))
  if reverse then
    return oppositeRank (← query (.rankedCount key)) rank
  else return rank

end Rankings

end Keyspace
