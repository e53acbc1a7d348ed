import Keyspace.Slot

/-!
# Writes to a slot

What each writing call makes of the slot that it finds: the answer, and the slot
that is kept.  Adding to a key without a slot makes a fresh collection; removing
the last entry of a collection removes the slot.  A slot that holds another kind
fails the call, except that a string may take the place of anything.
-/

namespace Keyspace.Slot

/-- A string put in place of whatever was there; the key keeps the higher
version. -/
def putItem (item : Item) (deadline : Option Millis) (old? : Option Slot) : Slot :=
  let version := match old? with
    | none => item.version
    | some old => max item.version old.version
  ⟨.string item, version, deadline⟩

/-- Sets one field, in a new hash if there is none. -/
def putField (field : Bytes) (item : Item) :
    Option Slot → Except Failure (Bool × Option Slot)
  | none => .ok (true, some (.fresh (.hash (Std.ExtTreeMap.empty.insert field item)) item.version))
  | some slot => do
    let fields ← slot.hash
    let slot := { slot with content := .hash (fields.insert field item) }
    return (!fields.contains field, some (slot.raise item.version))

/-- Removes one field, and the hash with its last one. -/
def dropField (field : Bytes) (version : Version) :
    Option Slot → Except Failure (Bool × Option Slot)
  | none => .ok (false, none)
  | some slot => do
    let fields ← slot.hash
    let slot := { slot with content := .hash (fields.erase field) }
    return (fields.contains field, (slot.raise version).unlessEmpty)

/-- Adds or stamps one member, in a new set if there is none. -/
def addMember (member : Bytes) (version : Version) :
    Option Slot → Except Failure (Bool × Option Slot)
  | none => .ok (true, some (.fresh (.set (Std.ExtTreeMap.empty.insert member version)) version))
  | some slot => do
    let members ← slot.set
    let slot := { slot with content := .set (members.insert member version) }
    return (!members.contains member, some (slot.raise version))

/-- Removes one member, and the set with its last one. -/
def dropMember (member : Bytes) (version : Version) :
    Option Slot → Except Failure (Bool × Option Slot)
  | none => .ok (false, none)
  | some slot => do
    let members ← slot.set
    let slot := { slot with content := .set (members.erase member) }
    return (members.contains member, (slot.raise version).unlessEmpty)

/-- Gives one member a score, in a new sorted set if there is none. -/
def putScore (member : Bytes) (score : Int64) (version : Version) :
    Option Slot → Except Failure (Bool × Option Slot)
  | none => .ok (true, some (.fresh (.zset (Ranking.empty.insert member score version)) version))
  | some slot => do
    let ranking ← slot.zset
    let slot := { slot with content := .zset (ranking.insert member score version) }
    return (!ranking.byMember.contains member, some (slot.raise version))

/-- Removes one member, and the sorted set with its last one. -/
def dropScore (member : Bytes) (version : Version) :
    Option Slot → Except Failure (Bool × Option Slot)
  | none => .ok (false, none)
  | some slot => do
    let ranking ← slot.zset
    let slot := { slot with content := .zset (ranking.erase member) }
    return (ranking.byMember.contains member, (slot.raise version).unlessEmpty)

/-- Removes the members within a window of scores.  The version rises only if
there are any. -/
def dropByScore (min max : Int64) (version : Version) :
    Option Slot → Except Failure (Nat × Option Slot)
  | none => .ok (0, none)
  | some slot => do
    let ranking ← slot.zset
    let doomed := ranking.scoreWindow min max
    let rest := doomed.foldl (fun rest standing => rest.erase standing.member) ranking
    let slot := { slot with content := .zset rest }
    let slot := if doomed.isEmpty then slot else slot.raise version
    return (doomed.length, slot.unlessEmpty)

end Keyspace.Slot
