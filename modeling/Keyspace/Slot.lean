import Keyspace.Ranking
import Keyspace.Status

/-!
# Slots

A slot is what the store keeps under a key: a value of one of four kinds, the
version of the key and its deadline.  The version of a slot only ever rises,
and a collection that has become empty is not kept.
-/

namespace Keyspace

/-- The fields of a hash. -/
abbrev Fields := Std.ExtTreeMap Bytes Item

/-- The members of a set, each with the version that wrote it. -/
abbrev Members := Std.ExtTreeMap Bytes Version

/-- The value of a key. -/
inductive Content where
  | string (item : Item)
  | hash (fields : Fields)
  | set (members : Members)
  | zset (ranking : Ranking)

namespace Content

/-- The kind of a value. -/
def kind : Content → Kind
  | string _ => .string
  | hash _ => .hash
  | set _ => .set
  | zset _ => .zset

/-- Whether a value is a collection without entries. -/
def isEmpty : Content → Bool
  | string _ => false
  | hash fields => fields.isEmpty
  | set members => members.isEmpty
  | zset ranking => ranking.byMember.isEmpty

end Content

/-- What the store keeps under a key. -/
structure Slot where
  content : Content
  /-- The highest version written to any part of the key. -/
  version : Version
  deadline : Option Millis

namespace Slot

/-- A slot without a deadline, as the first write to a key makes it. -/
def fresh (content : Content) (version : Version) : Slot :=
  ⟨content, version, none⟩

/-- Whether the deadline has passed. -/
def isExpired (slot : Slot) (now : Millis) : Bool :=
  slot.deadline.any (· ≤ now)

/-- What a command learns of the key before it reads the value. -/
def record (slot : Slot) : Record :=
  ⟨slot.content.kind, slot.version, slot.deadline⟩

/-- Raises the version of the slot to at least `version`. -/
def raise (slot : Slot) (version : Version) : Slot :=
  { slot with version := max slot.version version }

/-- The slot, unless it holds a collection without entries. -/
def unlessEmpty (slot : Slot) : Option Slot :=
  if slot.content.isEmpty then none else some slot

/-- Replaces the deadline.  The item of a string takes the version of the key,
which is the version that readers of the string see. -/
def reschedule (slot : Slot) (deadline : Option Millis) (version : Version) :
    Slot :=
  let version := max slot.version version
  let content := match slot.content with
    | .string item => .string { item with version }
    | content => content
  { content, version, deadline }

/-- The item of a string. -/
def string (slot : Slot) : Except Failure Item :=
  match slot.content with
  | .string item => .ok item
  | _ => .error .wrongType

/-- The fields of a hash. -/
def hash (slot : Slot) : Except Failure Fields :=
  match slot.content with
  | .hash fields => .ok fields
  | _ => .error .wrongType

/-- The members of a set. -/
def set (slot : Slot) : Except Failure Members :=
  match slot.content with
  | .set members => .ok members
  | _ => .error .wrongType

/-- The ranking of a sorted set. -/
def zset (slot : Slot) : Except Failure Ranking :=
  match slot.content with
  | .zset ranking => .ok ranking
  | _ => .error .wrongType

end Slot

end Keyspace
