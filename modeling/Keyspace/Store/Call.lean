import Keyspace.Item
import Keyspace.Ranking

/-!
# Calls into the store

Commands reach the store through a fixed set of calls.  `Call.Answer` is the
type of the answer to each of them and `Call.key?` is the one key that it names.
-/

namespace Keyspace

/-- A call into the store. -/
inductive Call where
  /-- Empties the store for good. -/
  | close
  /-- The record of a live key. -/
  | record (key : Bytes)
  /-- Replaces the deadline of a live key. -/
  | setDeadline (key : Bytes) (deadline : Option Millis) (version : Version)
  /-- Removes a key of any kind. -/
  | delete (key : Bytes)
  /-- The item of a string. -/
  | get (key : Bytes)
  /-- Stores a string in place of whatever the key holds. -/
  | put (key : Bytes) (item : Item) (deadline : Option Millis)
  /-- One field of a hash. -/
  | field (key field : Bytes)
  /-- Sets one field; the answer tells whether it is new. -/
  | putField (key field : Bytes) (item : Item)
  /-- Removes one field; the answer tells whether it was there. -/
  | dropField (key field : Bytes) (version : Version)
  /-- All fields of a hash. -/
  | fields (key : Bytes)
  /-- The number of fields of a hash. -/
  | fieldCount (key : Bytes)
  /-- Adds a member or stamps it anew; the answer tells whether it is new. -/
  | addMember (key member : Bytes) (version : Version)
  /-- Removes a member; the answer tells whether it was there. -/
  | dropMember (key member : Bytes) (version : Version)
  /-- The version of a member of a set. -/
  | member (key member : Bytes)
  /-- All members of a set. -/
  | members (key : Bytes)
  /-- The number of members of a set. -/
  | memberCount (key : Bytes)
  /-- Gives a member of a sorted set a score; the answer tells whether it is
  new. -/
  | putScore (key member : Bytes) (score : Int64) (version : Version)
  /-- Removes a member of a sorted set; the answer tells whether it was
  there. -/
  | dropScore (key member : Bytes) (version : Version)
  /-- The mark of a member of a sorted set. -/
  | mark (key member : Bytes)
  /-- The number of members of a sorted set. -/
  | rankedCount (key : Bytes)
  /-- The members at ascending ranks `start` to `stop`. -/
  | byRank (key : Bytes) (start stop : UInt64)
  /-- The members with scores from `min` to `max`, ascending. -/
  | byScore (key : Bytes) (min max : Int64)
  /-- The number of members with scores from `min` to `max`. -/
  | countByScore (key : Bytes) (min max : Int64)
  /-- Removes the members with scores from `min` to `max`; the answer is their
  number. -/
  | dropByScore (key : Bytes) (min max : Int64) (version : Version)
  /-- The ascending rank of a member of a sorted set. -/
  | rank (key member : Bytes)
  /-- The keys with the earliest deadlines at or before `instant`, at most
  `limit` of them. -/
  | expired (instant : Millis) (limit : Nat)

namespace Call

/-- The type of the answer to a call. -/
@[reducible] def Answer : Call → Type
  | close => Unit
  | record _ => Option Record
  | setDeadline .. => Bool
  | delete _ => Bool
  | get _ => Option Item
  | put .. => Unit
  | field .. => Option Item
  | putField .. => Bool
  | dropField .. => Bool
  | fields _ => List (Bytes × Item)
  | fieldCount _ => Nat
  | addMember .. => Bool
  | dropMember .. => Bool
  | member .. => Option Version
  | members _ => List (Bytes × Version)
  | memberCount _ => Nat
  | putScore .. => Bool
  | dropScore .. => Bool
  | mark .. => Option Mark
  | rankedCount _ => Nat
  | byRank .. => List Ranked
  | byScore .. => List Ranked
  | countByScore .. => Nat
  | dropByScore .. => Nat
  | rank .. => Option Nat
  | expired .. => List Bytes

/-- The key that a call names, if it names one. -/
def key? : Call → Option Bytes
  | close => none
  | expired .. => none
  | record key => key
  | setDeadline key .. => key
  | delete key => key
  | get key => key
  | put key .. => key
  | field key _ => key
  | putField key .. => key
  | dropField key .. => key
  | fields key => key
  | fieldCount key => key
  | addMember key .. => key
  | dropMember key .. => key
  | member key _ => key
  | members key => key
  | memberCount key => key
  | putScore key .. => key
  | dropScore key .. => key
  | mark key _ => key
  | rankedCount key => key
  | byRank key .. => key
  | byScore key .. => key
  | countByScore key .. => key
  | dropByScore key .. => key
  | rank key _ => key

end Call

end Keyspace
