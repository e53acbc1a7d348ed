import Keyspace.Slot.Write
import Keyspace.Store
import Keyspace.Store.Call

/-!
# How the store answers

`Store.perform` says what every call does.  The store enforces the kind of a
value and keeps the version of a key at the highest version written to it; it
does not compare versions, which is the business of the commands.

* A reading call sees live keys only and changes nothing.
* A writing call first drops the slot of its key if the deadline has passed.
* `delete` removes a slot whether or not its deadline has passed.
* A score or rank range with its ends in the wrong order is answered without
  looking at the store.
-/

namespace Keyspace

namespace Store

/-- Closes an open store. -/
def close (store : Store) : Except Failure Unit × Store :=
  if store.closed then (.error .closed, store) else (.ok (), ⟨∅, ∅, true⟩)

/-- Removes the slot of `key`, expired or not. -/
def delete (store : Store) (key : Bytes) : Except Failure Bool × Store :=
  if store.closed then (.error .closed, store)
  else (.ok (store.slots.contains key), store.replace key none)

/-- The keys whose deadlines have passed at `now`, earliest first, at most
`limit` of them. -/
def expired (store : Store) (now : Millis) (limit : Nat) : Except Failure (List Bytes) :=
  if store.closed then .error .closed
  else
    let due := store.agenda.toList.takeWhile (·.deadline ≤ now)
    .ok ((due.take limit).map Due.key)

/-- Answers a call and returns the store after it. -/
def perform (now : Millis) (store : Store) :
    (call : Call) → Except Failure call.Answer × Store
  | .close => store.close
  | .record key => (store.view now key none fun slot => .ok (some slot.record), store)
  | .setDeadline key deadline version =>
    store.revise now key fun
      | none => .ok (false, none)
      | some slot => .ok (true, some (slot.reschedule deadline version))
  | .delete key => store.delete key
  | .get key => (store.view now key none fun slot => some <$> slot.string, store)
  | .put key item deadline =>
    store.revise now key fun old? => .ok ((), some (Slot.putItem item deadline old?))
  | .field key field =>
    (store.view now key none fun slot => (·[field]?) <$> slot.hash, store)
  | .putField key field item => store.revise now key (Slot.putField field item)
  | .dropField key field version => store.revise now key (Slot.dropField field version)
  | .fields key => (store.view now key [] fun slot => (·.toList) <$> slot.hash, store)
  | .fieldCount key => (store.view now key 0 fun slot => (·.size) <$> slot.hash, store)
  | .addMember key member version => store.revise now key (Slot.addMember member version)
  | .dropMember key member version => store.revise now key (Slot.dropMember member version)
  | .member key member =>
    (store.view now key none fun slot => (·[member]?) <$> slot.set, store)
  | .members key => (store.view now key [] fun slot => (·.toList) <$> slot.set, store)
  | .memberCount key => (store.view now key 0 fun slot => (·.size) <$> slot.set, store)
  | .putScore key member score version =>
    store.revise now key (Slot.putScore member score version)
  | .dropScore key member version => store.revise now key (Slot.dropScore member version)
  | .mark key member =>
    (store.view now key none fun slot => (·.byMember[member]?) <$> slot.zset, store)
  | .rankedCount key => (store.view now key 0 fun slot => (·.size) <$> slot.zset, store)
  | .byRank key start stop =>
    if stop < start then (.ok [], store)
    else
      (store.view now key [] fun slot =>
        (fun ranking => (ranking.rankWindow start stop).map ranking.entry) <$> slot.zset, store)
  | .byScore key min max =>
    if max < min then (.ok [], store)
    else
      (store.view now key [] fun slot =>
        (fun ranking => (ranking.scoreWindow min max).map ranking.entry) <$> slot.zset, store)
  | .countByScore key min max =>
    if max < min then (.ok 0, store)
    else
      (store.view now key 0 fun slot =>
        (fun ranking => (ranking.scoreWindow min max).length) <$> slot.zset, store)
  | .dropByScore key min max version =>
    if max < min then (.ok 0, store)
    else store.revise now key (Slot.dropByScore min max version)
  | .rank key member =>
    (store.view now key none fun slot => (·.rank? member) <$> slot.zset, store)
  | .expired instant limit => (store.expired instant limit, store)

end Store

end Keyspace
