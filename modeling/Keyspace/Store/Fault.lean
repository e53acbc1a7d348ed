import Keyspace.Store.Perform

/-!
# Faults

A faulty store is a store whose calls fail on schedule.  A fault is armed for
one method; it lets `skip` calls of the method pass and then strikes `count`
times.  A struck call never reaches the store: it fails, or it lies and
succeeds with the answer that an absent key would give.
-/

namespace Keyspace

/-- The methods by which the store is called. -/
inductive Method where
  | close
  | record
  | setDeadline
  | delete
  | get
  | put
  | field
  | putField
  | dropField
  | fields
  | fieldCount
  | addMember
  | dropMember
  | member
  | members
  | memberCount
  | putScore
  | dropScore
  | mark
  | rankedCount
  | byRank
  | byScore
  | countByScore
  | dropByScore
  | rank
  | expired
  deriving DecidableEq, Repr

namespace Call

/-- The method of a call. -/
def method : Call → Method
  | close => .close
  | record _ => .record
  | setDeadline .. => .setDeadline
  | delete _ => .delete
  | get _ => .get
  | put .. => .put
  | field .. => .field
  | putField .. => .putField
  | dropField .. => .dropField
  | fields _ => .fields
  | fieldCount _ => .fieldCount
  | addMember .. => .addMember
  | dropMember .. => .dropMember
  | member .. => .member
  | members _ => .members
  | memberCount _ => .memberCount
  | putScore .. => .putScore
  | dropScore .. => .dropScore
  | mark .. => .mark
  | rankedCount _ => .rankedCount
  | byRank .. => .byRank
  | byScore .. => .byScore
  | countByScore .. => .countByScore
  | dropByScore .. => .dropByScore
  | rank .. => .rank
  | expired .. => .expired

/-- The answer that finds nothing. -/
def absent : (call : Call) → call.Answer
  | close => ()
  | record _ => none
  | setDeadline .. => false
  | delete _ => false
  | get _ => none
  | put .. => ()
  | field .. => none
  | putField .. => false
  | dropField .. => false
  | fields _ => []
  | fieldCount _ => (0 : Nat)
  | addMember .. => false
  | dropMember .. => false
  | member .. => none
  | members _ => []
  | memberCount _ => (0 : Nat)
  | putScore .. => false
  | dropScore .. => false
  | mark .. => none
  | rankedCount _ => (0 : Nat)
  | byRank .. => []
  | byScore .. => []
  | countByScore .. => (0 : Nat)
  | dropByScore .. => (0 : Nat)
  | rank .. => none
  | expired .. => []

end Call

/-- What a struck call answers. -/
inductive Strike where
  | failure (failure : Failure)
  | absent
  deriving DecidableEq, Repr

/-- A fault armed for a method. -/
structure Fault where
  method : Method
  strike : Strike
  /-- The calls that still pass. -/
  skip : Nat := 0
  /-- The calls that are struck after that. -/
  count : Nat := 1
  deriving DecidableEq, Repr

/-- Looks up the earliest fault armed for a method: whether it strikes this
call, and the faults that stay armed. -/
def Fault.consult (method : Method) : List Fault → Option Strike × List Fault
  | [] => (none, [])
  | fault :: later =>
    if fault.method = method then
      if 0 < fault.skip then (none, { fault with skip := fault.skip - 1 } :: later)
      else if fault.count ≤ 1 then (some fault.strike, later)
      else (some fault.strike, { fault with count := fault.count - 1 } :: later)
    else
      let (strike?, later) := consult method later
      (strike?, fault :: later)

/-- A store with its armed faults, earliest first. -/
structure FaultyStore where
  store : Store
  faults : List Fault

namespace FaultyStore

/-- Answers a call, unless a fault strikes it. -/
def perform (now : Millis) (faulty : FaultyStore) (call : Call) :
    Except Failure call.Answer × FaultyStore :=
  match Fault.consult call.method faulty.faults with
  | (none, faults) =>
    let (answer, store) := faulty.store.perform now call
    (answer, ⟨store, faults⟩)
  | (some (.failure failure), faults) => (.error failure, ⟨faulty.store, faults⟩)
  | (some .absent, faults) => (.ok call.absent, ⟨faulty.store, faults⟩)

end FaultyStore

end Keyspace
