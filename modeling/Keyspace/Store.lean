import Keyspace.Slot

/-!
# The store

A store holds the slots of its keys and, beside them, an agenda: the deadlines
of the keys in the order in which they fall due.  `Store.replace` is the one
step that changes a slot, and it moves the entry of the key in the agenda along
with it.

A slot whose deadline has passed stays until somebody writes to its key or
reclaims it, but nobody sees it: `Store.view` answers as if the key were
absent, and `Store.revise` drops the slot before the change is made.  A closed
store is empty and answers every call with a failure.
-/

namespace Keyspace

/-- The deadline of a key. -/
structure Due where
  deadline : Millis
  key : Bytes
  deriving DecidableEq, Repr

/-- Deadlines are ordered by time, and by key where they coincide. -/
instance : Ord Due where
  compare := compareLex (compareOn Due.deadline) (compareOn Due.key)

instance : Std.TransOrd Due :=
  inferInstanceAs (Std.TransCmp
    (compareLex (compareOn Due.deadline) (compareOn Due.key)))

instance : Std.LawfulEqOrd Due where
  eq_of_compare {a b} h := by
    obtain ⟨ht, hk⟩ := compareLex_eq_eq.mp h
    have htime : a.deadline = b.deadline := Std.LawfulEqOrd.eq_of_compare ht
    have hkey : a.key = b.key := Std.LawfulEqOrd.eq_of_compare hk
    cases a; cases b; simp_all

/-- The deadlines of all keys that have one. -/
abbrev Agenda := Std.ExtTreeSet Due

/-- Moves the entry of `key` from one deadline to another. -/
def Agenda.move (agenda : Agenda) (key : Bytes) (old new : Option Millis) :
    Agenda :=
  if old = new then agenda
  else
    let cleared := match old with
      | none => agenda
      | some deadline => agenda.erase ⟨deadline, key⟩
    match new with
    | none => cleared
    | some deadline => cleared.insert ⟨deadline, key⟩

/-- The slots of all keys. -/
abbrev Slots := Std.ExtTreeMap Bytes Slot

/-- A versioned key-value store. -/
structure Store where
  slots : Slots
  agenda : Agenda
  closed : Bool

namespace Store

/-- The open store without keys. -/
def empty : Store := ⟨∅, ∅, false⟩

instance : Inhabited Store := ⟨empty⟩

/-- The slot of `key`, unless its deadline has passed. -/
def live? (store : Store) (now : Millis) (key : Bytes) : Option Slot :=
  store.slots[key]?.filter fun slot => !slot.isExpired now

/-- The slots whose deadline has not passed. -/
def live (store : Store) (now : Millis) : Slots :=
  store.slots.filter fun _ slot => !slot.isExpired now

/-- The store without the slots whose deadline has passed. -/
def purge (store : Store) (now : Millis) : Store :=
  { store with
    slots := store.live now
    agenda := store.agenda.filter fun due => now < due.deadline }

/-- The number of keys that can be seen. -/
def liveCount (store : Store) (now : Millis) : Nat :=
  (store.live now).size

/-- Whether no key can be seen. -/
def isEmpty (store : Store) (now : Millis) : Bool :=
  store.liveCount now == 0

/-- The number of keys that are kept, seen or not. -/
def keptCount (store : Store) : Nat :=
  store.slots.size

/-- Puts a slot under `key`, or nothing, and keeps the agenda in step. -/
def replace (store : Store) (key : Bytes) (slot? : Option Slot) : Store :=
  { store with
    slots := match slot? with
      | none => store.slots.erase key
      | some slot => store.slots.insert key slot
    agenda := store.agenda.move key (store.slots[key]?.bind Slot.deadline)
      (slot?.bind Slot.deadline) }

/-- Drops the slot of `key` if its deadline has passed. -/
def sweep (store : Store) (now : Millis) (key : Bytes) : Store :=
  match store.slots[key]? with
  | none => store
  | some slot => if slot.isExpired now then store.replace key none else store

/-- Asks a question about the live slot of `key`; without one the answer is
`absent`. -/
def view (store : Store) (now : Millis) (key : Bytes) {α : Type} (absent : α)
    (question : Slot → Except Failure α) : Except Failure α :=
  if store.closed then .error .closed
  else match store.live? now key with
    | none => .ok absent
    | some slot => question slot

/-- Changes what is kept under `key`.  The change sees live slots only, and one
that fails leaves the key as it sees it. -/
def revise (store : Store) (now : Millis) (key : Bytes) {α : Type}
    (change : Option Slot → Except Failure (α × Option Slot)) :
    Except Failure α × Store :=
  if store.closed then (.error .closed, store)
  else
    let swept := store.sweep now key
    match change swept.slots[key]? with
    | .error failure => (.error failure, swept)
    | .ok (answer, slot?) => (.ok answer, swept.replace key slot?)

end Store

end Keyspace
