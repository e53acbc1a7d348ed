import Keyspace.Expiry
import Keyspace.Decimal
import Keyspace.Text.Word

/-!
# Options of a string write

A string can be written with options given as words: `EX` and a number of
seconds or `PX` and a number of milliseconds, then `NX` or `XX`, all in any
case.  The last word is looked at first: it is `NX` or `XX`, or else it belongs
to the time to live.
-/

namespace Keyspace

/-- What a write demands of the presence of its key. -/
inductive Presence where
  | any
  | absent
  | present
  deriving DecidableEq, Repr, Inhabited

/-- The options of a string write. -/
structure SetOptions where
  ttl : Option (Nat × TtlUnit) := none
  presence : Presence := .any
  deriving DecidableEq, Repr, Inhabited

namespace SetOptions

/-- The demand that a word stands for, if it stands for one. -/
def presence? (token : String) : Option Presence :=
  if Text.isWord "nx" token then some .absent
  else if Text.isWord "xx" token then some .present
  else none

/-- The unit that a word stands for, if it stands for one. -/
def unit? (token : String) : Option TtlUnit :=
  if Text.isWord "ex" token then some .seconds
  else if Text.isWord "px" token then some .millis
  else none

/-- Splits a last word that stands for a demand from the words before it. -/
def splitPresence (tokens : List String) : List String × Presence :=
  match tokens.getLast?.bind presence? with
  | some presence => (tokens.dropLast, presence)
  | none => (tokens, .any)

/-- The time to live that words stand for: none at all, or a unit and a
number. -/
def ttl? : List String → Option (Option (Nat × TtlUnit))
  | [] => some none
  | [unit, number] => do
    let unit ← unit? unit
    let number ← Decimal.word? (.ofText number)
    return some (number, unit)
  | _ => none

/-- The options that a list of words stands for. -/
def ofTokens? (tokens : List String) : Option SetOptions :=
  let (rest, presence) := splitPresence tokens
  (ttl? rest).map fun ttl => { ttl, presence }

end SetOptions

end Keyspace
