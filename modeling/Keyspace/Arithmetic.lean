/-!
# Arithmetic within a word

Counters are signed 64-bit words.  A sum or a negation that leaves their range
has no value; it never wraps around.
-/

namespace Keyspace

/-- The sum of two words, unless it leaves the range of a word. -/
def addWithin (a b : Int64) : Option Int64 :=
  let sum := a.toInt + b.toInt
  if Int64.minValue.toInt ≤ sum ∧ sum ≤ Int64.maxValue.toInt then
    some (Int64.ofInt sum)
  else none

/-- The negation of a word, unless it leaves the range of a word. -/
def negWithin (a : Int64) : Option Int64 :=
  if a = Int64.minValue then none else some (-a)

end Keyspace
