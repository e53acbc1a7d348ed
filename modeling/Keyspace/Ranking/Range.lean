import Keyspace.Decimal
import Keyspace.Text.Word

/-!
# Ranges of ranks and of scores

A range of ranks is given by two indices, where a negative one counts from the
end.  A range of scores is given by two texts, so that the infinities can be
written.
-/

namespace Keyspace

/-- The score that a bound stands for: an infinity in any case, which is the
last score on its side, or a signed numeral.  Blanks around it do not count. -/
def scoreBound? (bound : String) : Option Int64 :=
  let bound := Text.trim bound
  if Text.isWord "-inf" bound then some Int64.minValue
  else if Text.isWord "+inf" bound || Text.isWord "inf" bound then some Int64.maxValue
  else Decimal.int64? (.ofText bound)

/-- The ranks from `start` to `stop` that a collection of `size` members has,
as the first and the last of them.  Negative indices count from the end. -/
def rankRange? (start stop : Int) (size : Nat) : Option (Nat × Nat) :=
  let first := max (if start < 0 then size + start else start) 0
  let last := min (if stop < 0 then size + stop else stop) (size - 1)
  if first ≤ last then some (first.toNat, last.toNat) else none

/-- The rank counted from the other end.  A rank beyond the end wraps around the
64-bit word.  The rank and the size come from two calls: at one reading of the
clock only a failing store answers them so, and where each call reads the clock
for itself the key can also expire in between. -/
def oppositeRank (size rank : Nat) : Nat :=
  if rank < size then size - 1 - rank else UInt64.size + size - 1 - rank

end Keyspace
