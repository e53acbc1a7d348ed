import Keyspace.Item
import Std.Data.ExtTreeMap
import Std.Data.ExtTreeSet

/-!
# Sorted sets

A ranking gives each of its members a score and keeps two views of that: a map
from members to their marks, and the set of standings in order of score, ties
broken by member bytes.  Look-ups by member use the first view, walks by rank
or by score use the second one.
-/

namespace Keyspace

/-- The score of a member and the version that set it. -/
structure Mark where
  score : Int64
  version : Version
  deriving DecidableEq, Repr

/-- A place in the order of a ranking. -/
structure Standing where
  score : Int64
  member : Bytes
  deriving DecidableEq, Repr

/-- Standings are ordered by score, and by member where scores are equal. -/
instance : Ord Standing where
  compare := compareLex (compareOn Standing.score) (compareOn Standing.member)

instance : Std.TransOrd Standing :=
  inferInstanceAs (Std.TransCmp
    (compareLex (compareOn Standing.score) (compareOn Standing.member)))

instance : Std.LawfulEqOrd Standing where
  eq_of_compare {a b} h := by
    obtain ⟨hs, hm⟩ := compareLex_eq_eq.mp h
    have hscore : a.score = b.score := Std.LawfulEqOrd.eq_of_compare hs
    have hmember : a.member = b.member := Std.LawfulEqOrd.eq_of_compare hm
    cases a; cases b; simp_all

/-- A member of a ranking as a range reports it. -/
structure Ranked where
  member : Bytes
  score : Int64
  version : Version
  deriving DecidableEq, Repr

/-- A sorted set. -/
structure Ranking where
  byMember : Std.ExtTreeMap Bytes Mark
  byScore : Std.ExtTreeSet Standing

namespace Ranking

/-- The ranking without members. -/
def empty : Ranking := ⟨∅, ∅⟩

/-- Gives `member` a score, retracting the standing that it had before. -/
def insert (ranking : Ranking) (member : Bytes) (score : Int64)
    (version : Version) : Ranking :=
  let others := match ranking.byMember[member]? with
    | none => ranking.byScore
    | some old => ranking.byScore.erase ⟨old.score, member⟩
  { byMember := ranking.byMember.insert member ⟨score, version⟩
    byScore := others.insert ⟨score, member⟩ }

/-- Takes `member` out of both views. -/
def erase (ranking : Ranking) (member : Bytes) : Ranking :=
  match ranking.byMember[member]? with
  | none => ranking
  | some old =>
    { byMember := ranking.byMember.erase member
      byScore := ranking.byScore.erase ⟨old.score, member⟩ }

/-- The number of members. -/
def size (ranking : Ranking) : Nat :=
  ranking.byMember.size

/-- The standings in ascending order. -/
def standings (ranking : Ranking) : List Standing :=
  ranking.byScore.toList

/-- A standing together with the version of its member. -/
def entry (ranking : Ranking) (standing : Standing) : Ranked where
  member := standing.member
  score := standing.score
  version := (ranking.byMember[standing.member]?.map Mark.version).getD 0

/-- The standings from score `min` up to score `max`: skip to the first one at
or above `min`, then walk on while the score is at most `max`. -/
def scoreWindow (ranking : Ranking) (min max : Int64) : List Standing :=
  (ranking.standings.dropWhile (·.score < min)).takeWhile (·.score ≤ max)

/-- The standings at ranks `start` to `stop`.  The length of the window is
counted in a 64-bit word, so the window over all 2^64 ranks has length 0. -/
def rankWindow (ranking : Ranking) (start stop : UInt64) : List Standing :=
  (ranking.standings.drop start.toNat).take (stop - start + 1).toNat

/-- The number of standings below that of `member`. -/
def rank? (ranking : Ranking) (member : Bytes) : Option Nat :=
  ranking.byMember[member]?.map fun mark =>
    (ranking.standings.takeWhile fun standing =>
      compare standing ⟨mark.score, member⟩ == .lt).length

end Ranking

end Keyspace
