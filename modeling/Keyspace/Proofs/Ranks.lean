import Keyspace.Proofs.Slices

/-!
# Ranks

A rank is looked up by name, and a name by rank.  The two ways have nothing in common:
the rank of a member is the number of standings below its own, which is made from the
score in its mark, and a range of ranks is a walk over the standings by position.
`Command.zrank_iff_zrange` says that each is the inverse of the other, counted from
either end.

* Rankings.  `Ranking.Coherent.rank?_eq_some` says at which place of the list of all
  members a member is.
* The answers.  `Rankings.on_rank` is the run of a request for a rank, and
  `Rankings.on_byRank_self` that of a request for the one member at a rank.
-/

namespace Keyspace

/-! ## Rankings -/

/-- The items below an item of a list in ascending order are those before it. -/
theorem takeWhile_below_eq_take {α : Type} [Ord α] [Std.TransOrd α] {items : List α}
    {place : Nat} {item : α} (hsorted : items.Pairwise fun a b => compare a b = .lt)
    (hitem : items[place]? = some item) :
    (items.takeWhile fun other => compare other item == .lt) = items.take place := by
  induction items generalizing place with
  | nil => cases hitem
  | cons first rest ih =>
    obtain ⟨hfirst, hrest⟩ := List.pairwise_cons.mp hsorted
    cases place with
    | zero =>
      cases hitem
      rw [List.takeWhile_cons, Std.compare_self]
      rfl
    | succ place =>
      rw [List.getElem?_cons_succ] at hitem
      rw [List.takeWhile_cons, hfirst item (List.mem_of_getElem? hitem), ih hrest hitem]
      rfl

namespace Ranking

variable {ranking : Ranking} {member other : Bytes} {rank : Nat}

theorem rank?_eq_none : ranking.rank? member = none ↔ ranking.byMember[member]? = none := by
  rw [rank?, Option.map_eq_none_iff]

/-- The rank of a member is its place in the list of all members. -/
theorem Coherent.rank?_eq_some (h : ranking.Coherent) :
    ranking.rank? member = some rank ↔
      ∃ entry, ranking.entries[rank]? = some entry ∧ entry.member = member := by
  have hplaced : ∀ {mark : Mark} {place : Nat}, ranking.byMember[member]? = some mark →
      ranking.standings[place]? = some ⟨mark.score, member⟩ →
      ranking.rank? member = some place := by
    intro mark place hmark hplace
    have hbelow := takeWhile_below_eq_take Std.ExtTreeSet.ordered_toList hplace
    have hlength : place < ranking.standings.length :=
      (List.getElem?_eq_some_iff.mp hplace).1
    rw [rank?, hmark, Option.map_some, standings, hbelow, ← standings, List.length_take,
      Nat.min_eq_left (Nat.le_of_lt hlength)]
  constructor
  · intro hrank
    obtain ⟨mark, hmark, _⟩ := Option.map_eq_some_iff.mp hrank
    have hstands : ⟨mark.score, member⟩ ∈ ranking.standings :=
      Std.ExtTreeSet.mem_toList.mpr (h.mem_byScore.mpr ⟨mark.version, hmark⟩)
    obtain ⟨place, hplace⟩ := List.mem_iff_getElem?.mp hstands
    cases hrank.symm.trans (hplaced hmark hplace)
    refine ⟨ranking.entry ⟨mark.score, member⟩, ?_, rfl⟩
    rw [entries, List.getElem?_map, hplace, Option.map_some]
  · rintro ⟨_, hentry, rfl⟩
    rw [entries, List.getElem?_map, Option.map_eq_some_iff] at hentry
    obtain ⟨⟨score, member⟩, hplace, rfl⟩ := hentry
    obtain ⟨version, hmark⟩ :=
      h.mem_byScore.mp (Std.ExtTreeSet.mem_toList.mp (List.mem_of_getElem? hplace))
    exact hplaced hmark hplace

theorem Coherent.rank?_lt (h : ranking.Coherent) (hrank : ranking.rank? member = some rank) :
    rank < ranking.size := by
  obtain ⟨_, hentry, _⟩ := h.rank?_eq_some.mp hrank
  rw [← h.length_entries]
  exact (List.getElem?_eq_some_iff.mp hentry).1

/-- No two members share a rank. -/
theorem Coherent.rank?_inj (h : ranking.Coherent) (hmember : ranking.rank? member = some rank)
    (hother : ranking.rank? other = some rank) : member = other := by
  obtain ⟨_, hentry, rfl⟩ := h.rank?_eq_some.mp hmember
  obtain ⟨_, hsame, rfl⟩ := h.rank?_eq_some.mp hother
  exact congrArg Ranked.member (Option.some.inj (hentry.symm.trans hsame))

end Ranking

/-! ## Counting from either end -/

section Ends

variable {size rank : Nat}

/-- The place in ascending order of a rank that is counted from the end if `reverse`. -/
def placeOf (size rank : Nat) (reverse : Bool) : Nat :=
  if reverse then size - 1 - rank else rank

theorem placeOf_lt (h : rank < size) (reverse : Bool) : placeOf size rank reverse < size := by
  unfold placeOf
  split <;> omega

/-- To count from the other end and back again leads to the same place. -/
theorem placeOf_placeOf (h : rank < size) (reverse : Bool) :
    placeOf size (placeOf size rank reverse) reverse = rank := by
  unfold placeOf
  split <;> omega

theorem oppositeRank_of_lt (h : rank < size) : oppositeRank size rank = size - 1 - rank :=
  if_pos h

/-- Two indices that are one rank stand for that rank, if it is there. -/
theorem rankRange_self (rank size : Nat) :
    rankRange? rank rank size = if rank < size then some (rank, rank) else none := by
  have hplace : position size rank = rank := if_neg (by omega)
  rw [rankRange_eq, hplace]
  by_cases hrank : rank < size
  · have hfirst : (max (rank : Int) 0).toNat = rank := by omega
    have hlast : (min (rank : Int) (size - 1)).toNat = rank := by omega
    rw [if_pos (by omega), if_pos hrank, hfirst, hlast]
  · rw [if_neg (by omega), if_neg hrank]

end Ends

/-! ## The answers -/

namespace Rankings

variable {now : Millis} {store : Store} {key : Bytes} {slot : Slot} {ranking : Ranking}
  {rank : Nat} (hopen : store.closed = false) (hslot : store.live? now key = some slot)
  (hzset : slot.content = .zset ranking)

include hopen hslot hzset

/-- A live sorted set answers with the rank of the member, counted from the end that was
asked for. -/
theorem on_rank (hcoherent : ranking.Coherent) (member : Bytes) (reverse : Bool) :
    (Rankings.rank key member reverse).on now store =
      (match ranking.rank? member with
        | none => .error .notExist
        | some place => .ok (placeOf ranking.size place reverse), store) := by
  have hrank : (query (.rank key member)).on now store = (.ok (ranking.rank? member), store) := by
    rw [Script.on_query, Store.perform, Store.view_zset hopen hslot hzset none (·.rank? member)]
    rfl
  rw [Rankings.rank, Script.bind_eq, Script.on_bind_ok hrank]
  cases hfound : ranking.rank? member with
  | none => rfl
  | some place =>
    cases reverse with
    | false => rfl
    | true =>
      show ((query (.rankedCount key)).bind _).on now store = _
      rw [Script.on_bind_ok (on_rankedCount hopen hslot hzset),
        oppositeRank_of_lt (hcoherent.rank?_lt hfound)]
      rfl

/-- The range from a rank to itself shows nobody if the rank is not there. -/
theorem on_byRank_beyond (hsize : ranking.size ≤ Int64.maxValue.toInt)
    (hrank : ¬ rank < ranking.size) (reverse : Bool) :
    (byRank key rank rank reverse).on now store = (.error .rangeEmpty, store) := by
  rw [on_byRank hopen hslot hzset hsize, rankRange_self, if_neg hrank]

/-- The range from a rank to itself shows the member at that rank. -/
theorem on_byRank_self (hcoherent : ranking.Coherent)
    (hsize : ranking.size ≤ Int64.maxValue.toInt) (hrank : rank < ranking.size)
    (reverse : Bool) :
    ∃ entry, ranking.entries[placeOf ranking.size rank reverse]? = some entry ∧
      (byRank key rank rank reverse).on now store = (.ok [entry], store) := by
  have hplace : placeOf ranking.size rank reverse < ranking.entries.length :=
    hcoherent.length_entries.symm ▸ placeOf_lt hrank reverse
  have hwalk : (ranking.entries.drop (placeOf ranking.size rank reverse)).take
      (rank - rank + 1) = [ranking.entries[placeOf ranking.size rank reverse]] := by
    rw [Nat.sub_self, Nat.zero_add, ← List.getElem_cons_drop hplace, List.take_succ_cons,
      List.take_zero]
  refine ⟨_, List.getElem?_eq_getElem hplace, ?_⟩
  rw [on_byRank hopen hslot hzset hsize, rankRange_self, if_pos hrank, ← hwalk]
  cases reverse with
  | false => rfl
  | true =>
    show (Except.ok (List.reverse _), store) = _
    rw [show ranking.size - 1 - rank = placeOf ranking.size rank true from rfl, hwalk]
    rfl

end Rankings

namespace Command

variable {context : Context} {store : Store} {key : Bytes} {slot : Slot} {ranking : Ranking}
  {member : Bytes} {rank : Nat} {reverse : Bool}

/-- What a rank in a reply says about the place of the member. -/
theorem zrank_eq_ok (hopen : store.closed = false)
    (hslot : store.live? context.now key = some slot) (hzset : slot.content = .zset ranking)
    (hcoherent : ranking.Coherent) :
    (zrank key member reverse).run context store = (⟨.ok, .count rank⟩, store) ↔
      rank < ranking.size ∧ ranking.rank? member = some (placeOf ranking.size rank reverse) := by
  rw [run_of_reply (by rfl), Rankings.on_rank hopen hslot hzset hcoherent]
  cases hfound : ranking.rank? member with
  | none => simp
  | some place =>
    have hplace := hcoherent.rank?_lt hfound
    constructor
    · intro hreply
      cases hreply
      exact ⟨placeOf_lt hplace reverse, congrArg some (placeOf_placeOf hplace reverse).symm⟩
    · rintro ⟨hrank, hsame⟩
      cases hsame
      exact congrArg (fun place => ((⟨.ok, .count place⟩ : Reply), store))
        (placeOf_placeOf hrank reverse)

/-- What the one member in a reply says about its place. -/
theorem zrange_self_eq_ok (hopen : store.closed = false)
    (hslot : store.live? context.now key = some slot) (hzset : slot.content = .zset ranking)
    (hcoherent : ranking.Coherent) (hsize : ranking.size ≤ Int64.maxValue.toInt)
    {withScores : Bool} {shown : Placed} :
    (zrange key rank rank withScores reverse).run context store =
        (⟨.ok, .placed [shown]⟩, store) ↔
      rank < ranking.size ∧ ∃ entry,
        ranking.entries[placeOf ranking.size rank reverse]? = some entry ∧
          entry.place withScores = shown := by
  rw [run_of_reply (by rfl)]
  by_cases hrank : rank < ranking.size
  · obtain ⟨entry, hentry, hrun⟩ :=
      Rankings.on_byRank_self hopen hslot hzset hcoherent hsize hrank reverse
    rw [hrun, hentry]
    simp [hrank]
  · rw [Rankings.on_byRank_beyond hopen hslot hzset hsize hrank]
    simp [hrank]

/-- Who is no member has no rank, and every member has one. -/
theorem zrank_cases (hopen : store.closed = false)
    (hslot : store.live? context.now key = some slot) (hzset : slot.content = .zset ranking)
    (hcoherent : ranking.Coherent) (member : Bytes) (reverse : Bool) :
    ranking.byMember[member]? = none ∧
        (zrank key member reverse).run context store = (⟨.notExist, .count 0⟩, store) ∨
      ranking.byMember[member]? ≠ none ∧
        ∃ rank, (zrank key member reverse).run context store = (⟨.ok, .count rank⟩, store) := by
  rw [ne_eq, ← Ranking.rank?_eq_none, run_of_reply (by rfl),
    Rankings.on_rank hopen hslot hzset hcoherent]
  cases ranking.rank? member with
  | none => exact .inl ⟨rfl, rfl⟩
  | some place => exact .inr ⟨Option.some_ne_none place, _, rfl⟩

/-- To look up a rank is the inverse of looking at a range of one rank, counted from
either end: a member has a rank exactly if the range from this rank to itself shows this
member and nobody else.  The two ranks of a member are counted from opposite ends, no two
members share a rank, and who is no member, and nobody else, is reported not to exist.
A signed word can count the members: no memory holds more. -/
theorem zrank_iff_zrange (h : store.Reachable) (context : Context)
    (hslot : store.live? context.now key = some slot) (hzset : slot.content = .zset ranking)
    (hsize : ranking.size ≤ Int64.maxValue.toInt) :
    let ranked := fun (member : Bytes) (reverse : Bool) (rank : Nat) =>
      (zrank key member reverse).run context store = (⟨.ok, .count rank⟩, store)
    (∀ (member : Bytes) (rank : Nat) (withScores reverse : Bool),
      ranked member reverse rank ↔ ∃ shown : Placed, shown.member = member ∧
        (zrange key rank rank withScores reverse).run context store =
          (⟨.ok, .placed [shown]⟩, store)) ∧
    (∀ (member : Bytes) (first last : Nat), ranked member false first → ranked member true last →
      first < ranking.size ∧ last < ranking.size ∧ first + last = ranking.size - 1) ∧
    (∀ (member other : Bytes) (reverse : Bool) (rank : Nat),
      ranked member reverse rank → ranked other reverse rank → member = other) ∧
    ∀ (member : Bytes) (reverse : Bool),
      (((zrank key member reverse).run context store).1.status = .notExist ↔
        ranking.byMember[member]? = none) ∧
      (ranking.byMember[member]? ≠ none → ∃ rank, ranked member reverse rank) := by
  have hopen := h.open_of_live hslot
  have hcoherent := (h.sound key slot (Store.live?_eq_some.mp hslot).1).coherent ranking hzset
  have hranked : ∀ {member : Bytes} {reverse : Bool} {rank : Nat},
      (zrank key member reverse).run context store = (⟨.ok, .count rank⟩, store) ↔
        rank < ranking.size ∧ ranking.rank? member = some (placeOf ranking.size rank reverse) :=
    zrank_eq_ok hopen hslot hzset hcoherent
  refine ⟨fun member rank withScores reverse => ?_, fun member first last hfirst hlast => ?_,
    fun member other reverse rank hmember hother => ?_, fun member reverse => ?_⟩
  · refine hranked.trans ?_
    rw [hcoherent.rank?_eq_some]
    simp only [zrange_self_eq_ok hopen hslot hzset hcoherent hsize]
    constructor
    · rintro ⟨hrank, entry, hentry, rfl⟩
      exact ⟨entry.place withScores, rfl, hrank, entry, hentry, rfl⟩
    · rintro ⟨_, rfl, hrank, entry, hentry, rfl⟩
      exact ⟨hrank, entry, hentry, rfl⟩
  · obtain ⟨hfirst, hplace⟩ := hranked.mp hfirst
    obtain ⟨hlast, hsame⟩ := hranked.mp hlast
    have hopposite : first = ranking.size - 1 - last :=
      Option.some.inj (hplace.symm.trans hsame)
    exact ⟨hfirst, hlast, by omega⟩
  · exact hcoherent.rank?_inj (hranked.mp hmember).2 (hranked.mp hother).2
  · rcases zrank_cases hopen hslot hzset hcoherent member reverse with
      ⟨hnobody, hrun⟩ | ⟨hmember, rank, hrun⟩
    · rw [hrun]
      exact ⟨iff_of_true rfl hnobody, fun hmember => absurd hnobody hmember⟩
    · rw [hrun]
      exact ⟨iff_of_false nofun hmember, fun _ => ⟨rank, hrun⟩⟩

/-- Two members with one score: the lesser name stands below, and so it has rank 1 of 3
from either end. -/
theorem zrank_iff_zrange_tied :
    let context : Context := ⟨⟨5000⟩, .absolute⟩
    let store := (((Store.empty.perform 0 (.putScore [122] [98] 10 1)).2.perform 0
      (.putScore [122] [97] 10 2)).2.perform 0 (.putScore [122] [99] (-3) 4)).2
    let ranking := ((Ranking.empty.insert [98] 10 1).insert [97] 10 2).insert [99] (-3) 4
    store.Reachable ∧ store.live? context.now [122] = some ⟨.zset ranking, 4, none⟩ ∧
      ranking.size ≤ Int64.maxValue.toInt ∧
      (zrange [122] 1 1 true true).run context store =
        (⟨.ok, .placed [⟨[97], 2, some 10⟩]⟩, store) ∧
      (zrank [122] [97] true).run context store = (⟨.ok, .count 1⟩, store) ∧
      (zrank [122] [97] false).run context store = (⟨.ok, .count 1⟩, store) ∧
      ((zrank [122] [100] false).run context store).1.status = .notExist := by
  intro context store ranking
  have hreachable : store.Reachable :=
    ((Store.Reachable.empty.perform 0 _).perform 0 _).perform 0 _
  have hslot : store.live? context.now [122] = some ⟨.zset ranking, 4, none⟩ := rfl
  have hsize : ranking.size ≤ Int64.maxValue.toInt := by decide
  obtain ⟨hinverse, hends, _, hmembers⟩ :=
    zrank_iff_zrange hreachable context hslot rfl hsize
  have hshown : (zrange [122] 1 1 true true).run context store =
      (⟨.ok, .placed [⟨[97], 2, some 10⟩]⟩, store) := rfl
  have hlast := (hinverse [97] 1 true true).mpr ⟨_, rfl, hshown⟩
  obtain ⟨first, hfirst⟩ := (hmembers [97] false).2 (by decide)
  obtain ⟨_, _, hsum⟩ := hends [97] first 1 hfirst hlast
  have hthree : ranking.size = 3 := by decide
  obtain rfl : first = 1 := by omega
  exact ⟨hreachable, hslot, hsize, hshown, hlast, hfirst, (hmembers [100] false).1.mpr (by decide)⟩

end Command

end Keyspace
