import Keyspace.Proofs.Admission
import Keyspace.Proofs.Bounds
import Keyspace.Proofs.Coherence
import Keyspace.Proofs.Footprint

/-!
# Ranges of scores

A range of scores selects the members with scores between two bounds.  The store finds
them by a walk that skips what is below and stops at the first one above, it counts them by
another walk, and it answers a range with its ends in the wrong order without a walk.
`Ranking.between` says what is meant, and `Command.score_ranges_filter` that all of this
comes to the same.

* The store.  `Store.answer_between` and `Store.answer_countBetween` are the answers for
  all pairs of scores.
* The answer.  Bounds that stand for scores lead to these answers (`Rankings.on_byScore`,
  `Rankings.on_count`); others are refused before any call is made (`bounds_unread`).
-/

namespace Keyspace

variable {now : Millis} {store : Store} {key : Bytes} {slot : Slot} {ranking : Ranking}
  {low high : Int64} {min max : String}

/-! ## The store -/

namespace Ranking

/-- The members with scores from `low` to `high`, in order. -/
def between (ranking : Ranking) (low high : Int64) : List Ranked :=
  ranking.entries.filter fun entry => low ≤ entry.score ∧ entry.score ≤ high

theorem between_inverted (ranking : Ranking) (h : high < low) : ranking.between low high = [] := by
  refine List.filter_eq_nil_iff.mpr fun entry _ hentry => ?_
  obtain ⟨hlow, hhigh⟩ := of_decide_eq_true hentry
  exact Int64.not_lt.mpr (Int64.le_trans hlow hhigh) h

end Ranking

namespace Store

variable (hopen : store.closed = false) (hslot : store.live? now key = some slot)
  (hzset : slot.content = .zset ranking)

include hopen hslot hzset

/-- A live sorted set answers with its members between two scores. -/
theorem answer_between (low high : Int64) :
    (store.perform now (.byScore key low high)).1 = .ok (ranking.between low high) := by
  by_cases hinverted : high < low
  · rw [perform, if_pos hinverted, ranking.between_inverted hinverted]
  · rw [answer_byScore hopen hslot hzset hinverted, ranking.map_scoreWindow]
    rfl

/-- A live sorted set counts its members between two scores. -/
theorem answer_countBetween (low high : Int64) :
    (store.perform now (.countByScore key low high)).1 = .ok (ranking.between low high).length := by
  by_cases hinverted : high < low
  · rw [perform, if_pos hinverted, ranking.between_inverted hinverted]
    rfl
  · rw [answer_countByScore hopen hslot hzset hinverted, Ranking.between,
      ← ranking.map_scoreWindow, List.length_map]

end Store

/-! ## The answer -/

namespace Rankings

theorem bounds_read (hmin : Bound.Reads min low) (hmax : Bound.Reads max high) :
    bounds min max = .done (low, high) := by
  rw [bounds, scoreBound?_eq_some.mpr hmin, scoreBound?_eq_some.mpr hmax]
  rfl

/-- A bound that stands for no score is refused. -/
theorem bounds_unread
    (h : (∀ score, ¬ Bound.Reads min score) ∨ ∀ score, ¬ Bound.Reads max score) :
    bounds min max = .refuse .notANumber := by
  have hnone : ∀ {bound : String}, (∀ score, ¬ Bound.Reads bound score) →
      scoreBound? bound = none := by
    intro bound hbound
    refine Option.eq_none_iff_forall_ne_some.mpr fun score hscore => ?_
    exact hbound score (scoreBound?_eq_some.mp hscore)
  rcases h with hmin | hmax
  · rw [bounds, hnone hmin]
    rfl
  · rw [bounds, hnone hmax]
    cases scoreBound? min <;> rfl

section Answers

variable (hopen : store.closed = false) (hslot : store.live? now key = some slot)
  (hzset : slot.content = .zset ranking) (hmin : Bound.Reads min low)
  (hmax : Bound.Reads max high)

include hopen hslot hzset hmin hmax

theorem on_byScore (reverse : Bool) :
    (byScore key min max reverse).on now store =
      (if ranking.between low high = [] then .error .rangeEmpty
        else .ok (if reverse then (ranking.between low high).reverse
          else ranking.between low high), store) := by
  have hkind : slot.content.kind = .zset := congrArg Content.kind hzset
  have hwalk : (query (.byScore key low high)).on now store =
      (.ok (ranking.between low high), store) := by
    rw [Script.on_query, Store.answer_between hopen hslot hzset, Store.perform_of_reads rfl]
    rfl
  rw [byScore, bounds_read hmin hmax]
  show ((discard (requireKind key .zset)).bind _).on now store = _
  rw [Script.discard_eq, Script.bind_assoc, Script.on_bind_ok (on_requireKind hopen hslot hkind)]
  show ((query (.byScore key low high)).bind _).on now store = _
  rw [Script.on_bind_ok hwalk]
  cases hfound : ranking.between low high with
  | nil => rfl
  | cons entry rest => cases reverse <;> rfl

theorem on_count :
    (count key min max).on now store = (.ok (ranking.between low high).length, store) := by
  have hkind : slot.content.kind = .zset := congrArg Content.kind hzset
  rw [count, bounds_read hmin hmax]
  show ((discard (requireKind key .zset)).bind _).on now store = _
  rw [Script.discard_eq, Script.bind_assoc, Script.on_bind_ok (on_requireKind hopen hslot hkind)]
  show (query (.countByScore key low high)).on now store = _
  rw [Script.on_query, Store.answer_countBetween hopen hslot hzset, Store.perform_of_reads rfl]
  rfl

end Answers

end Rankings

namespace Command

variable {context : Context}

/-- Bounds of which one stands for no score are refused, whatever answers the calls, and no
call is made. -/
theorem runBy_unread
    (h : (∀ score, ¬ Bound.Reads min score) ∨ ∀ score, ¬ Bound.Reads max score) {σ : Type}
    (answer : σ → (c : Call) → Except Failure c.Answer × σ) (state : σ)
    (withScores reverse : Bool) :
    (zrangeByScore key min max withScores reverse).runBy answer context state =
        (⟨.notANumber, .placed []⟩, state) ∧
      (zcount key min max).runBy answer context state = (⟨.notANumber, .count 0⟩, state) := by
  have hbounds := Rankings.bounds_unread h
  have hrange : (zrangeByScore key min max withScores reverse).script context =
      .refuse .notANumber := by
    rw [script, Rankings.byScore, hbounds]
    rfl
  have hcount : (zcount key min max).script context = .refuse .notANumber := by
    rw [script, Rankings.count, hbounds]
    rfl
  rw [runBy, runBy, hrange, hcount]
  exact ⟨rfl, rfl⟩

/-- A range of scores is an exact filter.  Bounds that stand for scores select the members
with scores in between, out of the list of all members by score and then by name; the
request shows these in that order or in the reverse order, with a status of its own if
there are none, and the count is their number.  Other bounds are refused, and no call is
made for them. -/
theorem score_ranges_filter (h : store.Reachable) (context : Context)
    (hslot : store.live? context.now key = some slot) (hzset : slot.content = .zset ranking) :
    let entries := ranking.entries
    (entries.Pairwise fun a b =>
      a.score < b.score ∨ a.score = b.score ∧ a.member < b.member) ∧
    (∀ entry, entry ∈ entries ↔
      ranking.byMember[entry.member]? = some ⟨entry.score, entry.version⟩) ∧
    ∀ min max : String,
      (∀ low high : Int64, Bound.Reads min low → Bound.Reads max high →
        let selected := entries.filter fun entry => low ≤ entry.score ∧ entry.score ≤ high
        (∀ withScores reverse : Bool,
          (zrangeByScore key min max withScores reverse).run context store =
            (if selected = [] then ⟨.rangeEmpty, .placed []⟩
              else ⟨.ok, .placed ((if reverse then selected.reverse else selected).map
                (Ranked.place withScores))⟩, store)) ∧
        (zcount key min max).run context store = (⟨.ok, .count selected.length⟩, store)) ∧
      ((∀ score, ¬ Bound.Reads min score) ∨ (∀ score, ¬ Bound.Reads max score) →
        ∀ {σ : Type} (answer : σ → (c : Call) → Except Failure c.Answer × σ) (state : σ)
          (withScores reverse : Bool),
          (zrangeByScore key min max withScores reverse).runBy answer context state =
              (⟨.notANumber, .placed []⟩, state) ∧
            (zcount key min max).runBy answer context state =
              (⟨.notANumber, .count 0⟩, state)) := by
  have hopen := h.open_of_live hslot
  have hcoherent := (h.sound key slot (Store.live?_eq_some.mp hslot).1).coherent ranking hzset
  refine ⟨ranking.pairwise_entries, fun entry => hcoherent.mem_entries, fun min max =>
    ⟨fun low high hmin hmax => ⟨fun withScores reverse => ?_, ?_⟩, runBy_unread⟩⟩
  · rw [run_of_reply (by rfl), Rankings.on_byScore hopen hslot hzset hmin hmax]
    by_cases hnobody : ranking.between low high = []
    · rw [if_pos hnobody]
      exact (congrArg (·, store) (if_pos hnobody)).symm
    · rw [if_neg hnobody]
      exact (congrArg (·, store) (if_neg hnobody)).symm
  · rw [run_of_reply (by rfl), Rankings.on_count hopen hslot hzset hmin hmax]
    rfl

/-- Scores at both ends of the range of a word and a member without a name: the infinities
take in the ends, and equal bounds the members with that score. -/
theorem score_ranges_filter_ends :
    let context : Context := ⟨⟨5000⟩, .absolute⟩
    let store := (((Store.empty.perform 0 (.putScore [122] [] Int64.minValue 1)).2.perform 0
      (.putScore [122] [98] 5 2)).2.perform 0 (.putScore [122] [97] 5 4)).2
    let ranking := ((Ranking.empty.insert [] Int64.minValue 1).insert [98] 5 2).insert [97] 5 4
    store.Reachable ∧ store.live? context.now [122] = some ⟨.zset ranking, 4, none⟩ ∧
      Bound.Reads " -INF" Int64.minValue ∧ Bound.Reads "+5\t" 5 ∧
      (zrangeByScore [122] " -INF" "+5\t" false true).run context store =
        (⟨.ok, .placed [⟨[98], 2, none⟩, ⟨[97], 4, none⟩, ⟨[], 1, none⟩]⟩, store) ∧
      (zrangeByScore [122] "+5\t" " -INF" false true).run context store =
        (⟨.rangeEmpty, .placed []⟩, store) ∧
      (zcount [122] "+5\t" "+5\t").run context store = (⟨.ok, .count 2⟩, store) ∧
      (zcount [122] "5.0" "inf").run context store = (⟨.notANumber, .count 0⟩, store) := by
  intro context store ranking
  have hreachable : store.Reachable :=
    ((Store.Reachable.empty.perform 0 _).perform 0 _).perform 0 _
  have hslot : store.live? context.now [122] = some ⟨.zset ranking, 4, none⟩ := rfl
  have hleast : Bound.Reads " -INF" Int64.minValue := scoreBound?_eq_some.mp rfl
  have hfive : Bound.Reads "+5\t" 5 := scoreBound?_eq_some.mp rfl
  have hpoint : ∀ score, ¬ Bound.Reads "5.0" score := by
    intro score hscore
    have hnone : scoreBound? "5.0" = none := rfl
    rw [← scoreBound?_eq_some, hnone] at hscore
    cases hscore
  obtain ⟨_, _, hanswer⟩ := score_ranges_filter hreachable context hslot rfl
  refine ⟨hreachable, hslot, hleast, hfive, ?_, ?_, ?_, ?_⟩
  · exact ((hanswer _ _).1 _ _ hleast hfive).1 false true
  · exact ((hanswer _ _).1 _ _ hfive hleast).1 false true
  · exact ((hanswer _ _).1 _ _ hfive hfive).2
  · exact ((hanswer _ "inf").2 (.inl hpoint) (Store.perform context.now) store false false).2

end Command

end Keyspace
