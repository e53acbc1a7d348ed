import Keyspace.Proofs.Coherence
import Keyspace.Proofs.Admission
import Keyspace.Proofs.Footprint

/-!
# Ranges of ranks

A range of ranks selects a slice of the list of all members.  The slice is given by
two indices, and the way to it is long: indices that count from the end are made
positions, positions beyond an end are moved to it, a range that counts from the end is
mirrored, and the walk skips and then takes members.  `slice` says what is meant, and
`Command.zrange_slices` that every pair of indices leads there.

* Slices.  `slice_eq` cuts a slice out with `drop` and `take`, and `mirrored_slice` is
  the slice of the reversed list.
* Words.  `windowWithin` computes the window in words, step by step, and has no value
  if a step leaves the range of its word.  `windowWithin_eq` says that none does.
* The answer.  `Rankings.on_byRank` is the run of a request for a range.
-/

namespace Keyspace

/-! ## Slices -/

section Slices

variable {α : Type} {start stop : Int} {size first last : Nat}

/-- The position that an index stands for in a list of `length` items: a negative one
counts from the end.  There need not be such a position in the list. -/
def position (length : Nat) (index : Int) : Int :=
  if index < 0 then length + index else index

/-- The items at the positions from `start` to `stop`. -/
def slice (start stop : Int) (items : List α) : List α :=
  (items.zipIdx.filter fun (_, place) =>
    position items.length start ≤ place ∧ place ≤ position items.length stop).map Prod.fst

/-- The items at consecutive positions are found by dropping the ones before. -/
theorem filter_zipIdx_eq (items : List α) (offset first bound : Nat) :
    ((items.zipIdx offset).filter fun (_, place) => first ≤ place ∧ place < bound).map Prod.fst =
      (items.drop (first - offset)).take (bound - max first offset) := by
  induction items generalizing offset with
  | nil => simp
  | cons item rest ih =>
    rw [List.zipIdx_cons, List.filter_cons]
    by_cases hbefore : offset < first
    · have hskip : first - offset = first - (offset + 1) + 1 := by omega
      have hmax : max first offset = max first (offset + 1) := by omega
      rw [if_neg (by simp; omega), ih, hskip, hmax]
      rfl
    · have hskip : first - offset = 0 := by omega
      have hrest : first - (offset + 1) = 0 := by omega
      by_cases hinside : offset < bound
      · have hcount : bound - max first offset = bound - max first (offset + 1) + 1 := by omega
        rw [if_pos (by simp; omega), List.map_cons, ih, hskip, hrest, hcount]
        rfl
      · have hcount : bound - max first offset = 0 := by omega
        have hnone : bound - max first (offset + 1) = 0 := by omega
        rw [if_neg (by simp; omega), ih, hcount, hnone]
        simp

theorem rankRange_eq (start stop : Int) (size : Nat) :
    rankRange? start stop size =
      if max (position size start) 0 ≤ min (position size stop) (size - 1) then
        some ((max (position size start) 0).toNat, (min (position size stop) (size - 1)).toNat)
      else none := rfl

/-- The ranks that two indices stand for are the positions between them that there
are. -/
theorem rankRange_cases (start stop : Int) (size : Nat) :
    rankRange? start stop size = none ∧
        (∀ place : Nat, place < size →
          ¬ (position size start ≤ place ∧ place ≤ position size stop)) ∨
      ∃ first last, rankRange? start stop size = some (first, last) ∧
        first ≤ last ∧ last < size ∧
        ∀ place : Nat, place < size →
          (position size start ≤ place ∧ place ≤ position size stop ↔
            first ≤ place ∧ place ≤ last) := by
  rw [rankRange_eq]
  split
  · exact .inr ⟨_, _, rfl, by omega, by omega, fun place hplace => by omega⟩
  · refine .inl ⟨rfl, fun place hplace => ?_⟩
    omega

/-- A slice is cut out at the ranks that its indices stand for. -/
theorem slice_eq (start stop : Int) (items : List α) :
    slice start stop items =
      match rankRange? start stop items.length with
      | none => []
      | some (first, last) => (items.drop first).take (last - first + 1) := by
  have hbound : ∀ entry ∈ items.zipIdx, entry.2 < items.length := by
    intro entry hentry
    simpa using (List.mem_zipIdx hentry).2.1
  unfold slice
  obtain ⟨hnone, houtside⟩ | ⟨first, last, hsome, hrange, _, hinside⟩ :=
    rankRange_cases start stop items.length
  · have hempty : (items.zipIdx.filter fun (_, place) =>
        position items.length start ≤ place ∧ place ≤ position items.length stop) = [] := by
      refine List.filter_eq_nil_iff.mpr fun entry hentry => ?_
      simpa using houtside entry.2 (hbound entry hentry)
    rw [hnone, hempty]
    rfl
  · have hwindow := filter_zipIdx_eq items 0 first (last + 1)
    have hcount : last + 1 - max first 0 = last - first + 1 := by omega
    rw [Nat.sub_zero, hcount] at hwindow
    rw [hsome]
    refine Eq.trans (congrArg (List.map Prod.fst) (List.filter_congr fun entry hentry => ?_))
      hwindow
    refine decide_eq_decide.mpr ((hinside entry.2 (hbound entry hentry)).trans ?_)
    omega

/-- A slice leaves items out and changes nothing about the others. -/
theorem slice_sublist (start stop : Int) (items : List α) :
    (slice start stop items).Sublist items := by
  rw [slice_eq]
  split
  · exact List.nil_sublist items
  · exact (List.take_sublist _ _).trans (List.drop_sublist _ _)

theorem cut_ne_nil {items : List α} (hfirst : first < items.length) (count : Nat) :
    (items.drop first).take (count + 1) ≠ [] := by
  refine List.ne_nil_of_length_pos ?_
  rw [List.length_take, List.length_drop]
  omega

/-- Two indices stand for no ranks and their slice is empty, or they stand for ranks and it
is not. -/
theorem slice_cases (start stop : Int) (items : List α) :
    rankRange? start stop items.length = none ∧ slice start stop items = [] ∨
      ∃ first last, rankRange? start stop items.length = some (first, last) ∧
        first ≤ last ∧ last < items.length ∧ slice start stop items ≠ [] ∧
        slice start stop items = (items.drop first).take (last - first + 1) := by
  obtain ⟨hnone, _⟩ | ⟨first, last, hsome, hrange, hlast, _⟩ :=
    rankRange_cases start stop items.length
  · refine .inl ⟨hnone, ?_⟩
    rw [slice_eq, hnone]
  · have hslice : slice start stop items = (items.drop first).take (last - first + 1) := by
      rw [slice_eq, hsome]
    have hshown := cut_ne_nil (Nat.lt_of_le_of_lt hrange hlast) (last - first)
    exact .inr ⟨first, last, hsome, hrange, hlast, hslice ▸ hshown, hslice⟩

/-- The slice of the reversed list is the mirrored slice, reversed. -/
theorem mirrored_slice {items : List α} (hrange : first ≤ last) (hlast : last < items.length) :
    (items.reverse.drop first).take (last - first + 1) =
      ((items.drop (items.length - 1 - last)).take (last - first + 1)).reverse := by
  have hskip : items.length - first - (last - first + 1) = items.length - 1 - last := by omega
  have hcount : items.length - first - (items.length - 1 - last) = last - first + 1 := by omega
  rw [List.drop_reverse, List.take_reverse, List.length_take, Nat.min_eq_left (Nat.sub_le ..),
    hskip, List.drop_take, hcount]

/-- A slice in either direction, cut out of the list itself. -/
theorem slice_directed (start stop : Int) (items : List α) (reverse : Bool) :
    slice start stop (if reverse then items.reverse else items) =
      match rankRange? start stop items.length with
      | none => []
      | some (first, last) =>
        if reverse then
          ((items.drop (items.length - 1 - last)).take (last - first + 1)).reverse
        else (items.drop first).take (last - first + 1) := by
  cases reverse with
  | false => exact slice_eq start stop items
  | true =>
    show slice start stop items.reverse = _
    rw [slice_eq, List.length_reverse]
    obtain ⟨hnone, _⟩ | ⟨first, last, hsome, hrange, hlast, _⟩ :=
      rankRange_cases start stop items.length
    · rw [hnone]
    · rw [hsome]
      exact mirrored_slice hrange hlast

end Slices

/-! ## Words -/

/-- A value that a signed 64-bit word holds. -/
def signed? (value : Int) : Option Int :=
  if Int64.minValue.toInt ≤ value ∧ value ≤ Int64.maxValue.toInt then some value else none

/-- A value that an unsigned 64-bit word holds. -/
def unsigned? (value : Int) : Option Int :=
  if 0 ≤ value ∧ value < UInt64.size then some value else none

/-- The position that an index stands for, computed in words. -/
def positionWithin (length : Int) (index : Int64) : Option Int :=
  if index.toInt < 0 then signed? (length + index.toInt) else some index.toInt

/-- As `positionWithin`, moved to the last position if it is beyond that. -/
def lastWithin (length : Int) (index : Int64) : Option Int := do
  let last ← positionWithin length index
  if length ≤ last then signed? (length - 1) else some last

/-- The rank counted from the other end, computed in words. -/
def mirrorWithin (size rank : Int) : Option Int := do
  let top ← unsigned? (size - 1)
  unsigned? (top - rank)

/-- The ranks at the ends of a range in ascending order, computed in words. -/
def endsWithin (size first last : Int) (reverse : Bool) : Option (Int × Int) := do
  let first ← unsigned? first
  let last ← unsigned? last
  if reverse then return (← mirrorWithin size last, ← mirrorWithin size first)
  else return (first, last)

/-- The window that two indices open on a list of `size` members, as the number of
members to skip and the number to take, computed in words.  It is `none` if a result
leaves the range of its word, and `some none` if nothing is selected.  Indices are
signed; ranks are not. -/
def windowWithin (start stop : Int64) (size : Nat) (reverse : Bool) :
    Option (Option (Nat × Nat)) := do
  let length ← signed? (size : Int)
  let first ← positionWithin length start
  let last ← lastWithin length stop
  let first := if first < 0 then 0 else first
  if last < first ∨ length ≤ first then some none
  else do
    let (low, high) ← endsWithin size first last reverse
    let span ← unsigned? (high - low)
    let count ← unsigned? (span + 1)
    some (some (low.toNat, count.toNat))

section Words

variable {start stop : Int64} {size : Nat} {value : Int}

theorem word_bounds : Int64.minValue.toInt = -9223372036854775808 ∧
    Int64.maxValue.toInt = 9223372036854775807 ∧ UInt64.size = 18446744073709551616 :=
  ⟨rfl, rfl, rfl⟩

theorem signed?_of (hlow : Int64.minValue.toInt ≤ value) (hhigh : value ≤ Int64.maxValue.toInt) :
    signed? value = some value :=
  if_pos ⟨hlow, hhigh⟩

theorem unsigned?_of (hlow : 0 ≤ value) (hhigh : value < UInt64.size) :
    unsigned? value = some value :=
  if_pos ⟨hlow, hhigh⟩

theorem positionWithin_eq (hsize : size ≤ Int64.maxValue.toInt) (index : Int64) :
    positionWithin size index = some (position size index.toInt) := by
  have hbounds := word_bounds
  have hleast := index.le_toInt
  unfold positionWithin position
  split
  · exact signed?_of (by omega) (by omega)
  · rfl

theorem mirrorWithin_eq (hsize : size ≤ Int64.maxValue.toInt) {rank : Nat} (hrank : rank < size) :
    mirrorWithin size rank = some ↑(size - 1 - rank) := by
  have hbounds := word_bounds
  have htop : unsigned? ((size : Int) - 1) = some ((size : Int) - 1) :=
    unsigned?_of (by omega) (by omega)
  have hmirror : (size : Int) - 1 - rank = ↑(size - 1 - rank) := by omega
  rw [mirrorWithin, htop, ← hmirror]
  exact unsigned?_of (by omega) (by omega)

theorem lastWithin_eq (hsize : size ≤ Int64.maxValue.toInt) (index : Int64) :
    lastWithin size index = some (min (position size index.toInt) (size - 1)) := by
  have hbounds := word_bounds
  rw [lastWithin, positionWithin_eq hsize]
  show (if (size : Int) ≤ position size index.toInt then _ else _) = _
  split
  · rw [signed?_of (by omega) (by omega)]
    congr 1
    omega
  · congr 1
    omega

theorem endsWithin_eq (hsize : size ≤ Int64.maxValue.toInt) {first last : Nat}
    (hrange : first ≤ last) (hlast : last < size) (reverse : Bool) :
    endsWithin size first last reverse =
      some (if reverse then (↑(size - 1 - last), ↑(size - 1 - first)) else (↑first, ↑last)) := by
  have hbounds := word_bounds
  rw [endsWithin, unsigned?_of (by omega) (by omega), unsigned?_of (by omega) (by omega)]
  simp only [Option.bind_eq_bind, Option.bind_some, mirrorWithin_eq hsize hlast,
    mirrorWithin_eq hsize (Nat.lt_of_le_of_lt hrange hlast)]
  split <;> rfl

/-- No step of the computation leaves the range of its word, and it ends with the window
of the ranks that the indices stand for. -/
theorem windowWithin_eq (hsize : size ≤ Int64.maxValue.toInt) (start stop : Int64)
    (reverse : Bool) :
    windowWithin start stop size reverse =
      some ((rankRange? start.toInt stop.toInt size).map fun (first, last) =>
        (if reverse then size - 1 - last else first, last - first + 1)) := by
  have hbounds := word_bounds
  have hlength : signed? (size : Int) = some (size : Int) := signed?_of (by omega) (by omega)
  unfold windowWithin
  simp only [hlength, positionWithin_eq hsize, lastWithin_eq hsize, Option.bind_eq_bind,
    Option.bind_some]
  have hfirst : (if position size start.toInt < 0 then 0 else position size start.toInt) =
      max (position size start.toInt) 0 := by omega
  rw [rankRange_eq, hfirst]
  by_cases hrange : max (position size start.toInt) 0 ≤ min (position size stop.toInt) (size - 1)
  · obtain ⟨first, hfirst⟩ := Int.eq_ofNat_of_zero_le (a := max (position size start.toInt) 0)
      (by omega)
    obtain ⟨last, hlast⟩ := Int.eq_ofNat_of_zero_le
      (a := min (position size stop.toInt) (size - 1)) (by omega)
    rw [if_pos hrange, hfirst, hlast, if_neg (by omega),
      endsWithin_eq hsize (by omega) (by omega)]
    have hcount : ∀ low high : Nat, (high : Int) - low = last - first →
        ((unsigned? (high - low)).bind fun span => (unsigned? (span + 1)).bind fun count =>
          some (some ((low : Int).toNat, count.toNat))) = some (some (low, last - first + 1)) := by
      intro low high hspan
      rw [hspan, unsigned?_of (by omega) (by omega), Option.bind_some,
        unsigned?_of (by omega) (by omega), Option.bind_some]
      congr 3
      omega
    cases reverse with
    | true => exact hcount (size - 1 - last) (size - 1 - first) (by omega)
    | false => exact hcount first last rfl
  · rw [if_neg hrange, if_pos (by omega)]
    rfl

end Words

/-! ## The answer -/

/-- A window of which a word can say the length shows the standings at its ranks. -/
theorem Ranking.rankWindow_eq (ranking : Ranking) {start stop : UInt64} (hrange : start ≤ stop)
    (hcount : stop.toNat - start.toNat + 1 < UInt64.size) :
    ranking.rankWindow start stop =
      (ranking.standings.drop start.toNat).take (stop.toNat - start.toNat + 1) := by
  have hlength : (stop - start + 1).toNat = stop.toNat - start.toNat + 1 := by
    rw [UInt64.toNat_add, UInt64.toNat_sub_of_le _ _ hrange]
    exact Nat.mod_eq_of_lt hcount
  rw [rankWindow, hlength]

namespace Rankings

variable {now : Millis} {store : Store} {key : Bytes} {slot : Slot} {ranking : Ranking}

/-- A walk from one rank to another one passes the members in between. -/
theorem map_rankWindow {low high : Nat} (hrange : low ≤ high)
    (hhigh : high ≤ Int64.maxValue.toInt) :
    (ranking.rankWindow (.ofNat low) (.ofNat high)).map ranking.entry =
      (ranking.entries.drop low).take (high - low + 1) := by
  have hbounds := word_bounds
  have hlow : (UInt64.ofNat low).toNat = low :=
    UInt64.toNat_ofNat_of_lt' (show low < UInt64.size by omega)
  have hhigh : (UInt64.ofNat high).toNat = high :=
    UInt64.toNat_ofNat_of_lt' (show high < UInt64.size by omega)
  have hordered : UInt64.ofNat low ≤ UInt64.ofNat high := by
    rw [UInt64.le_iff_toNat_le, hlow, hhigh]
    exact hrange
  rw [ranking.rankWindow_eq hordered (by omega), hlow, hhigh, Ranking.entries, List.map_take,
    List.map_drop]

theorem on_rankedCount (hopen : store.closed = false) (hslot : store.live? now key = some slot)
    (hzset : slot.content = .zset ranking) :
    (query (.rankedCount key)).on now store = (.ok ranking.size, store) := by
  rw [Script.on_query, Store.answer_rankedCount hopen hslot hzset]
  rfl

/-- A live sorted set answers a walk with the members at the ranks on the way. -/
theorem on_walk (hopen : store.closed = false) (hslot : store.live? now key = some slot)
    (hzset : slot.content = .zset ranking) {low high : Nat} (hrange : low ≤ high)
    (hhigh : high ≤ Int64.maxValue.toInt) :
    (query (.byRank key (.ofNat low) (.ofNat high))).on now store =
      (.ok ((ranking.entries.drop low).take (high - low + 1)), store) := by
  have hbounds := word_bounds
  have hordered : ¬ UInt64.ofNat high < UInt64.ofNat low := by
    rw [UInt64.lt_iff_toNat_lt, UInt64.toNat_ofNat_of_lt' (show high < UInt64.size by omega),
      UInt64.toNat_ofNat_of_lt' (show low < UInt64.size by omega)]
    omega
  rw [Script.on_query, Store.answer_byRank hopen hslot hzset hordered,
    map_rankWindow hrange hhigh, Store.perform_of_reads rfl]
  rfl

/-- A live sorted set answers with the members at the ranks of the range. -/
theorem on_byRank (hopen : store.closed = false) (hslot : store.live? now key = some slot)
    (hzset : slot.content = .zset ranking) (hsize : ranking.size ≤ Int64.maxValue.toInt)
    (start stop : Int) (reverse : Bool) :
    (byRank key start stop reverse).on now store =
      (match rankRange? start stop ranking.size with
        | none => .error .rangeEmpty
        | some (first, last) => .ok (if reverse then
            ((ranking.entries.drop (ranking.size - 1 - last)).take (last - first + 1)).reverse
          else (ranking.entries.drop first).take (last - first + 1)), store) := by
  have hkind : slot.content.kind = .zset := congrArg Content.kind hzset
  have hbounds := word_bounds
  rw [byRank, Script.bind_eq, Script.discard_eq, Script.bind_assoc,
    Script.on_bind_ok (on_requireKind hopen hslot hkind)]
  show ((query (.rankedCount key)).bind _).on now store = _
  rw [Script.on_bind_ok (on_rankedCount hopen hslot hzset)]
  obtain ⟨hnone, _⟩ | ⟨first, last, hsome, hrange, hlast, _⟩ :=
    rankRange_cases start stop ranking.size
  · rw [hnone]
    rfl
  · rw [hsome]
    cases reverse with
    | true =>
      show ((query (.byRank key (.ofNat (ranking.size - 1 - last))
        (.ofNat (ranking.size - 1 - first)))).bind _).on now store = _
      have hcount : ranking.size - 1 - first - (ranking.size - 1 - last) + 1 =
          last - first + 1 := by
        omega
      rw [Script.on_bind_ok (on_walk hopen hslot hzset (by omega) (by omega)), hcount]
      rfl
    | false =>
      show ((query (.byRank key (.ofNat first) (.ofNat last))).bind _).on now store = _
      rw [Script.on_bind_ok (on_walk hopen hslot hzset hrange (by omega))]
      rfl

end Rankings

/-- A request for a range of ranks is answered with exactly the members at the positions
between its two indices, in the list of all members by score and then by name, or in
that list reversed.  An empty range has a status of its own, and no pair of indices makes
the computation of the window leave the range of a word.  A signed word can count the
members: no memory holds more. -/
theorem Command.zrange_slices {store : Store} (h : store.Reachable) (context : Context)
    {key : Bytes} {slot : Slot} {ranking : Ranking}
    (hslot : store.live? context.now key = some slot) (hzset : slot.content = .zset ranking)
    (hsize : ranking.size ≤ Int64.maxValue.toInt) :
    let entries := ranking.entries
    (entries.Pairwise fun a b =>
      a.score < b.score ∨ a.score = b.score ∧ a.member < b.member) ∧
    (∀ entry, entry ∈ entries ↔
      ranking.byMember[entry.member]? = some ⟨entry.score, entry.version⟩) ∧
    entries.length = ranking.size ∧
    ∀ (start stop : Int64) (withScores reverse : Bool),
      let selected := slice start.toInt stop.toInt (if reverse then entries.reverse else entries)
      (Command.zrange key start.toInt stop.toInt withScores reverse).run context store =
        (if selected = [] then ⟨.rangeEmpty, .placed []⟩
          else ⟨.ok, .placed (selected.map fun entry =>
            ⟨entry.member, entry.version, if withScores then some entry.score else none⟩)⟩,
          store) ∧
      ∃ window, windowWithin start stop ranking.size reverse = some window ∧
        selected = match window with
          | none => []
          | some (skipped, taken) =>
            let walked := (entries.drop skipped).take taken
            if reverse then walked.reverse else walked := by
  have hopen := h.open_of_live hslot
  have hcoherent := (h.sound key slot (Store.live?_eq_some.mp hslot).1).coherent ranking hzset
  have hlength := hcoherent.length_entries
  refine ⟨ranking.pairwise_entries, fun entry => hcoherent.mem_entries, hlength,
    fun start stop withScores reverse => ?_⟩
  have hslice := slice_directed start.toInt stop.toInt ranking.entries reverse
  rw [hlength] at hslice
  dsimp only
  rw [hslice, run_of_reply (by rfl), Rankings.on_byRank hopen hslot hzset hsize,
    windowWithin_eq hsize]
  obtain ⟨hnone, _⟩ | ⟨first, last, hsome, hrange, hlast, _⟩ :=
    rankRange_cases start.toInt stop.toInt ranking.size
  · rw [hnone]
    exact ⟨rfl, none, rfl, rfl⟩
  · have hfilled : ∀ skipped < ranking.size,
        (ranking.entries.drop skipped).take (last - first + 1) ≠ [] := by
      intro skipped hskipped
      refine List.ne_nil_of_length_pos ?_
      rw [List.length_take, List.length_drop, hlength]
      omega
    rw [hsome]
    cases reverse with
    | true =>
      have hsome := hfilled (ranking.size - 1 - last) (by omega)
      refine ⟨?_, some (ranking.size - 1 - last, last - first + 1), rfl, rfl⟩
      exact (congrArg (·, store) (if_neg (mt List.reverse_eq_nil_iff.mp hsome))).symm
    | false =>
      have hsome := hfilled first (by omega)
      refine ⟨?_, some (first, last - first + 1), rfl, rfl⟩
      exact (congrArg (·, store) (if_neg hsome)).symm

/-- The two members before the last one, counted from the end, and the whole of a set
between the least and the greatest index. -/
theorem Command.zrange_slices_three :
    let context : Context := ⟨⟨5000⟩, .absolute⟩
    let store := (((Store.empty.perform 0 (.putScore [122] [97] 10 1)).2.perform 0
      (.putScore [122] [98] 5 2)).2.perform 0 (.putScore [122] [99] (-3) 4)).2
    let ranking := ((Ranking.empty.insert [97] 10 1).insert [98] 5 2).insert [99] (-3) 4
    store.Reachable ∧ store.live? context.now [122] = some ⟨.zset ranking, 4, none⟩ ∧
      ranking.size ≤ Int64.maxValue.toInt ∧
      ranking.entries = [⟨[99], -3, 4⟩, ⟨[98], 5, 2⟩, ⟨[97], 10, 1⟩] ∧
      ((Command.zrange [122] (-3) (-2) true true).run context store).1 =
        ⟨.ok, .placed [⟨[97], 1, some 10⟩, ⟨[98], 2, some 5⟩]⟩ ∧
      ((Command.zrange [122] Int64.minValue.toInt Int64.maxValue.toInt false false).run context
        store).1 = ⟨.ok, .placed [⟨[99], 4, none⟩, ⟨[98], 2, none⟩, ⟨[97], 1, none⟩]⟩ ∧
      ((Command.zrange [122] 3 Int64.maxValue.toInt false true).run context store).1 =
        ⟨.rangeEmpty, .placed []⟩ := by
  intro context store ranking
  have hreachable : store.Reachable :=
    ((Store.Reachable.empty.perform 0 _).perform 0 _).perform 0 _
  have hslot : store.live? context.now [122] = some ⟨.zset ranking, 4, none⟩ := rfl
  have hsize : ranking.size ≤ Int64.maxValue.toInt := by decide
  obtain ⟨_, _, _, hanswer⟩ := Command.zrange_slices hreachable context hslot rfl hsize
  refine ⟨hreachable, hslot, hsize, rfl, ?_, ?_, ?_⟩
  · exact congrArg Prod.fst (hanswer (-3) (-2) true true).1
  · exact congrArg Prod.fst (hanswer Int64.minValue Int64.maxValue false false).1
  · exact congrArg Prod.fst (hanswer 3 Int64.maxValue false true).1

end Keyspace
