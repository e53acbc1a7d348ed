import Keyspace.Proofs.Slices

/-!
# Windows of ranks

Whoever calls the store itself gives the two ends of a window of ranks as words, and nothing
has been clipped to the size of the set.  The walk through the window counts its length in a
word, too.  There are 2^64 ranks in words but no word for 2^64, and so one window, and only
this one, is lost: that of all ranks.

* Lists.  `window` says what is meant, and `window_eq` cuts it out with `drop` and `take`.
* Words.  `windowLength` counts the ranks of a window step by step and has no value if a step
  leaves the range of a word (`windowLength_eq_none`).
* The answer.  `Store.byRank_exact_iff` says for which windows it is right.
-/

namespace Keyspace

/-! ## Lists -/

section Lists

variable {α : Type} {first last : Nat}

/-- The items at the positions from `first` to `last`, as far as there are any. -/
def window (first last : Nat) (items : List α) : List α :=
  (items.zipIdx.filter fun (_, place) => first ≤ place ∧ place ≤ last).map Prod.fst

theorem window_eq (hrange : first ≤ last) (items : List α) :
    window first last items = (items.drop first).take (last - first + 1) := by
  have hwindow := filter_zipIdx_eq items 0 first (last + 1)
  have hcount : last + 1 - max first 0 = last - first + 1 := by omega
  rw [Nat.sub_zero, hcount] at hwindow
  refine Eq.trans (congrArg (List.map Prod.fst) (List.filter_congr fun entry _ => ?_)) hwindow
  exact decide_eq_decide.mpr (and_congr_right fun _ => Nat.lt_succ_iff.symm)

/-- Between ends in the wrong order there is no position. -/
theorem window_of_lt (hrange : last < first) (items : List α) : window first last items = [] := by
  rw [window, List.map_eq_nil_iff, List.filter_eq_nil_iff]
  intro entry _ hentry
  have hbetween := of_decide_eq_true hentry
  omega

end Lists

/-! ## Words -/

/-- The greatest rank that a word holds. -/
def greatestRank : UInt64 := .ofNat (UInt64.size - 1)

/-- How many ranks there are from one to another, computed in words.  It is `none` if a
result leaves the range of a word. -/
def windowLength (start stop : UInt64) : Option Int := do
  let span ← unsigned? ((stop.toNat : Int) - start.toNat)
  unsigned? (span + 1)

section Words

variable {start stop : UInt64}

theorem whole_iff :
    start = 0 ∧ stop = greatestRank ↔ stop.toNat - start.toNat + 1 = UInt64.size := by
  have hbounds := word_bounds
  have hstop := stop.toNat_lt
  rw [← UInt64.toNat_inj, ← UInt64.toNat_inj]
  show start.toNat = 0 ∧ stop.toNat = 18446744073709551615 ↔ _
  omega

/-- The window of all ranks, and no other, is longer than a word can say. -/
theorem windowLength_eq (hrange : start ≤ stop) :
    windowLength start stop =
      if start = 0 ∧ stop = greatestRank then none
      else some ↑(stop.toNat - start.toNat + 1) := by
  have hbounds := word_bounds
  have hstop := stop.toNat_lt
  have hle := UInt64.le_iff_toNat_le.mp hrange
  have hspan : unsigned? ((stop.toNat : Int) - start.toNat) = some ↑(stop.toNat - start.toNat) := by
    rw [← Int.ofNat_sub hle]
    exact unsigned?_of (by omega) (by omega)
  rw [windowLength, hspan, Option.bind_eq_bind, Option.bind_some]
  by_cases hwhole : start = 0 ∧ stop = greatestRank
  · have hsize := whole_iff.mp hwhole
    rw [if_pos hwhole, unsigned?, if_neg (by omega)]
  · have hsize := mt whole_iff.mpr hwhole
    rw [if_neg hwhole, unsigned?_of (by omega) (by omega)]
    rfl

end Words

/-! ## The answer -/

namespace Store

variable {store : Store} {now : Millis} {key : Bytes} {slot : Slot} {ranking : Ranking}
  {start stop : UInt64}

section Answers

variable (hopen : store.closed = false) (hslot : store.live? now key = some slot)
  (hzset : slot.content = .zset ranking)

include hopen hslot hzset

/-- A window whose length a word can say shows the members at its ranks. -/
theorem perform_byRank (hwhole : ¬ (start = 0 ∧ stop = greatestRank)) :
    store.perform now (.byRank key start stop) =
      (.ok (window start.toNat stop.toNat ranking.entries), store) := by
  by_cases hrange : stop < start
  · rw [window_of_lt (UInt64.lt_iff_toNat_lt.mp hrange), perform, if_pos hrange]
  · have hordered := UInt64.not_lt.mp hrange
    have hbounds := word_bounds
    have hstop := stop.toNat_lt
    have hcount : stop.toNat - start.toNat + 1 < UInt64.size := by
      have hsize := mt whole_iff.mpr hwhole
      omega
    have hwindow : (ranking.rankWindow start stop).map ranking.entry =
        window start.toNat stop.toNat ranking.entries := by
      rw [ranking.rankWindow_eq hordered hcount, window_eq (UInt64.le_iff_toNat_le.mp hordered),
        Ranking.entries, List.map_take, List.map_drop]
    rw [← hwindow, ← answer_byRank hopen hslot hzset hrange]
    exact Prod.ext rfl (perform_of_reads rfl)

/-- The window of all ranks shows nobody, for its length counts as 0. -/
theorem perform_byRank_whole :
    store.perform now (.byRank key 0 greatestRank) = (.ok [], store) := by
  have hnobody : ranking.rankWindow 0 greatestRank = [] := List.take_zero
  refine Prod.ext ?_ (perform_of_reads rfl)
  rw [answer_byRank hopen hslot hzset (by decide), hnobody]
  rfl

end Answers

/-- A window of ranks shows exactly the members at its ranks, in the list of all members by
score and then by name, unless it is the window of all ranks that a word can hold.  The
length of a window leaves the range of a word for just this one, and it shows nobody. -/
theorem byRank_exact_iff (h : store.Reachable) (hslot : store.live? now key = some slot)
    (hzset : slot.content = .zset ranking) :
    let entries := ranking.entries
    (entries.Pairwise fun a b =>
      a.score < b.score ∨ a.score = b.score ∧ a.member < b.member) ∧
    (∀ entry, entry ∈ entries ↔
      ranking.byMember[entry.member]? = some ⟨entry.score, entry.version⟩) ∧
    ∀ start stop : UInt64,
      let answer := store.perform now (.byRank key start stop)
      (answer = (.ok (window start.toNat stop.toNat entries), store) ↔
        ¬ (start = 0 ∧ stop = greatestRank)) ∧
      (start ≤ stop → (windowLength start stop = none ↔ start = 0 ∧ stop = greatestRank)) ∧
      (start = 0 ∧ stop = greatestRank → answer = (.ok [], store)) := by
  have hopen := h.open_of_live hslot
  have hsound := h.sound key slot (live?_eq_some.mp hslot).1
  have hcoherent := hsound.coherent ranking hzset
  refine ⟨ranking.pairwise_entries, fun entry => hcoherent.mem_entries,
    fun start stop => ⟨⟨?_, perform_byRank hopen hslot hzset⟩, fun hrange => ?_, ?_⟩⟩
  · rintro hexact ⟨rfl, rfl⟩
    -- there is a member, and the answer does not show it
    have hfilled := hcoherent.entries_ne_nil (hzset ▸ hsound.filled)
    have hordered : (0 : UInt64).toNat ≤ greatestRank.toNat := by decide
    rw [perform_byRank_whole hopen hslot hzset, window_eq hordered] at hexact
    have hnobody := (Except.ok.inj (Prod.mk.inj hexact).1).symm
    rw [List.take_eq_nil_iff] at hnobody
    exact hnobody.elim (Nat.succ_ne_zero _) hfilled
  · rw [windowLength_eq hrange]
    split
    · rename_i hwhole
      exact iff_of_true rfl hwhole
    · rename_i hwhole
      exact iff_of_false nofun hwhole
  · rintro ⟨rfl, rfl⟩
    exact perform_byRank_whole hopen hslot hzset

/-- Two members: the windows from 0 to the last rank but one and from 1 to the last rank
reach far beyond the end and are right; the window from 0 to the last rank is not. -/
theorem byRank_exact_iff_two :
    let store := ((Store.empty.perform 0 (.putScore [122] [97] 10 1)).2.perform 0
      (.putScore [122] [98] (-3) 2)).2
    let ranking := (Ranking.empty.insert [97] 10 1).insert [98] (-3) 2
    store.Reachable ∧ store.live? 5 [122] = some ⟨.zset ranking, 2, none⟩ ∧
      (store.perform 5 (.byRank [122] 0 (greatestRank - 1))).1 =
        .ok [⟨[98], -3, 2⟩, ⟨[97], 10, 1⟩] ∧
      (store.perform 5 (.byRank [122] 1 greatestRank)).1 = .ok [⟨[97], 10, 1⟩] ∧
      (store.perform 5 (.byRank [122] 0 greatestRank)).1 = .ok [] ∧
      windowLength 0 greatestRank = none := by
  intro store ranking
  have hreachable : store.Reachable := (Reachable.empty.perform 0 _).perform 0 _
  have hslot : store.live? 5 [122] = some ⟨.zset ranking, 2, none⟩ := rfl
  obtain ⟨_, _, hanswer⟩ := byRank_exact_iff hreachable hslot rfl
  refine ⟨hreachable, hslot, ?_, ?_, ?_, ?_⟩
  · exact congrArg Prod.fst ((hanswer 0 (greatestRank - 1)).1.mpr (by decide))
  · exact congrArg Prod.fst ((hanswer 1 greatestRank).1.mpr (by decide))
  · exact congrArg Prod.fst ((hanswer 0 greatestRank).2.2 ⟨rfl, rfl⟩)
  · exact ((hanswer 0 greatestRank).2.1 (by decide)).mpr ⟨rfl, rfl⟩

/-- A sorted set of one member does not show it between the least and the greatest rank. -/
theorem byRank_not_exact :
    ¬ ∀ (store : Store) (now : Millis) (key : Bytes) (slot : Slot) (ranking : Ranking),
      store.Reachable → store.live? now key = some slot → slot.content = .zset ranking →
        ∀ start stop : UInt64, (store.perform now (.byRank key start stop)).1 =
          .ok (window start.toNat stop.toNat ranking.entries) := by
  intro hexact
  have hreachable : (Store.empty.perform 0 (.putScore [122] [97] 1 1)).2.Reachable :=
    Reachable.empty.perform 0 _
  have hanswer := hexact _ 0 [122] _ _ hreachable rfl rfl 0 greatestRank
  have hmember : window (0 : UInt64).toNat greatestRank.toNat
      (Ranking.empty.insert [97] 1 1).entries = [⟨[97], 1, 1⟩] := by decide
  rw [perform_byRank_whole rfl rfl rfl] at hanswer
  cases (Except.ok.inj hanswer).trans hmember

end Store

end Keyspace
