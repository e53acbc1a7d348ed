import Keyspace.Proofs.Agenda
import Keyspace.Proofs.Order
import Mathlib.Data.List.Nodup

/-!
# The two views of a sorted set

A sorted set keeps its members twice: with their marks, and in the order of
their standings.  This module shows that the two views never drift apart.

There are four groups.

* Rankings.  `Ranking.Coherent` says that the views agree.  Scoring a member and
  removing one keep that (`Coherent.insert`, `Coherent.erase`).
* Ranges.  `Ranking.entries` reads a coherent ranking off in order:
  `mem_entries`, `pairwise_entries` and `Coherent.length_entries` say that it
  lists every member once.  The widest windows of ranks and of scores show all
  of it (`rankWindow_all`, `scoreWindow_all`).
* Stores.  `Store.Sound` says that every value is as it should be: no collection
  without entries, and coherent rankings.  Every call keeps that
  (`Store.Sound.perform`), and so it is true of every reachable store.
* The answers.  `views_agree` puts the groups together.
-/

namespace Keyspace

/-! ## Rankings -/

namespace Ranking

variable {ranking : Ranking} {member other : Bytes} {score : Int64} {version : Version}
  {standing : Standing}

/-- Whether the members stand where their marks say. -/
def Coherent (ranking : Ranking) : Prop :=
  ∀ standing, standing ∈ ranking.byScore ↔
    ranking.byMember[standing.member]?.map Mark.score = some standing.score

theorem coherent_empty : Coherent empty := by
  intro standing
  simp [empty]

theorem getElem?_insert (ranking : Ranking) (member other : Bytes) (score : Int64)
    (version : Version) :
    (ranking.insert member score version).byMember[other]? =
      if member = other then some ⟨score, version⟩ else ranking.byMember[other]? := by
  simp [insert, Std.ExtTreeMap.getElem?_insert]

theorem getElem?_erase (ranking : Ranking) (member other : Bytes) :
    (ranking.erase member).byMember[other]? =
      if member = other then none else ranking.byMember[other]? := by
  unfold erase
  split
  · rename_i hnone
    split
    · rename_i hsame
      rw [← hsame, hnone]
    · rfl
  · simp [Std.ExtTreeMap.getElem?_erase]

namespace Coherent

/-- Scoring a member puts its standing in place of the one that it had. -/
theorem mem_insert (h : ranking.Coherent) :
    standing ∈ (ranking.insert member score version).byScore ↔
      if member = standing.member then standing.score = score
      else standing ∈ ranking.byScore := by
  obtain ⟨points, name⟩ := standing
  have hstanding := h ⟨points, name⟩
  unfold Ranking.insert
  split
  · rename_i hnone
    simp only [Std.ExtTreeSet.mem_insert, Std.LawfulEqOrd.compare_eq_iff_eq, Standing.mk.injEq]
    grind
  · rename_i old hold
    simp only [Std.ExtTreeSet.mem_insert, Std.ExtTreeSet.mem_erase,
      Std.LawfulEqOrd.compare_eq_iff_eq, ne_eq, Standing.mk.injEq]
    grind

/-- A member stands where its mark says and nowhere else. -/
theorem mem_byScore (h : ranking.Coherent) :
    ⟨score, member⟩ ∈ ranking.byScore ↔
      ∃ version, ranking.byMember[member]? = some ⟨score, version⟩ := by
  rw [h ⟨score, member⟩, Option.map_eq_some_iff]
  constructor
  · rintro ⟨mark, hmark, rfl⟩
    exact ⟨mark.version, hmark⟩
  · rintro ⟨version, hmark⟩
    exact ⟨⟨score, version⟩, hmark, rfl⟩

theorem insert (h : ranking.Coherent) (member : Bytes) (score : Int64) (version : Version) :
    (ranking.insert member score version).Coherent := by
  intro standing
  rw [h.mem_insert, getElem?_insert]
  split
  · simp [eq_comm]
  · exact h standing

theorem erase (h : ranking.Coherent) (member : Bytes) : (ranking.erase member).Coherent := by
  rintro ⟨points, name⟩
  have hstanding := h ⟨points, name⟩
  rw [getElem?_erase]
  unfold Ranking.erase
  split
  · grind
  · rename_i old hold
    simp only [Std.ExtTreeSet.mem_erase, Std.LawfulEqOrd.compare_eq_iff_eq, ne_eq,
      Standing.mk.injEq]
    grind

/-- A coherent ranking is given by its marks. -/
theorem ext {a b : Ranking} (ha : a.Coherent) (hb : b.Coherent) (h : a.byMember = b.byMember) :
    a = b := by
  have hscore : a.byScore = b.byScore := by
    apply Std.ExtTreeSet.ext_mem
    intro standing
    rw [ha standing, hb standing, h]
  cases a
  cases b
  cases h
  cases hscore
  rfl

end Coherent

/-- The ranking after members have been taken out of it, one after the other. -/
def without (ranking : Ranking) (gone : List Bytes) : Ranking :=
  gone.foldl erase ranking

theorem foldl_erase_eq (doomed : List Standing) (ranking : Ranking) :
    doomed.foldl (fun rest standing => rest.erase standing.member) ranking =
      ranking.without (doomed.map Standing.member) :=
  List.foldl_map.symm

/-- Who is taken out is gone, and everybody else keeps the mark. -/
theorem getElem?_without (ranking : Ranking) (gone : List Bytes) (member : Bytes) :
    (ranking.without gone).byMember[member]? =
      if member ∈ gone then none else ranking.byMember[member]? := by
  induction gone generalizing ranking with
  | nil => rfl
  | cons first rest ih =>
    rw [without, List.foldl_cons, ← without, ih, getElem?_erase]
    by_cases hsame : first = member
    · simp [hsame]
    · simp [hsame, Ne.symm hsame]

theorem Coherent.without (h : ranking.Coherent) (gone : List Bytes) :
    (ranking.without gone).Coherent := by
  induction gone generalizing ranking with
  | nil => exact h
  | cons first rest ih => exact ih (h.erase first)

/-! ## Ranges -/

/-- All members in order, each with its mark. -/
def entries (ranking : Ranking) : List Ranked :=
  ranking.standings.map ranking.entry

theorem Coherent.mem_entries (h : ranking.Coherent) {entry : Ranked} :
    entry ∈ ranking.entries ↔
      ranking.byMember[entry.member]? = some ⟨entry.score, entry.version⟩ := by
  obtain ⟨member, score, version⟩ := entry
  simp only [entries, List.mem_map, standings, Std.ExtTreeSet.mem_toList, h _]
  constructor
  · rintro ⟨⟨points, name⟩, hmark, hentry⟩
    cases hentry
    obtain ⟨mark, hmark, rfl⟩ := Option.map_eq_some_iff.mp hmark
    simp [hmark]
  · intro hmark
    exact ⟨⟨score, member⟩, by simp [hmark], by simp [entry, hmark]⟩

theorem pairwise_entries (ranking : Ranking) :
    ranking.entries.Pairwise fun a b =>
      a.score < b.score ∨ a.score = b.score ∧ a.member < b.member := by
  rw [entries, List.pairwise_map]
  apply Std.ExtTreeSet.ordered_toList.imp
  intro a b hlt
  exact Standing.compare_eq_lt.mp hlt

/-- Every member stands once. -/
theorem Coherent.length_standings (h : ranking.Coherent) :
    ranking.standings.length = ranking.size := by
  have hstandings : (ranking.standings.map Standing.member).Nodup := by
    rw [List.Nodup, List.pairwise_map]
    refine Std.ExtTreeSet.distinct_toList.imp_of_mem ?_
    intro a b ha hb hne hsame
    have hscore := (h a).mp (Std.ExtTreeSet.mem_toList.mp ha)
    rw [hsame, (h b).mp (Std.ExtTreeSet.mem_toList.mp hb)] at hscore
    have heq : a = b := by
      cases a
      cases b
      simp_all
    exact hne (Std.LawfulEqOrd.compare_eq_iff_eq.mpr heq)
  have hmembers : ranking.byMember.keys.Nodup := by
    refine Std.ExtTreeMap.distinct_keys.imp ?_
    intro a b hne hsame
    exact hne (Std.LawfulEqOrd.compare_eq_iff_eq.mpr hsame)
  have hperm : (ranking.standings.map Standing.member).Perm ranking.byMember.keys := by
    rw [List.perm_ext_iff_of_nodup hstandings hmembers]
    intro member
    simp only [List.mem_map, standings, Std.ExtTreeSet.mem_toList, h _,
      Std.ExtTreeMap.mem_keys]
    constructor
    · rintro ⟨standing, hmark, rfl⟩
      obtain ⟨mark, hmark, _⟩ := Option.map_eq_some_iff.mp hmark
      exact Std.ExtTreeMap.mem_iff_isSome_getElem?.mpr (by rw [hmark]; rfl)
    · intro hmember
      obtain ⟨mark, hmark⟩ :=
        Option.isSome_iff_exists.mp (Std.ExtTreeMap.mem_iff_isSome_getElem?.mp hmember)
      exact ⟨⟨mark.score, member⟩, by simp [hmark], rfl⟩
  rw [size, ← Std.ExtTreeMap.length_keys, ← hperm.length_eq, List.length_map]

theorem Coherent.length_entries (h : ranking.Coherent) :
    ranking.entries.length = ranking.size := by
  rw [entries, List.length_map, h.length_standings]

theorem Coherent.entries_ne_nil (h : ranking.Coherent)
    (hfilled : (Content.zset ranking).isEmpty = false) : ranking.entries ≠ [] := by
  intro hnone
  have hsize : ranking.byMember.size = 0 := by
    rw [← size, ← h.length_entries, hnone]
    rfl
  rw [Content.isEmpty, Std.ExtTreeMap.isEmpty_eq_false_iff] at hfilled
  exact hfilled (Std.ExtTreeMap.eq_empty_iff_size_eq_zero.mpr hsize)

theorem pairwise_standings (ranking : Ranking) :
    ranking.standings.Pairwise fun a b => a.score ≤ b.score := by
  refine Std.ExtTreeSet.ordered_toList.imp fun {a b} hlt => ?_
  rcases Standing.compare_eq_lt.mp hlt with hscore | ⟨hscore, _⟩
  · exact Int64.le_of_lt hscore
  · exact hscore ▸ Int64.le_refl _

/-- A walk from one score to another one passes the standings in between. -/
theorem scoreWindow_eq_filter (ranking : Ranking) (low high : Int64) :
    ranking.scoreWindow low high =
      ranking.standings.filter fun standing => low ≤ standing.score ∧ standing.score ≤ high := by
  have hlow : ranking.standings.Pairwise fun a b =>
      decide (b.score < low) = true → decide (a.score < low) = true := by
    refine (pairwise_standings ranking).imp fun {a b} hle hb => ?_
    exact decide_eq_true (Int64.lt_of_le_of_lt hle (of_decide_eq_true hb))
  have hhigh : ranking.standings.Pairwise fun a b =>
      decide (b.score ≤ high) = true → decide (a.score ≤ high) = true := by
    refine (pairwise_standings ranking).imp fun {a b} hle hb => ?_
    exact decide_eq_true (Int64.le_trans hle (of_decide_eq_true hb))
  rw [scoreWindow, dropWhile_eq_filter hlow, takeWhile_eq_filter (hhigh.filter _),
    List.filter_filter]
  refine List.filter_congr fun standing _ => ?_
  simp only [← decide_not, Int64.not_lt, Bool.decide_and, Bool.and_comm]

/-- A window of scores shows who stands there. -/
theorem mem_scoreWindow {low high : Int64} :
    standing ∈ ranking.scoreWindow low high ↔
      standing ∈ ranking.byScore ∧ low ≤ standing.score ∧ standing.score ≤ high := by
  rw [scoreWindow_eq_filter, List.mem_filter, standings, Std.ExtTreeSet.mem_toList,
    decide_eq_true_eq]

/-- A window of scores shows the members with scores in between. -/
theorem map_scoreWindow (ranking : Ranking) (low high : Int64) :
    (ranking.scoreWindow low high).map ranking.entry =
      ranking.entries.filter fun entry => low ≤ entry.score ∧ entry.score ≤ high := by
  rw [scoreWindow_eq_filter, entries, List.filter_map]
  rfl

/-- Between the lowest and the highest score stands everybody. -/
theorem scoreWindow_all (ranking : Ranking) :
    ranking.scoreWindow Int64.minValue Int64.maxValue = ranking.standings := by
  rw [scoreWindow_eq_filter, List.filter_eq_self]
  exact fun standing _ =>
    decide_eq_true ⟨Int64.minValue_le standing.score, Int64.le_maxValue standing.score⟩

/-- From the first rank to the last one stands everybody. -/
theorem rankWindow_all {count : UInt64} (h : ranking.standings.length = count.toNat) :
    ranking.rankWindow 0 (count - 1) = ranking.standings := by
  have hcount : count - 1 - 0 + 1 = count := by simp
  rw [rankWindow, hcount]
  exact List.take_of_length_le (by simp [h])

end Ranking

/-! ## Stores -/

/-- Whether a value is as the store keeps it: a string, or a collection with
entries, and if that is a sorted set, with views that agree. -/
structure Content.Sound (content : Content) : Prop where
  filled : content.isEmpty = false
  coherent : ∀ ranking, content = .zset ranking → ranking.Coherent

namespace Slot

variable {slot next : Slot} {α β : Type}

theorem sound_string (item : Item) : (Content.string item).Sound :=
  ⟨rfl, nofun⟩

theorem sound_hash (fields : Fields) (name : Bytes) (item : Item) :
    (Content.hash (fields.insert name item)).Sound :=
  ⟨by simp [Content.isEmpty], nofun⟩

theorem sound_set (members : Members) (name : Bytes) (version : Version) :
    (Content.set (members.insert name version)).Sound :=
  ⟨by simp [Content.isEmpty], nofun⟩

theorem sound_zset {ranking : Ranking} (h : ranking.Coherent) (name : Bytes) (score : Int64)
    (version : Version) : (Content.zset (ranking.insert name score version)).Sound := by
  refine ⟨by simp [Content.isEmpty, Ranking.insert], fun other hother => ?_⟩
  cases hother
  exact h.insert name score version

theorem sound_reschedule (h : slot.content.Sound) (deadline : Option Millis)
    (version : Version) : (slot.reschedule deadline version).content.Sound := by
  unfold reschedule
  dsimp only
  split
  · exact sound_string _
  · exact h

/-- A slot that is kept unless it is empty is not empty. -/
theorem sound_of_unlessEmpty (h : slot.unlessEmpty = some next)
    (hcoherent : ∀ ranking, slot.content = .zset ranking → ranking.Coherent) :
    next.content.Sound := by
  unfold unlessEmpty at h
  split at h
  · cases h
  · rename_i hfilled
    cases h
    exact ⟨Bool.eq_false_iff.mpr hfilled, hcoherent⟩

end Slot

/-- What a call makes of a sound slot is sound. -/
theorem Call.sound_effect {c : Call} {slot? : Option Slot} {next : Slot}
    (hslot : ∀ slot, slot? = some slot → slot.content.Sound) (h : c.effect slot? = some next) :
    next.content.Sound := by
  cases slot? with
  | none =>
    cases c with
    | put => cases h; exact Slot.sound_string _
    | putField => cases h; exact Slot.sound_hash _ _ _
    | addMember => cases h; exact Slot.sound_set _ _ _
    | putScore => cases h; exact Slot.sound_zset Ranking.coherent_empty _ _ _
    | dropByScore =>
      rw [effect] at h
      split at h <;> cases h
    | _ => cases h
  | some slot =>
    have hsound := hslot slot rfl
    cases c with
    | delete => cases h
    | put => cases h; exact Slot.sound_string _
    | setDeadline => cases h; exact Slot.sound_reschedule hsound _ _
    | putField =>
      refine Slot.kept_of (p := (·.content.Sound)) (by rfl) hsound (fun fields _ hnext => ?_) h
      cases hnext
      exact Slot.sound_hash _ _ _
    | dropField =>
      refine Slot.kept_of (p := (·.content.Sound)) (by rfl) hsound (fun fields _ hnext => ?_) h
      refine Slot.sound_of_unlessEmpty hnext fun ranking hranking => ?_
      cases hranking
    | addMember =>
      refine Slot.kept_of (p := (·.content.Sound)) (by rfl) hsound (fun members _ hnext => ?_) h
      cases hnext
      exact Slot.sound_set _ _ _
    | dropMember =>
      refine Slot.kept_of (p := (·.content.Sound)) (by rfl) hsound (fun members _ hnext => ?_) h
      refine Slot.sound_of_unlessEmpty hnext fun ranking hranking => ?_
      cases hranking
    | putScore =>
      refine Slot.kept_of (p := (·.content.Sound)) (by rfl) hsound
        (fun ranking hranking hnext => ?_) h
      cases hnext
      exact Slot.sound_zset (hsound.coherent ranking (Slot.zset_eq_ok hranking)) _ _ _
    | dropScore _ name =>
      refine Slot.kept_of (p := (·.content.Sound)) (by rfl) hsound
        (fun ranking hranking hnext => ?_) h
      refine Slot.sound_of_unlessEmpty hnext fun rest hrest => ?_
      cases hrest
      exact (hsound.coherent ranking (Slot.zset_eq_ok hranking)).erase name
    | dropByScore _ low high version =>
      rw [effect] at h
      split at h
      · cases h
        exact hsound
      · refine Slot.kept_of (p := (·.content.Sound)) (by rfl) hsound
          (fun ranking hranking hnext => ?_) h
        have hcoherent := hsound.coherent ranking (Slot.zset_eq_ok hranking)
        refine Slot.sound_of_unlessEmpty hnext fun rest hrest => ?_
        rw [Ranking.foldl_erase_eq] at hrest
        split at hrest <;> cases hrest <;> exact hcoherent.without _
    | _ => cases h; exact hsound

namespace Store

variable {store : Store} {now : Millis} {key : Bytes} {slot : Slot}

/-- Whether every value that is kept is sound. -/
def Sound (store : Store) : Prop :=
  ∀ (key : Bytes) (slot : Slot), store.slots[key]? = some slot → slot.content.Sound

theorem sound_empty : Sound empty := by
  intro key slot hslot
  simp [empty] at hslot

/-- Every call keeps the values sound. -/
theorem Sound.perform (h : store.Sound) (now : Millis) (c : Call) :
    (store.perform now c).2.Sound := by
  refine forall_slot_perform h fun key _ next hnext => ?_
  refine Call.sound_effect (fun old hold => ?_) hnext
  exact h key old (live?_eq_some.mp hold).1

theorem Reachable.sound (h : Reachable store) : store.Sound :=
  h.induct sound_empty fun now c _ hstore => hstore.perform now c

/-! ## The answers -/

section Answers

variable {ranking : Ranking} (hopen : store.closed = false)
  (hslot : store.live? now key = some slot) (hzset : slot.content = .zset ranking)

include hopen hslot hzset

/-- A question about a live sorted set is asked of its ranking. -/
theorem view_zset {α : Type} (absent : α) (question : Ranking → α) :
    (store.view now key absent fun slot => question <$> slot.zset) = .ok (question ranking) :=
  view_part hopen hslot (by rw [Slot.zset, hzset]) absent question

theorem answer_rankedCount : (store.perform now (.rankedCount key)).1 = .ok ranking.size :=
  view_zset hopen hslot hzset 0 Ranking.size

theorem answer_mark (member : Bytes) :
    (store.perform now (.mark key member)).1 = .ok ranking.byMember[member]? :=
  view_zset hopen hslot hzset none (·.byMember[member]?)

theorem answer_byRank {start stop : UInt64} (hrange : ¬ stop < start) :
    (store.perform now (.byRank key start stop)).1 =
      .ok ((ranking.rankWindow start stop).map ranking.entry) := by
  rw [perform, if_neg hrange]
  exact view_zset hopen hslot hzset [] fun ranking =>
    (ranking.rankWindow start stop).map ranking.entry

theorem answer_byScore {low high : Int64} (hrange : ¬ high < low) :
    (store.perform now (.byScore key low high)).1 =
      .ok ((ranking.scoreWindow low high).map ranking.entry) := by
  rw [perform, if_neg hrange]
  exact view_zset hopen hslot hzset [] fun ranking =>
    (ranking.scoreWindow low high).map ranking.entry

theorem answer_countByScore {low high : Int64} (hrange : ¬ high < low) :
    (store.perform now (.countByScore key low high)).1 =
      .ok (ranking.scoreWindow low high).length := by
  rw [perform, if_neg hrange]
  exact view_zset hopen hslot hzset 0 fun ranking => (ranking.scoreWindow low high).length

end Answers

/-- The two views of a sorted set never drift apart: a member stands where its
mark says and nowhere else.  Hence the walk over all ranks and the walk over all
scores show one list, which is in order and holds exactly the members with their
marks, and both ways of counting give its length.  The number of members is
given as the 64-bit word from which the last rank is computed. -/
theorem views_agree (h : Reachable store) :
    (∀ (key : Bytes) (slot : Slot) (ranking : Ranking),
      store.slots[key]? = some slot → slot.content = .zset ranking →
      (∀ score member, ⟨score, member⟩ ∈ ranking.byScore ↔
        ∃ version, ranking.byMember[member]? = some ⟨score, version⟩) ∧
      ranking.byScore.size = ranking.byMember.size) ∧
    ∀ (now : Millis) (key : Bytes) (slot : Slot) (ranking : Ranking),
      store.live? now key = some slot → slot.content = .zset ranking →
      ∃ entries : List Ranked, entries ≠ [] ∧
        (∀ count : UInt64, (store.perform now (.rankedCount key)).1 = .ok count.toNat →
          (store.perform now (.byRank key 0 (count - 1))).1 = .ok entries) ∧
        (store.perform now (.byScore key Int64.minValue Int64.maxValue)).1 = .ok entries ∧
        (entries.Pairwise fun a b =>
          a.score < b.score ∨ a.score = b.score ∧ a.member < b.member) ∧
        (∀ entry, entry ∈ entries ↔
          (store.perform now (.mark key entry.member)).1 =
            .ok (some ⟨entry.score, entry.version⟩)) ∧
        (store.perform now (.rankedCount key)).1 = .ok entries.length ∧
        (store.perform now (.countByScore key Int64.minValue Int64.maxValue)).1 =
          .ok entries.length := by
  constructor
  · intro key slot ranking hslot hzset
    have hcoherent := (h.sound key slot hslot).coherent ranking hzset
    have hlength := hcoherent.length_standings
    rw [Ranking.standings, Std.ExtTreeSet.length_toList] at hlength
    exact ⟨fun score member => hcoherent.mem_byScore, hlength⟩
  · intro now key slot ranking hslot hzset
    have hopen := h.open_of_live hslot
    have hsound := h.sound key slot (live?_eq_some.mp hslot).1
    have hcoherent := hsound.coherent ranking hzset
    have hcount := answer_rankedCount hopen hslot hzset
    have hrange : ¬ Int64.maxValue < Int64.minValue := by decide
    refine ⟨ranking.entries, ?_, fun count hanswer => ?_, ?_, ranking.pairwise_entries,
      fun entry => ?_, ?_, ?_⟩
    · exact hcoherent.entries_ne_nil (hzset ▸ hsound.filled)
    · rw [hcount, ← hcoherent.length_standings] at hanswer
      rw [answer_byRank hopen hslot hzset (by simp),
        Ranking.rankWindow_all (Except.ok.inj hanswer)]
      rfl
    · rw [answer_byScore hopen hslot hzset hrange, Ranking.scoreWindow_all]
      rfl
    · rw [answer_mark hopen hslot hzset, hcoherent.mem_entries, Except.ok.injEq]
    · rw [hcount, hcoherent.length_entries]
    · rw [answer_countByScore hopen hslot hzset hrange, Ranking.scoreWindow_all,
        hcoherent.length_standings, hcoherent.length_entries]

theorem views_agree_rescored :
    let store := (((Store.empty.perform 0 (.putScore [122] [97] 10 1)).2.perform 0
      (.putScore [122] [98] 5 2)).2.perform 0 (.putScore [122] [97] 3 4)).2
    Reachable store ∧
      (∃ slot ranking, store.live? 0 [122] = some slot ∧ slot.content = .zset ranking ∧
        ⟨3, [97]⟩ ∈ ranking.byScore ∧ ranking.byScore.size = ranking.byMember.size) ∧
      (store.perform 0 (.byRank [122] 0 1)).1 = .ok [⟨[97], 3, 4⟩, ⟨[98], 5, 2⟩] ∧
      (store.perform 0 (.byScore [122] Int64.minValue Int64.maxValue)).1 =
        .ok [⟨[97], 3, 4⟩, ⟨[98], 5, 2⟩] := by
  intro store
  have hreachable : Reachable store :=
    ((Reachable.empty.perform 0 _).perform 0 _).perform 0 _
  obtain ⟨hviews, hanswers⟩ := views_agree hreachable
  obtain ⟨hmem, hsize⟩ := hviews [122] _ _ rfl rfl
  obtain ⟨entries, _, hrank, hscore, _⟩ := hanswers 0 [122] _ _ rfl rfl
  have hshown : (store.perform 0 (.byScore [122] Int64.minValue Int64.maxValue)).1 =
      .ok [⟨[97], 3, 4⟩, ⟨[98], 5, 2⟩] := rfl
  have hentries : entries = [⟨[97], 3, 4⟩, ⟨[98], 5, 2⟩] :=
    Except.ok.inj (hscore.symm.trans hshown)
  refine ⟨hreachable, ⟨_, _, rfl, rfl, (hmem 3 [97]).mpr ⟨4, rfl⟩, hsize⟩, ?_, hshown⟩
  rw [← hentries]
  exact hrank 2 rfl

end Store

end Keyspace
