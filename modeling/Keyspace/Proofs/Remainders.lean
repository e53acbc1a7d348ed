import Keyspace.Proofs.Refusal
import Keyspace.Proofs.Scores

/-!
# What is left of a sorted set

Members are taken out of a sorted set one by one, or all between two scores at once.  Either
way what is left is the same: the ranking without these members (`Ranking.without`), in a
slot of the old deadline and the higher version, or no slot if nobody is left
(`Slot.without`).

* Rankings.  Who is left stands in the order in which everybody stood
  (`Ranking.Coherent.entries_without`), and the members taken out and those left are as many
  as there were (`Ranking.Coherent.size_without_shown`).
* Slots.  What the two calls make of a slot (`Slot.dropScore_eq`, `Slot.dropByScore_eq`).
* Stores.  `Store.Becomes` says that another slot has come under one key and that nothing
  else has changed.
-/

namespace Keyspace

/-! ## Rankings -/

namespace Ranking

variable {ranking : Ranking} {gone : List Bytes} {shown : List Ranked}

theorem size_erase (ranking : Ranking) (member : Bytes) :
    (ranking.byMember.contains member).toNat + (ranking.erase member).size = ranking.size := by
  unfold erase
  split
  · rename_i hnone
    rw [Std.ExtTreeMap.contains_eq_isSome_getElem?, hnone]
    exact Nat.zero_add _
  · rename_i old hold
    have hmem : member ∈ ranking.byMember := by
      rw [Std.ExtTreeMap.mem_iff_isSome_getElem?, hold]
      rfl
    have hfilled : ranking.byMember.size ≠ 0 := by
      intro hzero
      rw [Std.ExtTreeMap.eq_empty_iff_size_eq_zero.mpr hzero] at hmem
      exact Std.ExtTreeMap.not_mem_empty hmem
    have hcontains := Std.ExtTreeMap.contains_iff_mem.mpr hmem
    show (ranking.byMember.contains member).toNat + (ranking.byMember.erase member).size =
      ranking.byMember.size
    rw [Std.ExtTreeMap.size_erase, if_pos hcontains, hcontains, Bool.toNat_true]
    omega

/-- A list in strictly ascending order holds nothing twice. -/
theorem nodup_of_pairwise_lt {items : List Standing}
    (h : items.Pairwise fun a b => compare a b = .lt) : items.Nodup := by
  refine h.imp fun {a b} hlt hsame => ?_
  rw [hsame, Std.compare_self] at hlt
  cases hlt

/-- Who is left stands in the order in which everybody stood. -/
theorem Coherent.standings_without (h : ranking.Coherent) (gone : List Bytes) :
    (ranking.without gone).standings =
      ranking.standings.filter fun standing => standing.member ∉ gone := by
  have hsorted : ∀ rest : Ranking, rest.standings.Pairwise fun a b => compare a b = .lt :=
    fun _ => Std.ExtTreeSet.ordered_toList
  have hkept := (hsorted ranking).filter fun standing => decide (standing.member ∉ gone)
  have hperm : (ranking.without gone).standings.Perm
      (ranking.standings.filter fun standing => standing.member ∉ gone) := by
    rw [List.perm_ext_iff_of_nodup (nodup_of_pairwise_lt (hsorted _))
      (nodup_of_pairwise_lt hkept)]
    intro standing
    rw [List.mem_filter, standings, standings, Std.ExtTreeSet.mem_toList,
      Std.ExtTreeSet.mem_toList, h.without gone standing, h standing, getElem?_without,
      decide_eq_true_eq]
    split
    · rename_i hgone
      simp [hgone]
    · rename_i hleft
      exact ⟨fun hmark => ⟨hmark, hleft⟩, fun hmark => hmark.1⟩
  refine hperm.eq_of_pairwise (fun a b _ _ hab hba => ?_) (hsorted _) hkept
  rw [Std.OrientedCmp.gt_of_lt hab] at hba
  cases hba

theorem Coherent.entries_without (h : ranking.Coherent) (gone : List Bytes) :
    (ranking.without gone).entries = ranking.entries.filter fun entry => entry.member ∉ gone := by
  rw [entries, h.standings_without, entries, List.filter_map]
  refine List.map_congr_left fun standing hstanding => ?_
  have hleft := of_decide_eq_true (List.mem_filter.mp hstanding).2
  rw [entry, entry, getElem?_without, if_neg hleft]

theorem nodup_entries (ranking : Ranking) : ranking.entries.Nodup := by
  have hstandings : ranking.standings.Nodup :=
    nodup_of_pairwise_lt Std.ExtTreeSet.ordered_toList
  refine hstandings.map fun a b hsame => ?_
  rw [entry, entry, Ranked.mk.injEq] at hsame
  obtain ⟨hmember, hscore, _⟩ := hsame
  cases a
  cases b
  cases hmember
  cases hscore
  rfl

/-- Two entries of one member are one entry. -/
theorem Coherent.entry_inj (h : ranking.Coherent) {first second : Ranked}
    (hfirst : first ∈ ranking.entries) (hsecond : second ∈ ranking.entries)
    (hsame : first.member = second.member) : first = second := by
  rw [h.mem_entries] at hfirst hsecond
  rw [hsame, hsecond] at hfirst
  cases first
  cases second
  cases hfirst
  cases hsame
  rfl

theorem Coherent.nodup_members (h : ranking.Coherent) :
    (ranking.entries.map Ranked.member).Nodup := by
  rw [List.Nodup, List.pairwise_map]
  exact ranking.nodup_entries.imp_of_mem fun hfirst hsecond hne hsame =>
    hne (h.entry_inj hfirst hsecond hsame)

/-- To take out the members of some entries takes out these entries and no other. -/
theorem Coherent.entries_without_shown (h : ranking.Coherent)
    (hshown : shown.Sublist ranking.entries) :
    (ranking.without (shown.map Ranked.member)).entries =
      ranking.entries.filter fun entry => entry ∉ shown := by
  rw [h.entries_without]
  refine List.filter_congr fun entry hentry => ?_
  rw [decide_eq_decide, not_iff_not, List.mem_map]
  constructor
  · rintro ⟨other, hother, hsame⟩
    exact h.entry_inj (hshown.subset hother) hentry hsame ▸ hother
  · exact fun hmem => ⟨entry, hmem, rfl⟩

theorem Coherent.size_without_shown (h : ranking.Coherent)
    (hshown : shown.Sublist ranking.entries) :
    shown.length + (ranking.without (shown.map Ranked.member)).size = ranking.size := by
  have hsame : (ranking.entries.filter fun entry => entry ∈ shown).Perm shown := by
    rw [List.perm_ext_iff_of_nodup (ranking.nodup_entries.filter _)
      (hshown.nodup ranking.nodup_entries)]
    intro entry
    rw [List.mem_filter, decide_eq_true_eq]
    exact ⟨fun hmem => hmem.2, fun hmem => ⟨hshown.subset hmem, hmem⟩⟩
  have hsplit := List.length_eq_length_filter_add (l := ranking.entries)
    fun entry => decide (entry ∈ shown)
  rw [← h.length_entries, ← (h.without _).length_entries, h.entries_without_shown hshown, hsplit,
    hsame.length_eq]
  congr 3
  funext entry
  exact decide_not

end Ranking

/-! ## Slots -/

namespace Slot

variable {slot next : Slot} {ranking : Ranking} {member : Bytes} {version : Version}

/-- What is kept of the slot of a sorted set when members are taken out of it: nothing if
everybody is gone. -/
def without (slot : Slot) (ranking : Ranking) (gone : List Bytes) (version : Version) :
    Option Slot :=
  ({ slot with content := .zset (ranking.without gone) }.raise version).unlessEmpty

theorem without_eq (slot : Slot) (ranking : Ranking) (gone : List Bytes) (version : Version) :
    slot.without ranking gone version =
      if (ranking.without gone).size = 0 then none
      else some ⟨.zset (ranking.without gone), max slot.version version, slot.deadline⟩ := by
  rw [without, unlessEmpty]
  refine if_congr ?_ rfl rfl
  show (ranking.without gone).byMember.isEmpty = true ↔ _
  rw [Std.ExtTreeMap.isEmpty_iff, Std.ExtTreeMap.eq_empty_iff_size_eq_zero]
  rfl

/-- To take out one member and then the others is to take out all of them. -/
theorem without_cons (hnext : slot.without ranking [member] version = some next)
    (rest : List Bytes) :
    next.without (ranking.erase member) rest version =
      slot.without ranking (member :: rest) version := by
  have hmax : max (max slot.version version) version = max slot.version version := by grind
  rw [without_eq] at hnext
  split at hnext
  · cases hnext
  · cases hnext
    rw [without_eq, without_eq, hmax]
    rfl

theorem dropScore_eq (hzset : slot.content = .zset ranking) :
    dropScore member version (some slot) =
      .ok (ranking.byMember.contains member, slot.without ranking [member] version) := by
  rw [dropScore, zset, hzset]
  rfl

theorem dropByScore_eq (hzset : slot.content = .zset ranking) {low high : Int64}
    (hsome : ranking.between low high ≠ []) :
    dropByScore low high version (some slot) =
      .ok ((ranking.between low high).length,
        slot.without ranking ((ranking.between low high).map Ranked.member) version) := by
  have hshown : (ranking.scoreWindow low high).map ranking.entry = ranking.between low high :=
    ranking.map_scoreWindow low high
  rw [← hshown, ne_eq, List.map_eq_nil_iff, ← List.isEmpty_iff, Bool.not_eq_true] at hsome
  have hmembers : (ranking.between low high).map Ranked.member =
      (ranking.scoreWindow low high).map Standing.member := by
    rw [← hshown, List.map_map]
    rfl
  have hlength : (ranking.between low high).length = (ranking.scoreWindow low high).length := by
    rw [← hshown, List.length_map]
  rw [dropByScore, zset, hzset, hmembers, hlength, without, ← Ranking.foldl_erase_eq]
  simp only [bind, Except.bind, pure, Except.pure, hsome, Bool.false_eq_true, if_false]

end Slot

/-! ## Stores -/

namespace Store

variable {store after : Store} {now : Millis} {key : Bytes} {slot next : Slot}
  {slot? : Option Slot} {ranking : Ranking} {low high : Int64}

/-- The store with another slot under a key, or without one, and otherwise as it was. -/
structure Becomes (store : Store) (key : Bytes) (slot? : Option Slot) (after : Store) : Prop where
  isOpen : after.closed = false
  self : after.slots[key]? = slot?
  others : ∀ other ≠ key, after.slots[other]? = store.slots[other]?

theorem becomes_replace (hopen : store.closed = false) (key : Bytes) (slot? : Option Slot) :
    store.Becomes key slot? (store.replace key slot?) where
  isOpen := hopen
  self := getElem?_replace_self store key slot?
  others other hother := by rw [getElem?_replace, if_neg hother.symm]

theorem Becomes.of_replace {before? : Option Slot}
    (h : (store.replace key before?).Becomes key slot? after) : store.Becomes key slot? after where
  isOpen := h.isOpen
  self := h.self
  others other hother := by rw [h.others other hother, getElem?_replace, if_neg hother.symm]

/-- A live sorted set that loses some of its members and keeps others stays live. -/
theorem live?_replace_without (hslot : store.live? now key = some slot) {gone : List Bytes}
    {version : Version} (hnext : slot.without ranking gone version = some next) :
    (store.replace key (some next)).live? now key = some next := by
  have hdeadline : next.isExpired now = false := by
    rw [Slot.without_eq] at hnext
    split at hnext
    · cases hnext
    · cases hnext
      exact (live?_eq_some.mp hslot).2
  rw [live?_replace, if_pos rfl, Slot.live?_some, hdeadline]
  rfl

variable (hopen : store.closed = false) (hslot : store.live? now key = some slot)
  (hzset : slot.content = .zset ranking)

include hopen hslot hzset

theorem perform_dropScore (member : Bytes) (version : Version) :
    store.perform now (.dropScore key member version) =
      (.ok (ranking.byMember.contains member),
        store.replace key (slot.without ranking [member] version)) := by
  rw [perform, revise_open hopen, hslot, Slot.dropScore_eq hzset, sweep_of_live hslot]

theorem perform_dropByScore (hsome : ranking.between low high ≠ []) (version : Version) :
    store.perform now (.dropByScore key low high version) =
      (.ok (ranking.between low high).length, store.replace key
        (slot.without ranking ((ranking.between low high).map Ranked.member) version)) := by
  have hrange : ¬ high < low := fun hinverted => hsome (ranking.between_inverted hinverted)
  rw [perform, if_neg hrange, revise_open hopen, hslot, Slot.dropByScore_eq hzset hsome,
    sweep_of_live hslot]

/-- To take out nobody by score changes nothing. -/
theorem perform_dropByScore_nobody (hsound : store.Sound)
    (hnobody : ranking.between low high = []) (version : Version) :
    store.perform now (.dropByScore key low high version) = (.ok (0 : Nat), store) := by
  have hanswer : (store.perform now (.dropByScore key low high version)).1 = .ok (0 : Nat) := by
    by_cases hinverted : high < low
    · rw [perform, if_pos hinverted]
    · have hwindow : ranking.scoreWindow low high = [] :=
        List.map_eq_nil_iff.mp ((ranking.map_scoreWindow low high).trans hnobody)
      rw [perform, if_neg hinverted, fst_revise hopen, hslot, Slot.dropByScore, Slot.zset, hzset]
      simp only [bind, Except.bind, pure, Except.pure, hwindow]
      rfl
  exact Prod.ext hanswer (dropByScore_zero hsound hslot hanswer)

end Store

end Keyspace
