import Keyspace.Proofs.Agenda
import Keyspace.Proofs.Order
import Mathlib.Data.List.Nodup

/-!
# Overdue keys

The agenda is there so that nobody has to walk over all slots to find the keys
whose deadlines have passed.  `Store.overdue` is that walk: it reads the slots
only, picks those that are due and sorts them.  This module shows that the
agenda gives the same result.

There are three groups.

* The walk.  `Store.deadlines` lists the deadlines of all slots, each key once
  (`nodup_deadlines`), and `Store.overdue` those that have passed.
* The agenda.  In a consistent store the agenda holds the same deadlines
  (`Consistent.toList_agenda_perm`), and what stands at its head is what is
  overdue (`Consistent.takeWhile_agenda`).
* The count.  A slot that is kept is live or overdue
  (`keptCount_eq_liveCount_add`).
-/

namespace Keyspace

/-- Two deadlines of which neither is after the other are one. -/
theorem Due.eq_of_isLE {a b : Due} (hab : (compare a b).isLE) (hba : (compare b a).isLE) :
    a = b :=
  Std.LawfulEqOrd.eq_of_compare (Std.OrientedCmp.isLE_antisymm hab hba)

namespace Store

variable {store : Store} {due : Due}

/-! ## The walk -/

/-- The deadlines that are kept with the slots. -/
def deadlines (store : Store) : List Due :=
  store.slots.toList.filterMap fun (key, slot) => slot.deadline.map fun deadline => ⟨deadline, key⟩

/-- The deadlines at or before `now` that are kept with the slots, in order. -/
def overdue (store : Store) (now : Millis) : List Due :=
  (store.deadlines.filter (·.deadline ≤ now)).mergeSort fun a b => (compare a b).isLE

theorem mem_deadlines :
    due ∈ store.deadlines ↔ store.slots[due.key]?.bind Slot.deadline = some due.deadline := by
  obtain ⟨deadline, key⟩ := due
  simp only [deadlines, List.mem_filterMap, Prod.exists, Option.map_eq_some_iff, Due.mk.injEq,
    Std.ExtTreeMap.mem_toList_iff_getElem?_eq_some, Option.bind_eq_some_iff]
  constructor
  · rintro ⟨_, slot, hslot, _, hdeadline, rfl, rfl⟩
    exact ⟨slot, hslot, hdeadline⟩
  · rintro ⟨slot, hslot, hdeadline⟩
    exact ⟨key, slot, hslot, deadline, hdeadline, rfl, rfl⟩

/-- A slot has one deadline at most. -/
theorem nodup_deadlines (store : Store) : (store.deadlines.map Due.key).Nodup := by
  rw [List.Nodup, List.pairwise_map, deadlines, List.pairwise_filterMap]
  apply Std.ExtTreeMap.distinct_keys_toList.imp
  intro a b hne due hdue other hother hsame
  obtain ⟨_, _, rfl⟩ := Option.map_eq_some_iff.mp hdue
  obtain ⟨_, _, rfl⟩ := Option.map_eq_some_iff.mp hother
  exact hne (Std.LawfulEqOrd.compare_eq_iff_eq.mpr hsame)

theorem overdue_perm (store : Store) (now : Millis) :
    (store.overdue now).Perm (store.deadlines.filter (·.deadline ≤ now)) :=
  List.mergeSort_perm _ _

/-- What is overdue is listed once for each key. -/
theorem nodup_overdue (store : Store) (now : Millis) :
    ((store.overdue now).map Due.key).Nodup := by
  have hperm := (store.overdue_perm now).map Due.key
  have hsub : ((store.deadlines.filter (·.deadline ≤ now)).map Due.key).Sublist
      (store.deadlines.map Due.key) := List.filter_sublist.map Due.key
  exact hperm.nodup_iff.mpr (store.nodup_deadlines.sublist hsub)

/-- What is overdue is listed in order. -/
theorem pairwise_overdue (store : Store) (now : Millis) :
    (store.overdue now).Pairwise fun a b => (compare a b).isLE := by
  apply List.pairwise_mergeSort
  · intro a b c hab hbc
    exact Std.TransCmp.isLE_trans hab hbc
  · intro a b
    have hswap : compare b a = (compare a b).swap := Std.OrientedCmp.eq_swap
    rw [hswap]
    cases compare a b <;> rfl

/-! ## The agenda -/

namespace Consistent

/-- The agenda holds the deadlines of the slots. -/
theorem toList_agenda_perm (h : store.Consistent) : store.agenda.toList.Perm store.deadlines := by
  have hagenda : store.agenda.toList.Nodup := by
    refine Std.ExtTreeSet.distinct_toList.imp ?_
    intro a b hne hsame
    exact hne (Std.LawfulEqOrd.compare_eq_iff_eq.mpr hsame)
  have hdeadlines : store.deadlines.Nodup := List.Nodup.of_map Due.key store.nodup_deadlines
  rw [List.perm_ext_iff_of_nodup hagenda hdeadlines]
  intro due
  rw [Std.ExtTreeSet.mem_toList, mem_deadlines]
  exact h.mem_agenda due.deadline due.key

/-- What stands at the head of the agenda is what is overdue. -/
theorem takeWhile_agenda (h : store.Consistent) (now : Millis) :
    store.agenda.toList.takeWhile (·.deadline ≤ now) = store.overdue now := by
  have hordered : store.agenda.toList.Pairwise fun a b => compare a b = .lt :=
    Std.ExtTreeSet.ordered_toList
  have hfilter : store.agenda.toList.takeWhile (·.deadline ≤ now) =
      store.agenda.toList.filter (·.deadline ≤ now) := by
    apply takeWhile_eq_filter
    apply hordered.imp
    intro a b hlt hb
    have hle : b.deadline ≤ now := of_decide_eq_true hb
    have hab : a.deadline ≤ b.deadline := by
      rcases Due.compare_eq_lt.mp hlt with hless | ⟨hsame, _⟩
      · exact Nat.le_of_lt hless
      · exact Nat.le_of_eq hsame
    exact decide_eq_true (Nat.le_trans hab hle)
  rw [hfilter]
  refine List.Perm.eq_of_pairwise (fun a b _ _ => Due.eq_of_isLE) ?_ (store.pairwise_overdue now) ?_
  · refine (hordered.imp ?_).filter _
    intro a b hlt
    rw [hlt]
    rfl
  · exact (h.toList_agenda_perm.filter _).trans (store.overdue_perm now).symm

end Consistent

/-! ## The count -/

/-- A slot that is kept is live or overdue. -/
theorem keptCount_eq_liveCount_add (store : Store) (now : Millis) :
    store.keptCount = store.liveCount now + (store.overdue now).length := by
  have hlive : store.liveCount now =
      store.slots.toList.countP fun (_, slot) => !slot.isExpired now := by
    rw [liveCount, live, ← Std.ExtTreeMap.length_toList, Std.ExtTreeMap.toList_filter,
      List.countP_eq_length_filter]
  have hoverdue : (store.overdue now).length =
      store.slots.toList.countP fun (_, slot) => slot.isExpired now := by
    rw [(store.overdue_perm now).length_eq, ← List.countP_eq_length_filter, deadlines,
      List.countP_filterMap]
    apply List.countP_congr
    rintro ⟨key, slot⟩ _
    cases hdeadline : slot.deadline <;> simp [Slot.isExpired, hdeadline]
  rw [hlive, hoverdue, keptCount, ← Std.ExtTreeMap.length_toList,
    List.length_eq_countP_add_countP fun (entry : Bytes × Slot) => !entry.2.isExpired now]
  simp

/-! ## The mirror -/

/-- The agenda mirrors the slots: it holds the deadline of every key that has
one, and nothing else.  Hence an open store answers a request for expired keys
with the first of those that are overdue, each once, and the keys that are kept
out of sight are those that are overdue. -/
theorem agenda_mirrors_slots (h : Reachable store) :
    (∀ deadline key, ⟨deadline, key⟩ ∈ store.agenda ↔
      ∃ slot, store.slots[key]? = some slot ∧ slot.deadline = some deadline) ∧
    (store.closed = false → ∀ now instant limit,
      (store.perform now (.expired instant limit)).1 =
        .ok (((store.overdue instant).take limit).map Due.key) ∧
      (((store.overdue instant).take limit).map Due.key).Nodup) ∧
    ∀ now, store.keptCount = store.liveCount now + (store.overdue now).length := by
  have hconsistent := h.consistent
  refine ⟨fun deadline key => ?_, fun hopen now instant limit => ⟨?_, ?_⟩,
    store.keptCount_eq_liveCount_add⟩
  · rw [hconsistent.mem_agenda deadline key, Option.bind_eq_some_iff]
  · show store.expired instant limit = _
    rw [expired, hopen, if_neg Bool.false_ne_true, hconsistent.takeWhile_agenda]
  · rw [List.map_take]
    exact (store.nodup_overdue instant).sublist (List.take_sublist limit _)

theorem agenda_mirrors_slots_two :
    let store := ((Store.empty.perform 0 (.put [107] ⟨[97], 9⟩ (some 5))).2.perform 0
      (.put [108] ⟨[98], 9⟩ (some 3))).2
    Reachable store ∧ ⟨5, [107]⟩ ∈ store.agenda ∧
      (store.perform 4 (.expired 10 1)).1 = .ok [[108]] ∧
      ((store.overdue 10).take 1).map Due.key = [[108]] ∧
      store.keptCount = store.liveCount 4 + (store.overdue 4).length := by
  intro store
  have hreachable : Reachable store := (Reachable.empty.perform 0 _).perform 0 _
  obtain ⟨hmem, hexpired, hcount⟩ := agenda_mirrors_slots hreachable
  have hanswer : (store.perform 4 (.expired 10 1)).1 = .ok [[108]] := rfl
  have hwalk := (hexpired rfl 4 10 1).1
  rw [hanswer] at hwalk
  exact ⟨hreachable, (hmem 5 [107]).mpr ⟨_, rfl, rfl⟩, hanswer, (Except.ok.inj hwalk).symm,
    hcount 4⟩

end Store

end Keyspace
