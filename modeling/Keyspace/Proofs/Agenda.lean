import Keyspace.Proofs.History

/-!
# The agenda

The agenda of a store lists the deadlines of its keys, and nothing else, and a
closed store is empty (`Store.Consistent`).  Every change of a slot goes through
`Store.replace`, which keeps that, and so does every call; hence every reachable
store is consistent (`Store.Reachable.consistent`).

The two facts for which the agenda is there follow: a live key is found in an
open store (`Store.Reachable.open_of_live`), and the keys that are fetched as
expired are those that nobody can see any more (`Store.Reachable.live?_expired`).
-/

namespace Keyspace

/-- What moving an entry does to the others. -/
theorem Agenda.mem_move {agenda : Agenda} {key : Bytes} {old new : Option Millis} {due : Due} :
    due ∈ agenda.move key old new ↔
      if old = new then due ∈ agenda
      else due = ⟨due.deadline, key⟩ ∧ new = some due.deadline ∨
        due ∈ agenda ∧ ¬ (due = ⟨due.deadline, key⟩ ∧ old = some due.deadline) := by
  obtain ⟨deadline, other⟩ := due
  unfold Agenda.move
  split
  · rfl
  · cases old with
    | none =>
      cases new with
      | none => simp
      | some after => simp [Std.ExtTreeSet.mem_insert]; grind
    | some before =>
      cases new with
      | none => simp [Std.ExtTreeSet.mem_erase]; grind
      | some after => simp [Std.ExtTreeSet.mem_insert, Std.ExtTreeSet.mem_erase]; grind

namespace Store

/-- Whether the agenda lists the deadlines of the keys and a closed store is
empty. -/
structure Consistent (store : Store) : Prop where
  mem_agenda : ∀ deadline key,
    ⟨deadline, key⟩ ∈ store.agenda ↔ store.slots[key]?.bind Slot.deadline = some deadline
  closed : store.closed = true → store.slots = ∅

namespace Consistent

variable {store : Store} {now : Millis} {key : Bytes}

theorem empty : Consistent Store.empty where
  mem_agenda deadline key := by simp [Store.empty]
  closed _ := rfl

theorem replace (h : store.Consistent) (hopen : store.closed = false) (key : Bytes)
    (slot? : Option Slot) : (store.replace key slot?).Consistent where
  mem_agenda deadline other := by
    have hother := h.mem_agenda deadline other
    rw [getElem?_replace]
    show ⟨deadline, other⟩ ∈ store.agenda.move key _ _ ↔ _
    rw [Agenda.mem_move]
    grind
  closed hclosed := by
    rw [closed_replace, hopen] at hclosed
    cases hclosed

theorem sweep (h : store.Consistent) (hopen : store.closed = false) (now : Millis)
    (key : Bytes) : (store.sweep now key).Consistent := by
  unfold Store.sweep
  split
  · exact h
  · split
    · exact h.replace hopen key none
    · exact h

theorem revise {α : Type} (h : store.Consistent) (now : Millis) (key : Bytes)
    (change : Option Slot → Except Failure (α × Option Slot)) :
    (store.revise now key change).2.Consistent := by
  cases hclosed : store.closed with
  | true => rw [revise_closed hclosed]; exact h
  | false =>
    have hswept := h.sweep hclosed now key
    rw [revise_open hclosed]
    cases change (store.live? now key) with
    | error failure => exact hswept
    | ok result =>
      refine hswept.replace ?_ key result.2
      rw [closed_sweep, hclosed]

theorem perform (h : store.Consistent) (now : Millis) (c : Call) :
    (store.perform now c).2.Consistent := by
  cases hreads : c.reads with
  | true => rw [perform_of_reads hreads]; exact h
  | false =>
    cases c with
    | close =>
      rw [Store.perform, close]
      split
      · exact h
      · exact ⟨fun deadline key => by simp, fun _ => rfl⟩
    | delete key =>
      rw [Store.perform, delete]
      split
      · exact h
      · rename_i hopen
        exact h.replace (Bool.eq_false_iff.mpr hopen) key none
    | dropByScore key low high version =>
      rw [Store.perform]
      split
      · exact h
      · exact h.revise now key _
    | setDeadline => exact h.revise now _ _
    | put => exact h.revise now _ _
    | putField => exact h.revise now _ _
    | dropField => exact h.revise now _ _
    | addMember => exact h.revise now _ _
    | dropMember => exact h.revise now _ _
    | putScore => exact h.revise now _ _
    | dropScore => exact h.revise now _ _
    | _ => cases hreads

end Consistent

namespace Reachable

variable {store : Store} {now : Millis} {key : Bytes}

theorem consistent (h : Reachable store) : store.Consistent :=
  h.induct .empty fun now c _ hstore => hstore.perform now c

/-- A live key is found in an open store. -/
theorem open_of_live (h : Reachable store) {slot : Slot} (hslot : store.live? now key = some slot) :
    store.closed = false := by
  cases hclosed : store.closed with
  | false => rfl
  | true =>
    have hfound := (live?_eq_some.mp hslot).1
    rw [h.consistent.closed hclosed] at hfound
    cases hfound

/-- A key that is fetched as expired cannot be seen. -/
theorem live?_expired (h : Reachable store) {limit : Nat} {keys : List Bytes}
    (hfetch : store.expired now limit = .ok keys) (hkey : key ∈ keys) :
    store.live? now key = none := by
  unfold expired at hfetch
  split at hfetch
  · cases hfetch
  · cases hfetch
    obtain ⟨⟨deadline, other⟩, hdue, rfl⟩ := List.mem_map.mp hkey
    have hdue := List.mem_of_mem_take hdue
    have hle : deadline ≤ now := by
      have hdecide := List.all_eq_true.mp List.all_takeWhile _ hdue
      exact of_decide_eq_true hdecide
    have hmem : ⟨deadline, other⟩ ∈ store.agenda :=
      Std.ExtTreeSet.mem_toList.mp (List.takeWhile_subset _ hdue)
    have hdeadline := (h.consistent.mem_agenda deadline other).mp hmem
    cases hslot : store.slots[other]? with
    | none =>
      rw [hslot] at hdeadline
      cases hdeadline
    | some slot =>
      have hslot' : slot.deadline = some deadline := by rwa [hslot] at hdeadline
      have hexpired : slot.isExpired now = true := by
        rw [Slot.isExpired, hslot']
        exact decide_eq_true hle
      rw [live?_eq, hslot, Slot.live?_some, if_pos hexpired]

end Reachable

end Store

end Keyspace
