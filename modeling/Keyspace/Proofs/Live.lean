import Keyspace.Store.Perform

/-!
# Live slots

Nobody sees a slot whose deadline has passed, so what a call does is best said
through `Store.live?`.  This module says it for the two ways in which calls
reach the store.

* `Store.view` asks its question of the live slot (`view_open`, `view_part`).
* `Store.revise` hands the live slot to the change (`fst_revise`), keeps what
  the change makes of it (`live?_revise`) and leaves every other key as it was
  (`getElem?_revise_of_ne`).
-/

namespace Keyspace

/-- A slot that may be missing, unless its deadline has passed. -/
def Slot.live? (now : Millis) (slot? : Option Slot) : Option Slot :=
  slot?.filter fun slot => !slot.isExpired now

/-- The slot that a change keeps.  A change that fails keeps what it sees. -/
def Slot.kept {α : Type} (change : Option Slot → Except Failure (α × Option Slot))
    (slot? : Option Slot) : Option Slot :=
  match change slot? with
  | .error _ => slot?
  | .ok (_, kept?) => kept?

namespace Slot

variable {now later : Millis}

@[simp] theorem live?_none : live? now none = none := rfl

theorem live?_some (slot : Slot) :
    live? now (some slot) = if slot.isExpired now then none else some slot := by
  cases h : slot.isExpired now <;> simp [live?, Option.filter, h]

theorem live?_eq_some {slot? : Option Slot} {slot : Slot} :
    live? now slot? = some slot ↔ slot? = some slot ∧ slot.isExpired now = false := by
  simp [live?, Option.filter_eq_some_iff]

/-- A slot that has been found live stays what it is. -/
@[simp] theorem live?_live? (slot? : Option Slot) :
    live? now (live? now slot?) = live? now slot? := by
  simp [live?]

/-- A deadline that has passed stays passed. -/
theorem isExpired_mono {slot : Slot} (h : now ≤ later)
    (hexpired : slot.isExpired now = true) : slot.isExpired later = true := by
  simp only [isExpired, Option.any_eq_true, decide_eq_true_eq] at hexpired ⊢
  obtain ⟨deadline, hdeadline, hle⟩ := hexpired
  exact ⟨deadline, hdeadline, Nat.le_trans hle h⟩

/-- What is live later is found among what is live now. -/
theorem live?_of_le (h : now ≤ later) (slot? : Option Slot) :
    live? later slot? = live? later (live? now slot?) := by
  cases slot? with
  | none => rfl
  | some slot =>
    have hnow : live? now (some slot) = if slot.isExpired now then none else some slot :=
      live?_some slot
    rw [hnow]
    split
    · rename_i hexpired
      rw [live?_some, if_pos (isExpired_mono h hexpired), live?_none]
    · rfl

end Slot

namespace Store

variable {store : Store} {now later : Millis} {key other : Bytes} {α : Type}

theorem live?_eq (store : Store) (now : Millis) (key : Bytes) :
    store.live? now key = Slot.live? now store.slots[key]? := rfl

theorem live?_eq_some {slot : Slot} :
    store.live? now key = some slot ↔
      store.slots[key]? = some slot ∧ slot.isExpired now = false :=
  Slot.live?_eq_some

theorem live?_of_le (h : now ≤ later) (store : Store) (key : Bytes) :
    store.live? later key = Slot.live? later (store.live? now key) :=
  Slot.live?_of_le h _

/-- The live slots together are the live slots one by one. -/
theorem getElem?_live (store : Store) (now : Millis) (key : Bytes) :
    (store.live now)[key]? = store.live? now key := by
  simp [live, live?]

/-! ## Putting a slot in place -/

@[simp] theorem closed_replace (store : Store) (key : Bytes) (slot? : Option Slot) :
    (store.replace key slot?).closed = store.closed := rfl

theorem getElem?_replace (store : Store) (key other : Bytes) (slot? : Option Slot) :
    (store.replace key slot?).slots[other]? =
      if key = other then slot? else store.slots[other]? := by
  cases slot? <;> simp [replace, Std.ExtTreeMap.getElem?_erase, Std.ExtTreeMap.getElem?_insert]

@[simp] theorem getElem?_replace_self (store : Store) (key : Bytes) (slot? : Option Slot) :
    (store.replace key slot?).slots[key]? = slot? := by
  rw [getElem?_replace, if_pos rfl]

theorem live?_replace (store : Store) (now : Millis) (key other : Bytes)
    (slot? : Option Slot) :
    (store.replace key slot?).live? now other =
      if key = other then Slot.live? now slot? else store.live? now other := by
  rw [live?_eq, getElem?_replace]
  split <;> rfl

/-! ## Dropping a leftover -/

@[simp] theorem closed_sweep (store : Store) (now : Millis) (key : Bytes) :
    (store.sweep now key).closed = store.closed := by
  unfold sweep
  split
  · rfl
  · split <;> rfl

/-- What a sweep leaves under its key is the live slot. -/
@[simp] theorem getElem?_sweep_self (store : Store) (now : Millis) (key : Bytes) :
    (store.sweep now key).slots[key]? = store.live? now key := by
  rw [sweep, live?_eq]
  split
  · rename_i hslot
    rw [hslot, Slot.live?_none]
  · rename_i slot hslot
    rw [hslot, Slot.live?_some]
    split
    · rw [getElem?_replace_self]
    · exact hslot

theorem getElem?_sweep_of_ne (store : Store) (now : Millis) (h : key ≠ other) :
    (store.sweep now key).slots[other]? = store.slots[other]? := by
  unfold sweep
  split
  · rfl
  · split
    · rw [getElem?_replace, if_neg h]
    · rfl

/-- A sweep takes nothing that anybody could see. -/
@[simp] theorem live?_sweep (store : Store) (now : Millis) (key other : Bytes) :
    (store.sweep now key).live? now other = store.live? now other := by
  rw [live?_eq, live?_eq]
  by_cases h : key = other
  · subst h
    rw [getElem?_sweep_self, live?_eq, Slot.live?_live?]
  · rw [getElem?_sweep_of_ne store now h]

/-! ## Questions and changes -/

theorem view_open (hopen : store.closed = false) (absent : α)
    (question : Slot → Except Failure α) :
    store.view now key absent question =
      match store.live? now key with
      | none => .ok absent
      | some slot => question slot := by
  rw [view, hopen]
  rfl

theorem view_closed (hclosed : store.closed = true) (absent : α)
    (question : Slot → Except Failure α) :
    store.view now key absent question = .error .closed := by
  rw [view, if_pos hclosed]

/-- What a question is answered with is about the live slot, if there is one. -/
theorem view_eq_ok {absent answer : α} {question : Slot → Except Failure α}
    (h : store.view now key absent question = .ok answer) :
    answer = absent ∨ ∃ slot, store.live? now key = some slot ∧ question slot = .ok answer := by
  cases hclosed : store.closed with
  | true =>
    rw [view_closed hclosed] at h
    cases h
  | false =>
    rw [view_open hclosed] at h
    cases hlive : store.live? now key with
    | none =>
      rw [hlive] at h
      exact .inl (Except.ok.inj h).symm
    | some slot =>
      rw [hlive] at h
      exact .inr ⟨slot, rfl, h⟩

/-- A question about a part of a live slot is asked of that part. -/
theorem view_part {β : Type} {slot : Slot} {part : β} {read : Slot → Except Failure β}
    (hopen : store.closed = false) (hslot : store.live? now key = some slot)
    (hread : read slot = .ok part) (absent : α) (question : β → α) :
    (store.view now key absent fun slot => question <$> read slot) = .ok (question part) := by
  rw [view_open hopen, hslot]
  show question <$> read slot = _
  rw [hread]
  rfl

variable {change : Option Slot → Except Failure (α × Option Slot)}

theorem revise_closed (hclosed : store.closed = true) :
    store.revise now key change = (.error .closed, store) := by
  rw [revise, if_pos hclosed]

theorem revise_open (hopen : store.closed = false) :
    store.revise now key change =
      match change (store.live? now key) with
      | .error failure => (.error failure, store.sweep now key)
      | .ok (answer, slot?) => (.ok answer, (store.sweep now key).replace key slot?) := by
  unfold revise
  rw [hopen, if_neg Bool.false_ne_true]
  cases hchange : change (store.live? now key) with
  | error failure => simp only [getElem?_sweep_self, hchange]
  | ok result => simp only [getElem?_sweep_self, hchange]

@[simp] theorem closed_revise : (store.revise now key change).2.closed = store.closed := by
  cases hclosed : store.closed with
  | true => rw [revise_closed hclosed, hclosed]
  | false =>
    rw [revise_open hclosed]
    cases change (store.live? now key) with
    | error failure => rw [closed_sweep, hclosed]
    | ok result => rw [closed_replace, closed_sweep, hclosed]

theorem fst_revise (hopen : store.closed = false) :
    (store.revise now key change).1 = (change (store.live? now key)).map Prod.fst := by
  rw [revise_open hopen]
  cases change (store.live? now key) <;> rfl

/-- A change leaves the slots of other keys as they are, live or not. -/
theorem getElem?_revise_of_ne (h : key ≠ other) :
    (store.revise now key change).2.slots[other]? = store.slots[other]? := by
  cases hclosed : store.closed with
  | true => rw [revise_closed hclosed]
  | false =>
    rw [revise_open hclosed]
    cases change (store.live? now key) with
    | error failure => exact getElem?_sweep_of_ne store now h
    | ok result =>
      rw [getElem?_replace, if_neg h]
      exact getElem?_sweep_of_ne store now h

/-- What an open store keeps under the key of a change. -/
theorem getElem?_revise_self (hopen : store.closed = false) :
    (store.revise now key change).2.slots[key]? = Slot.kept change (store.live? now key) := by
  rw [revise_open hopen, Slot.kept]
  cases change (store.live? now key) with
  | error failure => exact getElem?_sweep_self store now key
  | ok result => exact getElem?_replace_self _ key _

/-- What is live under any key after a change. -/
theorem live?_revise (hopen : store.closed = false) :
    (store.revise now key change).2.live? now other =
      if key = other then Slot.live? now (Slot.kept change (store.live? now key))
      else store.live? now other := by
  split
  · rename_i h
    subst h
    rw [revise_open hopen, Slot.kept]
    cases change (store.live? now key) with
    | error failure => rw [live?_sweep, live?_eq, Slot.live?_live?]
    | ok result => rw [live?_replace, if_pos rfl]
  · rename_i h
    rw [live?_eq, getElem?_revise_of_ne h, live?_eq]

end Store

end Keyspace
