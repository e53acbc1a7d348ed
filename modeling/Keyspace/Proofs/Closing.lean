import Keyspace.Proofs.Effect
import Keyspace.Store.Fault

/-!
# A closed store

Closing a store is meant to be final: it loses its slots and its agenda, and
every later call fails.  The first half holds without exception, and so does the
second one but for the calls that never look at the store.  A range with its ends
in the wrong order is answered on the spot (`Store.perform_inverted`), open store
or not; every other call to a closed store fails (`Store.fst_perform_closed`).
-/

namespace Keyspace

/-- Whether a call asks for a range with its ends in the wrong order. -/
def Call.inverted : Call → Bool
  | .byRank _ start stop => stop < start
  | .byScore _ min max => max < min
  | .countByScore _ min max => max < min
  | .dropByScore _ min max _ => max < min
  | _ => false

namespace Store

variable {store : Store} {now : Millis} {c : Call}

/-- Makes calls one after the other, each at a time of its own. -/
def performAll : List (Millis × Call) → Store → Store
  | [], store => store
  | (now, c) :: rest, store => performAll rest (store.perform now c).2

/-! ## One call -/

/-- An inverted range is answered as if the key were absent, whatever the store
is. -/
theorem perform_inverted (hc : c.inverted = true) :
    store.perform now c = (.ok c.absent, store) := by
  cases c with
  | byRank => exact if_pos (of_decide_eq_true hc)
  | byScore => exact if_pos (of_decide_eq_true hc)
  | countByScore => exact if_pos (of_decide_eq_true hc)
  | dropByScore => exact if_pos (of_decide_eq_true hc)
  | _ => cases hc

/-- Every other call to a closed store fails. -/
theorem fst_perform_closed (hclosed : store.closed = true) (hc : c.inverted = false) :
    (store.perform now c).1 = .error .closed := by
  cases c with
  | close => rw [perform, close, if_pos hclosed]
  | delete => rw [perform, delete, if_pos hclosed]
  | expired => exact if_pos hclosed
  | byRank =>
    rw [perform, if_neg (of_decide_eq_false hc)]
    exact view_closed hclosed _ _
  | byScore =>
    rw [perform, if_neg (of_decide_eq_false hc)]
    exact view_closed hclosed _ _
  | countByScore =>
    rw [perform, if_neg (of_decide_eq_false hc)]
    exact view_closed hclosed _ _
  | dropByScore =>
    rw [perform, if_neg (of_decide_eq_false hc), revise_closed hclosed]
  | setDeadline => rw [perform, revise_closed hclosed]
  | put => rw [perform, revise_closed hclosed]
  | putField => rw [perform, revise_closed hclosed]
  | dropField => rw [perform, revise_closed hclosed]
  | addMember => rw [perform, revise_closed hclosed]
  | dropMember => rw [perform, revise_closed hclosed]
  | putScore => rw [perform, revise_closed hclosed]
  | dropScore => rw [perform, revise_closed hclosed]
  | _ => exact view_closed hclosed _ _

/-- The calls that a closed store fails are the ones that look at it. -/
theorem fst_perform_closed_iff (hclosed : store.closed = true) :
    (store.perform now c).1 = .error .closed ↔ c.inverted = false := by
  constructor
  · intro hfails
    cases hc : c.inverted with
    | false => rfl
    | true =>
      rw [perform_inverted hc] at hfails
      cases hfails
  · exact fst_perform_closed hclosed

/-- What a store is once it has been closed. -/
theorem eq_of_close {after : Store} (h : store.perform now .close = (.ok (), after)) :
    after = ⟨∅, ∅, true⟩ := by
  rw [perform, close] at h
  split at h
  · cases h
  · exact (Prod.mk.inj h).2.symm

/-! ## All later calls -/

/-- No run of calls changes a closed store. -/
theorem performAll_closed (hclosed : store.closed = true) (calls : List (Millis × Call)) :
    performAll calls store = store := by
  induction calls with
  | nil => rfl
  | cons call rest ih =>
    rw [performAll, perform_closed hclosed]
    exact ih

/-- Once `close` has succeeded the store is empty and stays so, whatever is called
and when.  A later call fails because the store is closed if and only if it is no
inverted range; an inverted range finds nothing and succeeds. -/
theorem close_final {after : Store} (hclose : store.perform now .close = (.ok (), after))
    (calls : List (Millis × Call)) (later : Millis) (c : Call) :
    let last := performAll calls after
    (last.slots = ∅ ∧ last.agenda = ∅ ∧ (last.perform later c).2 = last) ∧
      ((last.perform later c).1 = .error .closed ↔ c.inverted = false) ∧
      (c.inverted = true → (last.perform later c).1 = .ok c.absent) := by
  have hafter := eq_of_close hclose
  have hclosed : after.closed = true := by rw [hafter]
  intro last
  have hlast : last = after := performAll_closed hclosed calls
  rw [hlast]
  refine ⟨⟨by rw [hafter], by rw [hafter], perform_closed hclosed c⟩,
    fst_perform_closed_iff hclosed, fun hc => ?_⟩
  rw [perform_inverted hc]

/-- A store is closed; after a write and a second attempt to close it, both in
vain, reading a key fails. -/
theorem close_final_read :
    empty.perform 0 .close = (.ok (), ⟨∅, ∅, true⟩) ∧
      ((performAll [(1, .put [107] ⟨[49], 7⟩ none), (2, .close)] ⟨∅, ∅, true⟩).perform 3
        (.get [107])).1 = .error .closed :=
  have hclose : empty.perform 0 .close = (.ok (), ⟨∅, ∅, true⟩) := rfl
  ⟨hclose, (close_final hclose [(1, .put [107] ⟨[49], 7⟩ none), (2, .close)] 3
    (.get [107])).2.1.mpr rfl⟩

/-- A closed store answers a request for the ranks from 1 to 0. -/
theorem close_not_final :
    ¬ ∀ (store after : Store) (now later : Millis) (c : Call),
      store.perform now .close = (.ok (), after) →
        (after.perform later c).1 = .error .closed := by
  intro hfinal
  have hfails := hfinal .empty _ 0 0 (.byRank [122] 1 0) rfl
  rw [perform_inverted rfl] at hfails
  cases hfails

end Store

end Keyspace
