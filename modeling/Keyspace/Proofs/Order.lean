import Keyspace.Store

/-!
# Orders

Byte strings, deadlines and standings are kept in the order that `compare` gives
them.  This module says what those orders are in terms of `<` on their parts
(`Bytes.compare_eq_lt`, `Due.compare_eq_lt`, `Standing.compare_eq_lt`), and that
a `takeWhile` or a `dropWhile` along an order is a `filter` (`takeWhile_eq_filter`,
`dropWhile_eq_filter`).
-/

namespace Keyspace

/-- Byte strings are compared byte by byte; a string comes before every longer
one that it begins. -/
theorem Bytes.compare_eq_lt {a b : Bytes} : compare a b = .lt ↔ a < b := by
  rw [List.compare_eq_compareLex]
  induction a generalizing b with
  | nil => cases b <;> simp [List.compareLex]
  | cons x rest ih =>
    cases b with
    | nil => simp [List.compareLex]
    | cons y others =>
      rw [List.compareLex_cons_cons, Ordering.then_eq_lt, ih, Std.compare_eq_lt,
        Std.LawfulEqOrd.compare_eq_iff_eq, List.cons_lt_cons_iff]

/-- Deadlines are ordered by time, and by key where they coincide. -/
theorem Due.compare_eq_lt {a b : Due} :
    compare a b = .lt ↔ a.deadline < b.deadline ∨ a.deadline = b.deadline ∧ a.key < b.key := by
  show (compare a.deadline b.deadline).then (compare a.key b.key) = .lt ↔ _
  rw [Ordering.then_eq_lt, Std.compare_eq_lt, Std.LawfulEqOrd.compare_eq_iff_eq,
    Bytes.compare_eq_lt]

/-- Standings are ordered by score, and by member where scores are equal. -/
theorem Standing.compare_eq_lt {a b : Standing} :
    compare a b = .lt ↔ a.score < b.score ∨ a.score = b.score ∧ a.member < b.member := by
  show (compare a.score b.score).then (compare a.member b.member) = .lt ↔ _
  rw [Ordering.then_eq_lt, Std.compare_eq_lt, Std.LawfulEqOrd.compare_eq_iff_eq,
    Bytes.compare_eq_lt]

/-- Along a list in which `p` passes from every element to those before it,
taking while `p` holds takes all elements with `p`. -/
theorem takeWhile_eq_filter {α : Type} {p : α → Bool} {items : List α}
    (h : items.Pairwise fun a b => p b = true → p a = true) :
    items.takeWhile p = items.filter p := by
  induction items with
  | nil => rfl
  | cons item rest ih =>
    obtain ⟨hitem, hrest⟩ := List.pairwise_cons.mp h
    cases hp : p item with
    | true => simp [hp, ih hrest]
    | false =>
      have hnone : ∀ other ∈ rest, ¬ p other = true := by
        intro other hother hpother
        rw [hitem other hother hpother] at hp
        cases hp
      simp [hp, List.filter_eq_nil_iff.mpr hnone]

/-- Along such a list, dropping while `p` holds drops all elements with `p`. -/
theorem dropWhile_eq_filter {α : Type} {p : α → Bool} {items : List α}
    (h : items.Pairwise fun a b => p b = true → p a = true) :
    items.dropWhile p = items.filter fun item => !p item := by
  induction items with
  | nil => rfl
  | cons item rest ih =>
    obtain ⟨hitem, hrest⟩ := List.pairwise_cons.mp h
    cases hp : p item with
    | true => simp [hp, ih hrest]
    | false =>
      have hall : ∀ other ∈ rest, (!p other) = true := by
        intro other hother
        cases hpother : p other with
        | true =>
          rw [hitem other hother hpother] at hp
          cases hp
        | false => rfl
      simp [hp, List.filter_eq_self.mpr hall]

end Keyspace
