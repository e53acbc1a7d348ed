import Keyspace.Shards
import Mathlib.Data.List.Sort
import Mathlib.Logic.Function.Basic

/-!
# Locking shards

Whoever locks several keys takes their shards one after the other and waits for each of
them.  If two lockers took their shards in different orders each could wait for the other,
and whoever wanted a shard twice would wait for itself.

* Lock orders.  `Shards.lockOrder_eq_filter`: the lock order of some keys is the list of all
  shards with those left out that no key falls into.  Hence it is ascending, and which keys
  there are decides on it alone.  Nothing depends on the checksum that spreads the keys.
* Lockers.  `Shards.LockStep` says what a locker can do while others share the pool.  All of
  them go up through the shards, and so whoever waits for a shard holds lower ones only
  (`Shards.Reached.held_lt`).
* Progress.  As long as somebody waits, somebody can go on (`Shards.Reached.progress`): the
  one who waits for the highest shard waits for nobody who waits.
-/

namespace Keyspace

namespace Shards

variable {shards : Shards} {keys others : List Bytes} {id : Nat}

/-! ## Lock orders -/

theorem mem_keepOne {ids : List Nat} : id ∈ keepOne ids ↔ id ∈ ids := by
  fun_induction keepOne ids with
  | case1 => rfl
  | case2 => rfl
  | case3 first rest ih =>
    rw [ih, List.mem_cons (b := first) (l := first :: rest), List.mem_cons]
    exact (or_iff_right_of_imp Or.inl).symm
  | case4 first second rest hne ih => rw [List.mem_cons, ih, ← List.mem_cons]

/-- Of an ascending list one of each number is kept. -/
theorem pairwise_keepOne {ids : List Nat} (h : ids.Pairwise (· ≤ ·)) :
    (keepOne ids).Pairwise (· < ·) := by
  fun_induction keepOne ids with
  | case1 => exact List.Pairwise.nil
  | case2 => exact List.pairwise_singleton _ _
  | case3 first rest ih => exact ih h.of_cons
  | case4 first second rest hne ih =>
    obtain ⟨hfirst, hrest⟩ := List.pairwise_cons.mp h
    have hsecond : first < second := Nat.lt_of_le_of_ne (hfirst second List.mem_cons_self) hne
    refine List.pairwise_cons.mpr ⟨fun other hother => ?_, ih hrest⟩
    rcases List.mem_cons.mp (mem_keepOne.mp hother) with rfl | hlater
    · exact hsecond
    · exact Nat.lt_of_lt_of_le hsecond (List.rel_of_pairwise_cons hrest hlater)

theorem shardOf_lt (shards : Shards) (key : Bytes) : shards.shardOf key < shards.count :=
  Nat.mod_lt _ shards.count_pos

theorem mem_lockOrder :
    id ∈ shards.lockOrder keys ↔ ∃ key ∈ keys, shards.shardOf key = id := by
  rw [lockOrder, mem_keepOne, List.mem_mergeSort, List.mem_map]

theorem pairwise_lockOrder (shards : Shards) (keys : List Bytes) :
    (shards.lockOrder keys).Pairwise (· < ·) :=
  pairwise_keepOne (List.pairwise_mergeSort' (· ≤ ·) _)

theorem lt_of_mem_lockOrder (h : id ∈ shards.lockOrder keys) : id < shards.count := by
  obtain ⟨key, _, rfl⟩ := mem_lockOrder.mp h
  exact shards.shardOf_lt key

/-- The shards to lock are found by going through all shards from 0 up. -/
theorem lockOrder_eq_filter (shards : Shards) (keys : List Bytes) :
    shards.lockOrder keys =
      (List.range shards.count).filter fun id => ∃ key ∈ keys, shards.shardOf key = id := by
  have hall := (List.pairwise_lt_range (n := shards.count)).filter fun id =>
    decide (∃ key ∈ keys, shards.shardOf key = id)
  have hperm : (shards.lockOrder keys).Perm ((List.range shards.count).filter fun id =>
      ∃ key ∈ keys, shards.shardOf key = id) := by
    rw [List.perm_ext_iff_of_nodup ((shards.pairwise_lockOrder keys).imp Nat.ne_of_lt)
      (hall.imp Nat.ne_of_lt)]
    intro id
    rw [List.mem_filter, List.mem_range, decide_eq_true_eq, ← mem_lockOrder]
    exact ⟨fun h => ⟨lt_of_mem_lockOrder h, h⟩, And.right⟩
  exact hperm.eq_of_pairwise (fun _ _ _ _ hab hba => absurd hab (Nat.lt_asymm hba))
    (shards.pairwise_lockOrder keys) hall

/-- Neither the order of the keys nor their repetition matters. -/
theorem lockOrder_congr (h : ∀ key, key ∈ keys ↔ key ∈ others) :
    shards.lockOrder keys = shards.lockOrder others := by
  simp only [lockOrder_eq_filter, h]

end Shards

/-! ## Lockers -/

/-- Somebody who locks keys: the shards that are held, and those that are still to be taken,
in the order in which they are taken. -/
structure Locker where
  held : List Nat
  wanted : List Nat
  deriving DecidableEq, Repr

namespace Locker

/-- Somebody who holds no shard and wants none. -/
def idle : Locker := ⟨[], []⟩

/-- Whether a locker goes up through the shards of a pool. -/
structure Ordered (shards : Shards) (locker : Locker) : Prop where
  ascending : (locker.held ++ locker.wanted).Pairwise (· < ·)
  within : ∀ id ∈ locker.wanted, id < shards.count

theorem ordered_idle (shards : Shards) : idle.Ordered shards :=
  ⟨List.Pairwise.nil, nofun⟩

theorem ne_idle_of_held {locker : Locker} (h : locker.held ≠ []) : locker ≠ idle :=
  fun hidle => h (congrArg held hidle)

theorem ne_idle_of_wanted {locker : Locker} (h : locker.wanted ≠ []) : locker ≠ idle :=
  fun hidle => h (congrArg wanted hidle)

end Locker

namespace Shards

variable {shards : Shards} {ι : Type} [DecidableEq ι] {crew next : ι → Locker} {who other : ι}
  {id : Nat} {rest : List Nat}

/-- What somebody can do while others share the pool: ask for keys, take the next shard, and
give the shards back one by one once all of them have been taken.  A shard that is held can
be taken by nobody, its holder included. -/
inductive LockStep (shards : Shards) (crew : ι → Locker) (who : ι) : (ι → Locker) → Prop where
  | ask (keys : List Bytes) (hidle : crew who = .idle) :
    LockStep shards crew who (Function.update crew who ⟨[], shards.lockOrder keys⟩)
  | take {id : Nat} {rest : List Nat} (hnext : (crew who).wanted = id :: rest)
      (hfree : ∀ other, id ∉ (crew other).held) :
    LockStep shards crew who (Function.update crew who ⟨(crew who).held ++ [id], rest⟩)
  | giveBack {id : Nat} {rest : List Nat} (hdone : (crew who).wanted = [])
      (hheld : (crew who).held = id :: rest) :
    LockStep shards crew who (Function.update crew who ⟨rest, []⟩)

/-- The states that lockers can get to who all start idle. -/
inductive Reached (shards : Shards) : (ι → Locker) → Prop where
  | idle : Reached shards fun _ => .idle
  | step {crew next : ι → Locker} {who : ι} (h : Reached shards crew)
      (hstep : shards.LockStep crew who next) : Reached shards next

/-- Whoever takes a step leaves the others where they are. -/
theorem LockStep.of_ne (h : shards.LockStep crew who next) (hne : other ≠ who) :
    next other = crew other := by
  cases h <;> exact Function.update_of_ne hne _ _

/-- A locker that goes up through the shards goes on doing so. -/
theorem LockStep.ordered (h : shards.LockStep crew who next)
    (hordered : ∀ other, (crew other).Ordered shards) (other : ι) :
    (next other).Ordered shards := by
  by_cases hne : other ≠ who
  · rw [h.of_ne hne]
    exact hordered other
  · obtain rfl := not_not.mp hne
    obtain ⟨hascending, hwithin⟩ := hordered other
    cases h with
    | ask keys hidle =>
      rw [Function.update_self]
      exact ⟨shards.pairwise_lockOrder keys, fun id => lt_of_mem_lockOrder⟩
    | take hnext hfree =>
      rw [hnext] at hascending hwithin
      rw [Function.update_self]
      refine ⟨?_, fun id hid => hwithin id (List.mem_cons_of_mem _ hid)⟩
      rw [List.append_assoc]
      exact hascending
    | giveBack hdone hheld =>
      rw [hdone, hheld] at hascending
      rw [Function.update_self]
      exact ⟨hascending.of_cons, nofun⟩

namespace Reached

variable (h : shards.Reached crew)

include h

theorem ordered (who : ι) : (crew who).Ordered shards := by
  induction h generalizing who with
  | idle => exact Locker.ordered_idle shards
  | step _ hstep ih => exact hstep.ordered ih who

/-- Whoever waits for a shard holds lower ones only. -/
theorem held_lt (hwaits : (crew who).wanted = id :: rest) {earlier : Nat}
    (hheld : earlier ∈ (crew who).held) : earlier < id := by
  have hascending := (h.ordered who).ascending
  rw [hwaits, List.pairwise_append] at hascending
  exact hascending.2.2 earlier hheld id List.mem_cons_self

/-! ## Progress -/

/-- As long as somebody waits for a shard, somebody who is not idle can take a step. -/
theorem progress (hwaits : (crew who).wanted = id :: rest) :
    ∃ other next, crew other ≠ .idle ∧ shards.LockStep crew other next := by
  -- up the chain of those who wait for each other; it ends because the shards do
  induction hgap : shards.count - id using Nat.strong_induction_on generalizing who id rest with
  | _ gap ih =>
    by_cases hfree : ∀ other, id ∉ (crew other).held
    · have hwanted : (crew who).wanted ≠ [] := hwaits ▸ List.cons_ne_nil _ _
      exact ⟨who, _, Locker.ne_idle_of_wanted hwanted, .take hwaits hfree⟩
    · obtain ⟨holder, hheld⟩ := not_forall_not.mp hfree
      have hholds : (crew holder).held ≠ [] := List.ne_nil_of_mem hheld
      cases hwanted : (crew holder).wanted with
      | nil =>
        obtain ⟨first, others, hfirst⟩ := List.exists_cons_of_ne_nil hholds
        exact ⟨holder, _, Locker.ne_idle_of_held hholds, .giveBack hwanted hfirst⟩
      | cons later others =>
        have hlater : id < later := h.held_lt hwanted hheld
        have hwithin : later < shards.count :=
          (h.ordered holder).within later (hwanted ▸ List.mem_cons_self)
        exact ih (shards.count - later) (by omega) hwanted rfl

end Reached

/-- Lock orders are canonical, in a pool of any size and with any checksum: ascending, of
shards of the pool, of just those shards that the keys fall into, and the same for all lists
of the same keys.  Hence all who share the pool take shards in one order and none of them
twice: a shard that somebody waits for is above all shards that the same one holds.  And
hence they are never stuck. -/
theorem lockOrder_canonical (checksum : Bytes → UInt32) (count : Nat) :
    let shards := ofCount count checksum
    shards.count = max count 1 ∧
    (∀ keys : List Bytes,
      (shards.lockOrder keys).Pairwise (· < ·) ∧
      (∀ id ∈ shards.lockOrder keys, id < shards.count) ∧
      (∀ id, id ∈ shards.lockOrder keys ↔ ∃ key ∈ keys, shards.shardOf key = id) ∧
      ∀ others : List Bytes, (∀ key, key ∈ keys ↔ key ∈ others) →
        shards.lockOrder keys = shards.lockOrder others) ∧
    ∀ {ι : Type} [DecidableEq ι] (crew : ι → Locker), shards.Reached crew →
      ∀ who id rest, (crew who).wanted = id :: rest →
        (∀ earlier ∈ (crew who).held, earlier < id) ∧
        ∃ other next, crew other ≠ .idle ∧ shards.LockStep crew other next := by
  intro shards
  refine ⟨rfl, fun keys => ⟨shards.pairwise_lockOrder keys, fun id => lt_of_mem_lockOrder,
    fun id => mem_lockOrder, fun others => lockOrder_congr⟩, ?_⟩
  intro ι _ crew hcrew who id rest hwaits
  exact ⟨fun earlier hheld => hcrew.held_lt hwaits hheld, hcrew.progress hwaits⟩

/-- Keys of which two share a shard by their CRC-32, in two orders and with a repetition.
Somebody has taken the lowest of their three shards and waits for the next one. -/
theorem lockOrder_canonical_shared :
    let shards := ofCount 3
    let keys : List Bytes := [[98], [97], [99], [97], [103]]
    let asked : Bool → Locker :=
      Function.update (fun _ => .idle) true ⟨[], shards.lockOrder keys⟩
    let crew := Function.update asked true ⟨[0], [1, 2]⟩
    shards.lockOrder keys = [0, 1, 2] ∧
      shards.lockOrder keys = shards.lockOrder [[103], [99], [98], [97]] ∧
      (∀ id ∈ shards.lockOrder keys, id < 3) ∧
      shards.Reached crew ∧ (crew true).wanted = [1, 2] ∧
      (∀ earlier ∈ (crew true).held, earlier < 1) ∧
      ∃ other next, crew other ≠ .idle ∧ shards.LockStep crew other next := by
  intro shards keys asked crew
  have horder : shards.lockOrder keys = [0, 1, 2] := by
    rw [lockOrder_eq_filter]
    decide
  have hreached : shards.Reached crew :=
    .step (.step .idle (.ask keys rfl)) (.take horder (by decide))
  obtain ⟨_, hkeys, hcrew⟩ := lockOrder_canonical Crc32.checksum 3
  obtain ⟨_, hwithin, _, hsame⟩ := hkeys keys
  obtain ⟨hlower, hprogress⟩ := hcrew crew hreached true 1 [2] rfl
  have hothers : ∀ key, key ∈ keys ↔ key ∈ [[103], [99], [98], [97]] := by
    intro key
    simp only [keys, List.mem_cons, List.not_mem_nil]
    tauto
  exact ⟨horder, hsame _ hothers, hwithin, hreached, rfl, hlower, hprogress⟩

end Shards

end Keyspace
