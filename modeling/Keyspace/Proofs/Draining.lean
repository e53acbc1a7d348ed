import Keyspace.Proofs.Independence
import Keyspace.Proofs.Overdue
import Keyspace.Proofs.Reclaim
import Mathlib.Data.Nat.Find

/-!
# Draining

A run of the reaper takes the expired keys out of the store, no others, and comes to
an end.  That a round makes progress is not visible in its text: the deletion looks
every key up again, finds nothing, and reports it as not existing; what makes the
slot go is that a key without a record is doomed, at whatever version.

There are three groups.

* Taking keys out.  `Store.without` is the store without some of its keys.  Without
  the first keys that are overdue, the others are (`Store.overdue_without`), and
  without all of them the store is purged (`Store.Consistent.without_overdue`).
* Rounds.  One round takes out the first `limit` keys that are overdue
  (`Reaper.runRound_eq`), hence `n` rounds the first `n * limit` of them
  (`Reaper.rounds_eq`).
* The run.  `Reaper.rounds_drain` says what the rounds report until one of them
  fetches nothing, and what is left then.
-/

namespace Keyspace

/-! ## Taking keys out -/

theorem Slot.isExpired_of_deadline {slot : Slot} {now deadline : Millis}
    (h : slot.deadline = some deadline) : slot.isExpired now = decide (deadline ≤ now) := by
  rw [isExpired, h]
  rfl

theorem Agenda.mem_filter {agenda : Agenda} {p : Due → Bool} {due : Due} :
    due ∈ agenda.filter p ↔ due ∈ agenda ∧ p due = true := by
  rw [← Std.ExtTreeSet.mem_toList, Std.ExtTreeSet.toList_filter, List.mem_filter,
    Std.ExtTreeSet.mem_toList]

namespace Store

variable {store : Store} {now : Millis} {key : Bytes} {due : Due}

theorem mem_overdue :
    due ∈ store.overdue now ↔
      store.slots[due.key]?.bind Slot.deadline = some due.deadline ∧ due.deadline ≤ now := by
  rw [(store.overdue_perm now).mem_iff, List.mem_filter, mem_deadlines, decide_eq_true_eq]

/-- What is overdue is determined by its order. -/
theorem overdue_eq {dues : List Due} (hnodup : dues.Nodup)
    (hordered : dues.Pairwise fun a b => (compare a b).isLE)
    (hmem : ∀ due : Due, due ∈ dues ↔
      store.slots[due.key]?.bind Slot.deadline = some due.deadline ∧ due.deadline ≤ now) :
    store.overdue now = dues := by
  have hkeys := List.Nodup.of_map Due.key (store.nodup_overdue now)
  have hperm : (store.overdue now).Perm dues := by
    rw [List.perm_ext_iff_of_nodup hkeys hnodup]
    exact fun due => mem_overdue.trans (hmem due).symm
  exact hperm.eq_of_pairwise (fun a b _ _ => Due.eq_of_isLE) (store.pairwise_overdue now) hordered

/-- The keys that are overdue are those that are kept out of sight. -/
theorem mem_map_overdue :
    key ∈ (store.overdue now).map Due.key ↔
      ∃ slot, store.slots[key]? = some slot ∧ slot.isExpired now = true := by
  constructor
  · intro hkey
    obtain ⟨due, hdue, rfl⟩ := List.mem_map.mp hkey
    obtain ⟨hdeadline, hpassed⟩ := mem_overdue.mp hdue
    obtain ⟨slot, hslot, hdeadline⟩ := Option.bind_eq_some_iff.mp hdeadline
    refine ⟨slot, hslot, ?_⟩
    rw [Slot.isExpired_of_deadline hdeadline]
    exact decide_eq_true hpassed
  · rintro ⟨slot, hslot, hexpired⟩
    cases hdeadline : slot.deadline with
    | none =>
      rw [Slot.isExpired, hdeadline] at hexpired
      cases hexpired
    | some deadline =>
      rw [Slot.isExpired_of_deadline hdeadline] at hexpired
      refine List.mem_map.mpr ⟨⟨deadline, key⟩, mem_overdue.mpr ⟨?_, of_decide_eq_true hexpired⟩,
        rfl⟩
      rw [hslot]
      exact hdeadline

/-- A key that is overdue is out of sight. -/
theorem live?_of_mem_overdue (h : key ∈ (store.overdue now).map Due.key) :
    store.live? now key = none := by
  obtain ⟨slot, hslot, hexpired⟩ := mem_map_overdue.mp h
  rw [live?_eq, hslot, Slot.live?_some, if_pos hexpired]

/-- The store without the slots of some keys. -/
def without (store : Store) (gone : List Bytes) : Store :=
  { store with
    slots := store.slots.filter fun key _ => key ∉ gone
    agenda := store.agenda.filter fun due => due.key ∉ gone }

theorem getElem?_without (store : Store) (gone : List Bytes) (key : Bytes) :
    (store.without gone).slots[key]? = if key ∈ gone then none else store.slots[key]? := by
  rw [without, Std.ExtTreeMap.getElem?_filter']
  by_cases hkey : key ∈ gone <;> cases store.slots[key]? <;> simp [hkey]

/-- It does not matter in which order keys are taken out, and how often. -/
theorem without_congr {gone others : List Bytes} (h : ∀ key, key ∈ gone ↔ key ∈ others) :
    store.without gone = store.without others := by
  simp only [without, h]

theorem live?_without (store : Store) (now : Millis) (gone : List Bytes) (key : Bytes) :
    (store.without gone).live? now key = if key ∈ gone then none else store.live? now key := by
  rw [live?_eq, getElem?_without]
  split <;> rfl

/-- Keys that are out of sight can be taken out without anybody seeing it. -/
theorem live?_without_hidden {gone : List Bytes}
    (hgone : ∀ key ∈ gone, store.live? now key = none) :
    (store.without gone).live? now key = store.live? now key := by
  rw [live?_without]
  split
  · rename_i hkey
    exact (hgone key hkey).symm
  · rfl

theorem mem_agenda_without {gone : List Bytes} :
    due ∈ (store.without gone).agenda ↔ due ∈ store.agenda ∧ due.key ∉ gone := by
  rw [without, Agenda.mem_filter, decide_eq_true_eq]

theorem mem_agenda_purge :
    due ∈ (store.purge now).agenda ↔ due ∈ store.agenda ∧ now < due.deadline := by
  rw [purge, Agenda.mem_filter, decide_eq_true_eq]

/-- Without the first keys that are overdue, the others are. -/
theorem overdue_without (store : Store) (now : Millis) (count : Nat) :
    (store.without (((store.overdue now).take count).map Due.key)).overdue now =
      (store.overdue now).drop count := by
  have hnodup := store.nodup_overdue now
  refine overdue_eq ?_ ?_ fun due => ?_
  · exact (List.Nodup.of_map Due.key hnodup).sublist (List.drop_sublist count _)
  · exact (store.pairwise_overdue now).sublist (List.drop_sublist count _)
  · have hsplit : due ∈ store.overdue now ↔
        due ∈ (store.overdue now).take count ∨ due ∈ (store.overdue now).drop count := by
      rw [← List.mem_append, List.take_append_drop]
    rw [getElem?_without]
    by_cases hgone : due.key ∈ ((store.overdue now).take count).map Due.key
    · -- a key stands in the list only once, so it is not in the rest
      rw [if_pos hgone]
      refine iff_of_false (fun hdrop => ?_) (by simp)
      rw [List.map_take] at hgone
      have hrest : due.key ∈ ((store.overdue now).map Due.key).drop count := by
        rw [← List.map_drop]
        exact List.mem_map_of_mem hdrop
      exact List.disjoint_take_drop hnodup (Nat.le_refl count) hgone hrest
    · rw [if_neg hgone, ← mem_overdue, hsplit]
      have htake : due ∉ (store.overdue now).take count :=
        fun hmem => hgone (List.mem_map_of_mem hmem)
      exact (or_iff_right htake).symm

namespace Consistent

theorem without (h : store.Consistent) (gone : List Bytes) : (store.without gone).Consistent where
  mem_agenda deadline key := by
    rw [mem_agenda_without, h.mem_agenda, getElem?_without]
    by_cases hkey : key ∈ gone <;> simp [hkey]
  closed hclosed := by
    show store.slots.filter _ = ∅
    rw [h.closed hclosed]
    rfl

theorem purge (h : store.Consistent) (now : Millis) : (store.purge now).Consistent where
  mem_agenda deadline key := by
    have hslots : (store.purge now).slots[key]? = store.live? now key := getElem?_live store now key
    rw [mem_agenda_purge, h.mem_agenda, hslots, Option.bind_eq_some_iff, Option.bind_eq_some_iff]
    constructor
    · rintro ⟨⟨slot, hslot, hdeadline⟩, hlater⟩
      refine ⟨slot, live?_eq_some.mpr ⟨hslot, ?_⟩, hdeadline⟩
      rw [Slot.isExpired_of_deadline hdeadline]
      exact decide_eq_false (Nat.not_le_of_lt hlater)
    · rintro ⟨slot, hlive, hdeadline⟩
      obtain ⟨hslot, hlive⟩ := live?_eq_some.mp hlive
      rw [Slot.isExpired_of_deadline hdeadline] at hlive
      exact ⟨⟨slot, hslot, hdeadline⟩, Nat.lt_of_not_le (of_decide_eq_false hlive)⟩
  closed hclosed := by
    show store.slots.filter _ = ∅
    rw [h.closed hclosed]
    rfl

/-- Without all keys that are overdue the store is purged. -/
theorem without_overdue (h : store.Consistent) (now : Millis) :
    store.without ((store.overdue now).map Due.key) = store.purge now := by
  refine (h.without _).eq_of_slots (h.purge now) rfl fun key => ?_
  have hslots : (store.purge now).slots[key]? = store.live? now key := getElem?_live store now key
  rw [getElem?_without, hslots, live?_eq]
  cases hslot : store.slots[key]? with
  | none => simp
  | some slot =>
    have hkey : key ∈ (store.overdue now).map Due.key ↔ slot.isExpired now = true := by
      rw [mem_map_overdue, hslot]
      simp
    rw [Slot.live?_some]
    simp only [hkey]

theorem without_nil (h : store.Consistent) : store.without [] = store := by
  refine (h.without _).eq_of_slots h rfl fun key => ?_
  rw [getElem?_without, if_neg List.not_mem_nil]

theorem without_without (h : store.Consistent) (first second : List Bytes) :
    (store.without first).without second = store.without (first ++ second) := by
  refine ((h.without first).without second).eq_of_slots (h.without _) rfl fun key => ?_
  rw [getElem?_without, getElem?_without, getElem?_without]
  by_cases hfirst : key ∈ first <;> simp [hfirst]

end Consistent

end Store

/-! ## Rounds -/

/-- A deletion leaves the store without the doomed keys. -/
theorem Keys.on_delete_eq {store : Store} {keys : List Bytes} {versions : List Version}
    (now : Millis) (hconsistent : store.Consistent) (hopen : store.closed = false)
    (hlength : keys.length = versions.length) (terms : Terms) :
    (delete keys versions terms).on now store =
      (.ok ((keys.zip versions).map fun entry => (verdictOn terms now store entry).status),
        store.without (doomed terms now store (keys.zip versions))) := by
  obtain ⟨after, hdelete, hslots⟩ := on_delete now hopen hlength terms
  have hcalls : (delete keys versions terms).Calls (· ≠ .close) :=
    calls_delete (fun _ _ => nofun) (fun _ _ => nofun) _
  have hclosed : after.closed = store.closed := by
    have hkept := hcalls.closed_on now store
    rwa [hdelete] at hkept
  have hafter : after.Consistent := by
    have hkept := hcalls.preserves_on (fun c _ _ hstore => hstore.perform now c) hconsistent
    rwa [hdelete] at hkept
  have hsame : after = store.without (doomed terms now store (keys.zip versions)) := by
    refine hafter.eq_of_slots (hconsistent.without _) hclosed fun key => ?_
    rw [hslots, Store.getElem?_without]
  rw [hdelete, hsame]

/-- Keys that cannot be seen are deleted at whatever version. -/
theorem Keys.on_delete_hidden {store : Store} {now : Millis} {keys : List Bytes}
    (hconsistent : store.Consistent) (hopen : store.closed = false)
    (hhidden : ∀ key ∈ keys, store.live? now key = none) (version : Version) :
    ∃ statuses, (delete keys (keys.map fun _ => version) {}).on now store =
      (.ok statuses, store.without keys) := by
  have hlength : keys.length = (keys.map fun _ => version).length := (List.length_map _).symm
  have hdoomed : ∀ key, key ∈ doomed {} now store (keys.zip (keys.map fun _ => version)) ↔
      key ∈ keys := by
    intro key
    rw [mem_doomed_at, and_iff_left_iff_imp]
    intro hkey
    -- without a record there is no version to compare with
    rw [verdictOn, hhidden key hkey]
    rfl
  have hdelete := on_delete_eq now hconsistent hopen hlength {}
  rw [Store.without_congr hdoomed] at hdelete
  exact ⟨_, hdelete⟩

namespace Reaper

variable {store : Store} {limit : Nat}

/-- What rounds leave behind, each going on from the one before. -/
def rounds (clock : Clock) (limit : Nat) (minted : Version) (store : Store) : Nat → Round
  | 0 => ⟨0, minted, store⟩
  | n + 1 =>
    let last := rounds clock limit minted store n
    runRound clock limit last.minted last.store

/-- One round fetches the first keys that are overdue and takes them out. -/
theorem runRound_eq (hconsistent : store.Consistent) (hopen : store.closed = false)
    (clock : Clock) (limit : Nat) (minted : Version) :
    runRound clock limit minted store =
      ⟨min limit (store.overdue clock.millis).length, clock.mint minted,
        store.without (((store.overdue clock.millis).take limit).map Due.key)⟩ := by
  have hlength : (((store.overdue clock.millis).take limit).map Due.key).length =
      min limit (store.overdue clock.millis).length := by
    rw [List.length_map, List.length_take]
  have hhidden : ∀ key ∈ ((store.overdue clock.millis).take limit).map Due.key,
      store.live? clock.millis key = none := by
    intro key hkey
    rw [List.map_take] at hkey
    exact Store.live?_of_mem_overdue (List.mem_of_mem_take hkey)
  have hfetch : ((Keys.expired clock.millis limit).mapRefusal Failure.status).on clock.millis
      store = (.ok (((store.overdue clock.millis).take limit).map Due.key), store) := by
    rw [Script.on_mapRefusal, Keys.expired, Script.on_ask, Store.perform, Store.expired, hopen,
      if_neg Bool.false_ne_true, hconsistent.takeWhile_agenda]
    rfl
  generalize ((store.overdue clock.millis).take limit).map Due.key = keys at *
  rw [runRound, round, Script.bind_eq, Script.on_bind_ok hfetch, ← hlength]
  cases keys with
  | nil =>
    rw [hconsistent.without_nil]
    rfl
  | cons key rest =>
    obtain ⟨statuses, hdelete⟩ :=
      Keys.on_delete_hidden hconsistent hopen hhidden (clock.mint minted)
    rw [List.isEmpty_cons, if_neg Bool.false_ne_true, Script.bind_eq, Script.discard_eq,
      Script.on_bind, Script.on_bind, hdelete]
    rfl

/-- What is left after `n` rounds. -/
theorem rounds_eq (hconsistent : store.Consistent) (hopen : store.closed = false)
    (clock : Clock) (limit : Nat) (minted : Version) (n : Nat) :
    (rounds clock limit minted store n).store =
      store.without (((store.overdue clock.millis).take (n * limit)).map Due.key) := by
  induction n with
  | zero =>
    rw [Nat.zero_mul, List.take_zero, List.map_nil, hconsistent.without_nil]
    rfl
  | succ n ih =>
    have hround := runRound_eq (hconsistent.without
      (((store.overdue clock.millis).take (n * limit)).map Due.key)) hopen clock limit
      (rounds clock limit minted store n).minted
    rw [rounds, ih, hround]
    show Store.without _ _ = _
    rw [Store.overdue_without, hconsistent.without_without, ← List.map_append, ← List.take_add,
      Nat.succ_mul]

/-- What round number `n` fetches. -/
theorem fetched_rounds (hconsistent : store.Consistent) (hopen : store.closed = false)
    (clock : Clock) (limit : Nat) (minted : Version) (n : Nat) :
    (rounds clock limit minted store (n + 1)).fetched =
      min limit ((store.overdue clock.millis).length - n * limit) := by
  rw [rounds, rounds_eq hconsistent hopen, runRound_eq (hconsistent.without _) hopen]
  show min limit _ = _
  rw [Store.overdue_without, List.length_drop]

/-! ## The run -/

/-- A run that has come to round `n` stops after the first round that fetches
nothing. -/
theorem runRounds_eq {clock : Clock} {minted : Version} {count : Nat}
    (hbefore : ∀ n < count, (rounds clock limit minted store (n + 1)).fetched ≠ 0)
    (hlast : (rounds clock limit minted store (count + 1)).fetched = 0)
    {n fuel : Nat} (hn : n ≤ count) (hfuel : count < n + fuel) :
    runRounds clock limit fuel (rounds clock limit minted store n).minted
        (rounds clock limit minted store n).store =
      ((rounds clock limit minted store (count + 1)).minted,
        (rounds clock limit minted store (count + 1)).store) := by
  induction fuel generalizing n with
  | zero => omega
  | succ fuel ih =>
    rw [runRounds]
    rcases Nat.eq_or_lt_of_le hn with rfl | hmore
    · exact if_pos hlast
    · refine (if_neg (hbefore n hmore)).trans (ih (n := n + 1) hmore ?_)
      omega

/-- There are no more keys overdue than the agenda has entries. -/
theorem length_overdue_le (hconsistent : store.Consistent) (now : Millis) :
    (store.overdue now).length ≤ store.agenda.size := by
  rw [← hconsistent.takeWhile_agenda, ← Std.ExtTreeSet.length_toList]
  exact (List.takeWhile_sublist _).length_le

/-- A run of the reaper on an open store at one time ends after finitely many rounds.
Until then every round fetches as many of the expired keys as there are left, up to
`limit`.  In the end the keys whose deadlines have passed are gone from the slots and
from the agenda, and nothing else is. -/
theorem rounds_drain (hreachable : store.Reachable) (hopen : store.closed = false)
    (hlimit : 1 ≤ limit) (clock : Clock) (minted : Version) :
    let now := clock.millis
    let after := rounds clock limit minted store
    ∃ count ≤ (store.overdue now).length,
      (∀ n < count, (after (n + 1)).fetched ≠ 0 ∧
        (after (n + 1)).fetched = min limit ((after n).store.overdue now).length) ∧
      (after (count + 1)).fetched = 0 ∧
      (after (count + 1)).store = store.purge now ∧
      drain clock limit minted store = ((after (count + 1)).minted, store.purge now) ∧
      (∀ key : Bytes, (store.purge now).slots[key]? =
        store.slots[key]?.filter fun slot : Slot => !slot.deadline.any (· ≤ now)) ∧
      ∀ due, due ∈ (store.purge now).agenda ↔ due ∈ store.agenda ∧ ¬ due.deadline ≤ now := by
  intro now after
  have hconsistent := hreachable.consistent
  have hfetched : ∀ n, (after (n + 1)).fetched =
      min limit ((store.overdue now).length - n * limit) :=
    fetched_rounds hconsistent hopen clock limit minted
  -- the rounds that are needed to fetch all keys that are overdue
  have henough : ∃ n, (store.overdue now).length ≤ n * limit :=
    ⟨_, Nat.le_mul_of_pos_right _ hlimit⟩
  let count := Nat.find henough
  have hcount : (store.overdue now).length ≤ count * limit := Nat.find_spec henough
  have hbefore : ∀ n < count, (after (n + 1)).fetched ≠ 0 := by
    intro n hn
    have hmore : n * limit < (store.overdue now).length :=
      Nat.lt_of_not_le (Nat.find_min henough hn)
    rw [hfetched n]
    omega
  have hlast : (after (count + 1)).fetched = 0 := by
    rw [hfetched count, Nat.sub_eq_zero_of_le hcount, Nat.min_zero]
  have hstore : (after (count + 1)).store = store.purge now := by
    have hall : (store.overdue now).length ≤ (count + 1) * limit := by
      rw [Nat.succ_mul]
      exact Nat.le_add_right_of_le hcount
    rw [rounds_eq hconsistent hopen, List.take_of_length_le hall, hconsistent.without_overdue]
  have hbound : count ≤ (store.overdue now).length :=
    Nat.find_min' henough (Nat.le_mul_of_pos_right _ hlimit)
  refine ⟨count, hbound, fun n hn => ⟨hbefore n hn, ?_⟩, hlast, hstore, ?_, fun key => ?_,
    fun due => ?_⟩
  · rw [hfetched n, rounds_eq hconsistent hopen, Store.overdue_without, List.length_drop]
  · have hfuel : count < 0 + (store.agenda.size + 1) := by
      have hsize := length_overdue_le hconsistent now
      omega
    rw [← hstore]
    exact runRounds_eq hbefore hlast (Nat.zero_le count) hfuel
  · exact Store.getElem?_live store now key
  · rw [Store.mem_agenda_purge, Nat.not_le]

/-- Three of four keys have expired and two are fetched at a time. -/
theorem rounds_drain_three :
    let store := (((Store.empty.perform 0 (.put [107] ⟨[97], 9⟩ (some 5))).2.perform 0
      (.put [108] ⟨[98], 9⟩ (some 3))).2.perform 0 (.putField [109] [97] ⟨[98], 9⟩)).2
    let store := ((store.perform 0 (.setDeadline [109] (some 9) 9)).2.perform 0
      (.put [110] ⟨[99], 9⟩ (some 10))).2
    let clock : Clock := ⟨9000⟩
    let now := clock.millis
    store.Reachable ∧ store.closed = false ∧
      ((List.range 4).map fun n => (rounds clock 2 0 store n).fetched) = [0, 2, 1, 0] ∧
      ∃ count ≤ (store.overdue now).length,
        (rounds clock 2 0 store (count + 1)).fetched = 0 ∧
        (rounds clock 2 0 store (count + 1)).store = store.purge now ∧
        (∀ due, due ∈ (store.purge now).agenda ↔ due ∈ store.agenda ∧ ¬ due.deadline ≤ now) := by
  intro earlier store clock now
  have hreachable : store.Reachable :=
    ((((Store.Reachable.empty.perform 0 _).perform 0 _).perform 0 _).perform 0 _).perform 0 _
  have hopen : store.closed = false := by decide
  obtain ⟨count, hcount, _, hlast, hstore, _, _, hagenda⟩ :=
    rounds_drain hreachable hopen (show 1 ≤ 2 by decide) clock 0
  exact ⟨hreachable, hopen, by decide, count, hcount, hlast, hstore, hagenda⟩

end Reaper

end Keyspace
