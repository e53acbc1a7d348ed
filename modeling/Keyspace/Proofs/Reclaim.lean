import Keyspace.Proofs.Deletion
import Keyspace.Proofs.Versions
import Keyspace.Reaper

/-!
# Reclaiming

A round of the reaper fetches keys that have expired and deletes them later, at
the version that it has minted before.  Other commands may run in between, and
they may make a fetched key anew.  This module says which of the keys that are
live at the deletion survive it.

* A key that is fetched cannot be seen at that time, so a bound on the versions at
  which commands make it anew is a bound on its version when it is deleted
  (`Store.Bound.runAll`).
* The deletion takes a live key exactly if it was fetched and is not newer than
  the version of the round (`Reaper.getElem?_reclaim`).  A key may be made anew at
  any version, so a live key can be taken.
* A round in which nothing runs in between takes no live key
  (`Reaper.live?_runRound`).
-/

namespace Keyspace

variable {store : Store} {key : Bytes} {start final : Millis} {p : Version → Prop}

/-- A bound lasts as time goes by. -/
theorem Store.Bound.of_le (h : store.Bound start key p) (hle : start ≤ final) :
    store.Bound final key p := by
  intro slot hslot
  rw [live?_of_le hle] at hslot
  exact h slot (Slot.live?_eq_some.mp hslot).1

/-- A lower bound survives a history whose commands make the key anew only with
versions that respect it. -/
theorem Store.Bound.runAll (hup : ∀ a b, a ≤ b → p a → p b) {steps : List Step}
    (h : store.Bound start key p)
    (hclock : (start :: (steps.map Step.now ++ [final])).Pairwise (· ≤ ·))
    (hstamps : ∀ step ∈ steps, ∀ version, (key, version) ∈ step.command.stamps → p version) :
    (Keyspace.runAll steps store).2.Bound final key p := by
  induction steps generalizing start store with
  | nil =>
    have hle : start ≤ final := List.rel_of_pairwise_cons hclock (by simp)
    exact h.of_le hle
  | cons step rest ih =>
    have hle : start ≤ step.now := List.rel_of_pairwise_cons hclock (by simp)
    have hbound : (step.run store).2.Bound step.now key p :=
      Command.bound_run hup step.command (h.of_le hle) (hstamps step List.mem_cons_self)
    exact ih hbound (List.Pairwise.of_cons hclock)
      fun other hother => hstamps other (List.mem_cons_of_mem step hother)

namespace Reaper

variable {keys : List Bytes} {version : Version} {slot : Slot} {context : Context}

/-- The deletion at the end of a round. -/
def reclaim (keys : List Bytes) (version : Version) : Command :=
  .del keys (keys.map fun _ => version) {}

/-- The keys in a successful reply to a fetch are those that have expired. -/
theorem expired_of_fetch {instant : Millis} {limit : Nat}
    (h : ((Command.fetchExpired instant limit).run context store).1 = ⟨.ok, .names keys⟩) :
    store.expired instant limit = .ok keys := by
  have hperform : (store.perform context.now (.expired instant limit)).1 =
      store.expired instant limit := rfl
  rw [Command.run_eq, Command.script, Script.bind_eq, Script.on_bind, Script.on_outcome,
    Keys.expired, Script.on_ask, hperform] at h
  cases hexpired : store.expired instant limit with
  | ok found =>
    rw [hexpired] at h
    cases h
    rfl
  | error failure =>
    rw [hexpired] at h
    cases failure <;> cases h

/-- What the deletion at the end of a round leaves of the live keys. -/
theorem getElem?_reclaim (hopen : store.closed = false)
    (hslot : store.live? context.now key = some slot) :
    ((reclaim keys version).run context store).2.slots[key]? =
      if key ∈ keys ∧ ¬ (version ≠ 0 ∧ version < slot.version) then none else some slot := by
  have hrun : (reclaim keys version).run context store = _ :=
    Command.run_of_reply (by rfl) store
  obtain ⟨after, hdelete, hslots⟩ := Keys.on_delete context.now hopen
    (List.length_map fun _ => version).symm {}
  rw [hrun, hdelete]
  show after.slots[key]? = _
  have hverdict : (Keys.verdictOn {} context.now store (key, version)).doomed = true ↔
      ¬ (version ≠ 0 ∧ version < slot.version) := by
    rw [Keys.verdictOn, hslot]
    have hverdict : Keys.verdict version {} (some slot.record) =
        if version ≠ 0 ∧ version < slot.version then ⟨.versionMismatch, false⟩
        else ⟨.ok, true⟩ := rfl
    rw [Option.map_some, hverdict]
    split
    · rename_i hnewer
      exact iff_of_false (by simp) fun hdoomed => hdoomed hnewer
    · rename_i holder
      exact iff_of_true rfl holder
  have hdoomed : key ∈ Keys.doomed {} context.now store (keys.zip (keys.map fun _ => version)) ↔
      key ∈ keys ∧ ¬ (version ≠ 0 ∧ version < slot.version) := by
    rw [Keys.mem_doomed_at, hverdict]
  rw [hslots, (Store.live?_eq_some.mp hslot).1]
  simp only [hdoomed]

/-- The keys that a round deletes among those that are live by then.  After a fetch
at which `keys` have expired, other commands run, and then the keys are deleted at
the version of the round.  A live key is kept exactly if it was not fetched or is
newer than that version.  So all of them are kept if the commands in between make
the fetched keys anew with newer versions only. -/
theorem reclaim_keeps_iff (hreachable : store.Reachable) {fetch later : Context} {limit : Nat}
    (hfetch : ((Command.fetchExpired fetch.now limit).run fetch store).1 = ⟨.ok, .names keys⟩)
    {between : List Step}
    (hclock : (fetch.now :: (between.map Step.now ++ [later.now])).Pairwise (· ≤ ·))
    (version : Version) :
    let current := (runAll between ((Command.fetchExpired fetch.now limit).run fetch store).2).2
    let after := ((reclaim keys version).run later current).2
    (∀ key slot, current.live? later.now key = some slot →
      (after.slots[key]? = some slot ↔ key ∉ keys ∨ version ≠ 0 ∧ version < slot.version)) ∧
    (version ≠ 0 →
      (∀ step ∈ between, ∀ key ∈ keys, ∀ written,
        (key, written) ∈ step.command.stamps → version < written) →
      ∀ key slot, current.live? later.now key = some slot → after.slots[key]? = some slot) := by
  intro current after
  have hcurrent : current.Reachable := (hreachable.run fetch _).runAll between
  have hiff : ∀ key slot, current.live? later.now key = some slot →
      (after.slots[key]? = some slot ↔ key ∉ keys ∨ version ≠ 0 ∧ version < slot.version) := by
    intro key slot hslot
    have hafter : after.slots[key]? =
        if key ∈ keys ∧ ¬ (version ≠ 0 ∧ version < slot.version) then none else some slot :=
      getElem?_reclaim (hcurrent.open_of_live hslot) hslot
    rw [hafter]
    by_cases hdoomed : key ∈ keys ∧ ¬ (version ≠ 0 ∧ version < slot.version)
    · rw [if_pos hdoomed]
      refine iff_of_false (by simp) ?_
      rintro (hkey | hnewer)
      · exact hkey hdoomed.1
      · exact hdoomed.2 hnewer
    · rw [if_neg hdoomed]
      refine iff_of_true rfl ?_
      grind
  refine ⟨hiff, fun hversion hstamps key slot hslot => (hiff key slot hslot).mpr ?_⟩
  by_cases hkey : key ∈ keys
  · right
    have hup : ∀ a b : Version, a ≤ b → version < a → version < b :=
      fun a b hle hlt => UInt64.lt_of_lt_of_le hlt hle
    -- the key cannot be seen at the fetch, so the bound holds there for want of a slot
    have hstart : ((Command.fetchExpired fetch.now limit).run fetch store).2.Bound fetch.now key
        (version < ·) := by
      intro slot hslot
      have hgone := hreachable.live?_expired (expired_of_fetch hfetch) hkey
      rw [Command.run_fetchExpired, hgone] at hslot
      cases hslot
    have hbound : current.Bound later.now key (version < ·) := by
      apply hstart.runAll hup hclock
      intro step hstep written hwritten
      exact hstamps step hstep key hkey written hwritten
    exact ⟨hversion, hbound slot hslot⟩
  · exact .inl hkey

/-- A key that is written again at a newer version survives the round. -/
theorem reclaim_keeps_iff_newer :
    let key : Bytes := [107]
    let context : Context := ⟨⟨9000⟩, .absolute⟩
    let store := (Store.empty.perform 0 (.put key ⟨[97], 1⟩ (some 5))).2
    let between : List Step := [⟨context, .set key ⟨[98], 3⟩ {} {}⟩]
    ((Command.fetchExpired context.now 10).run context store).1 = ⟨.ok, .names [key]⟩ ∧
      ∃ slot, (runAll between ((Command.fetchExpired context.now 10).run context store).2).2.live?
          context.now key = some slot ∧
        ((reclaim [key] 2).run context (runAll between
          ((Command.fetchExpired context.now 10).run context store).2).2).2.slots[key]? =
            some slot := by
  intro key context store between
  have hreachable : store.Reachable := Store.Reachable.empty.perform _ _
  have hfetch : ((Command.fetchExpired context.now 10).run context store).1 =
      ⟨.ok, .names [key]⟩ := by decide
  have hclock : (context.now :: (between.map Step.now ++ [context.now])).Pairwise (· ≤ ·) := by
    decide
  obtain ⟨hiff, _⟩ := reclaim_keeps_iff hreachable hfetch hclock 2
  obtain ⟨slot, hslot, hversion⟩ := Option.map_eq_some_iff.mp (show
    ((runAll between ((Command.fetchExpired context.now 10).run context store).2).2.live?
      context.now key).map Slot.version = some 3 by decide)
  have hnewer : (2 : Version) ≠ 0 ∧ 2 < slot.version := by
    rw [hversion]
    decide
  exact ⟨hfetch, slot, hslot, (hiff key slot hslot).mpr (.inr hnewer)⟩

/-- A key that is written again at an older version, which a write to an expired
key may have, is taken although it is live. -/
theorem reclaim_takes_live :
    let key : Bytes := [107]
    let earlier : Context := ⟨⟨1700000000000000⟩, .absolute⟩
    let context : Context := ⟨⟨1700000002000000⟩, .absolute⟩
    let older := context.clock.mint 0
    let version := context.clock.mint older
    let store := ((Command.setEx key ⟨[97], 1⟩ 1).run earlier .empty).2
    let fetched := (Command.fetchExpired context.now 10).run context store
    let current := ((Command.set key ⟨[98], older⟩ {} {}).run context fetched.2).2
    let reclaimed := (reclaim [key] version).run context current
    fetched.1 = ⟨.ok, .names [key]⟩ ∧ older ≠ 0 ∧
      (current.live? context.now key).map Slot.version = some older ∧
      reclaimed.1 = ⟨.ok, .statuses [.ok]⟩ ∧
      (reclaimed.2.slots[key]?).isNone := by
  decide

/-- A round in which nothing runs between the fetch and the deletion takes no live
key, whatever its version. -/
theorem live?_runRound (hreachable : store.Reachable) (clock : Clock) (limit : Nat)
    (minted : Version) (key : Bytes) :
    (runRound clock limit minted store).store.live? clock.millis key =
      store.live? clock.millis key := by
  have hfetch : ((Keys.expired clock.millis limit).mapRefusal Failure.status).on clock.millis
      store = ((store.expired clock.millis limit).mapError Failure.status, store) := by
    rw [Script.on_mapRefusal, Keys.expired, Script.on_ask]
    rfl
  rw [runRound, round, Script.bind_eq]
  cases hexpired : store.expired clock.millis limit with
  | error failure =>
    rw [hexpired] at hfetch
    rw [Script.on_bind_error hfetch]
  | ok keys =>
    rw [hexpired] at hfetch
    rw [Script.on_bind_ok hfetch]
    by_cases hkeys : keys.isEmpty = true
    · rw [if_pos hkeys]
      rfl
    · rw [if_neg hkeys]
      have hopen : store.closed = false := by
        cases hclosed : store.closed with
        | false => rfl
        | true =>
          rw [Store.expired, if_pos hclosed] at hexpired
          cases hexpired
      obtain ⟨after, hdelete, hslots⟩ := Keys.on_delete clock.millis hopen
        (List.length_map fun _ => clock.mint minted).symm {}
      rw [Script.bind_eq, Script.discard_eq, Script.on_bind, Script.on_bind, hdelete]
      show after.live? clock.millis key = _
      rw [Store.live?_eq, hslots]
      split
      · rename_i hdoomed
        obtain ⟨given, hmem, _⟩ := Keys.mem_doomed.mp hdoomed
        rw [hreachable.live?_expired hexpired (List.of_mem_zip hmem).1, Slot.live?_none]
      · rfl

end Reaper

end Keyspace
