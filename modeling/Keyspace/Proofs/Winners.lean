import Keyspace.Proofs.Deletion
import Keyspace.Proofs.Overwrites

/-!
# One winner per expected version

A write that demands a version of its key and is applied at a newer one moves the
key past the version demanded.  From then on, as long as the key lives, nobody
else can demand that version with success.  There are three steps.

* A string is only ever written at a newer version (`Command.lt_of_puts`).  The
  parts of a collection are compared with the part that they replace, so a write
  can be applied and leave the key where it was; then the next one finds the
  version that it demands.
* While the key lives its version does not fall (`Store.Kept.runAll`).
* A command that demands an older version than that of the key is refused; in a
  batch of strings the items on the key are, and so is a deletion at the version
  that is demanded (`Step.loses_of_lt`).
-/

namespace Keyspace

variable {now : Millis} {key : Bytes} {version expected : Version} {terms : Terms}
  {before after : Store}

/-! ## Strings move the key on -/

namespace Command

variable {context : Context} {command : Command} {store : Store}

/-- A command that writes one string applies nothing else. -/
theorem applied_of_puts {target : Bytes} {written : Version} {reply : Reply}
    (hputs : command.puts? = some (target, written)) (happlied : version ∈ command.applied reply) :
    written = version := by
  have hok := status_of_applied happlied
  obtain ⟨status, data⟩ := reply
  subst hok
  cases command with
  | getSet | set | setEx | setWith | incrBy | decrBy =>
    cases hputs
    exact (List.mem_singleton.mp happlied).symm
  | _ => cases hputs

/-- A string that is written on terms is newer than the version demanded. -/
theorem lt_of_puts {target : Bytes} (hguard : command.guard? = some (key, terms))
    (hexpected : terms.expected = some expected)
    (hputs : command.puts? = some (target, version))
    (hok : (command.run context store).1.status = .ok) : expected < version := by
  have hadmits : store.Admits context.now target command.expected? version :=
    admits_of_puts hputs hok
  rw [expected?_of_guard hguard, hexpected] at hadmits
  exact hadmits.lt_of_expected

end Command

/-! ## Keys that stay live -/

/-- Whether a key is live before and after every step of a history. -/
def StaysLive (key : Bytes) : List Step → Store → Prop
  | [], _ => True
  | step :: rest, store =>
    (store.live? step.now key).isSome ∧ ((step.run store).2.live? step.now key).isSome ∧
      StaysLive key rest (step.run store).2

/-- Whether there is something under a key at no less than a version. -/
def Store.Kept (key : Bytes) (version : Version) (store : Store) : Prop :=
  ∃ slot, store.slots[key]? = some slot ∧ version ≤ slot.version

theorem Store.Kept.of_floor (h : before.Floor now key version)
    (hlive : (before.live? now key).isSome) : before.Kept key version := by
  obtain ⟨slot, hslot⟩ := Option.isSome_iff_exists.mp hlive
  exact ⟨slot, (Store.live?_eq_some.mp hslot).1, h slot hslot⟩

theorem Store.Kept.le_version (h : before.Kept key version) {slot : Slot}
    (hslot : before.live? now key = some slot) : version ≤ slot.version := by
  obtain ⟨kept, hkept, hle⟩ := h
  have hfound : before.slots[key]? = some slot := (Store.live?_eq_some.mp hslot).1
  have hsame : kept = slot := Option.some.inj (hkept.symm.trans hfound)
  exact hsame ▸ hle

/-- What is kept at a version is kept through every step that leaves it live. -/
theorem Store.Kept.run (h : before.Kept key version) (step : Step)
    (hbefore : (before.live? step.now key).isSome)
    (hafter : ((step.run before).2.live? step.now key).isSome) :
    (step.run before).2.Kept key version := by
  obtain ⟨slot, hslot⟩ := Option.isSome_iff_exists.mp hbefore
  obtain ⟨next, hnext⟩ := Option.isSome_iff_exists.mp hafter
  have hrises : slot.version ≤ next.version := Command.version_le_run hslot hnext
  exact ⟨next, (Store.live?_eq_some.mp hnext).1, UInt64.le_trans (h.le_version hslot) hrises⟩

theorem Store.Kept.runAll (h : before.Kept key version) {steps : List Step}
    (hstays : StaysLive key steps before) :
    (Keyspace.runAll steps before).2.Kept key version := by
  induction steps generalizing before with
  | nil => exact h
  | cons step rest ih =>
    obtain ⟨hbefore, hafter, hrest⟩ := hstays
    exact ih (h.run step hbefore hafter) hrest

/-! ## Losing -/

namespace Step

/-- Whether a step that demands a version of a key fails on the key.  A command on
the key alone is refused and changes nothing.  The items of a batch on the key are
refused and leave it as it is.  A deletion demands a version for each of its keys,
and those at this version are refused. -/
def Loses (key : Bytes) (expected : Version) (store : Store) (step : Step) : Prop :=
  match step.command with
  | .mset items terms _ => terms.expected = some expected →
    ∃ statuses, (step.run store).1.data = .statuses statuses ∧
      (∀ item status, ((key, item), status) ∈ items.zip statuses → status.isOk = false) ∧
      (step.run store).2.slots[key]? = store.slots[key]?
  | .del keys versions terms => terms.expected.isSome →
    ∃ statuses, (step.run store).1.data = .statuses statuses ∧
      (∀ status, ((key, expected), status) ∈ (keys.zip versions).zip statuses →
        status = .versionMismatch) ∧
      ((∀ version, (key, version) ∈ keys.zip versions → version = expected) →
        (step.run store).2.slots[key]? = store.slots[key]?)
  | command => ∀ terms, command.guard? = some (key, terms) → terms.expected = some expected →
    (step.run store).1.status.isOk = false ∧ (step.run store).2 = store

variable {step : Step} {store : Store} {slot : Slot}

theorem loses_del {keys : List Bytes} {versions : List Version}
    (hcommand : step.command = .del keys versions terms) (hexpected : terms.expected.isSome)
    (hopen : store.closed = false) (hslot : store.live? step.now key = some slot)
    (hlt : expected < slot.version) :
    ∃ statuses, (step.run store).1.data = .statuses statuses ∧
      (∀ status, ((key, expected), status) ∈ (keys.zip versions).zip statuses →
        status = .versionMismatch) ∧
      ((∀ version, (key, version) ∈ keys.zip versions → version = expected) →
        (step.run store).2.slots[key]? = store.slots[key]?) := by
  have hrun : (Command.del keys versions terms).run step.context store = _ :=
    Command.run_of_reply (by rfl) store
  have hverdict : Keys.verdictOn terms step.now store (key, expected) =
      ⟨.versionMismatch, false⟩ := by
    rw [Keys.verdictOn, hslot]
    refine if_pos ⟨hexpected, ?_⟩
    show slot.version ≠ expected
    grind
  rw [run, hcommand, hrun]
  by_cases hlength : keys.length = versions.length
  · obtain ⟨after, hdelete, hslots⟩ := Keys.on_delete step.now hopen hlength terms
    have hdelete' : (Keys.delete keys versions terms).on step.context.now store = _ := hdelete
    rw [hdelete']
    refine ⟨_, rfl, fun status hmem => ?_, fun hall => ?_⟩
    · rw [zip_map_self, List.mem_map] at hmem
      obtain ⟨entry, _, heq⟩ := hmem
      cases heq
      rw [hverdict]
    · rw [hslots, if_neg]
      rintro hdoomed
      obtain ⟨version, hmem, hverdict'⟩ := Keys.mem_doomed.mp hdoomed
      rw [hall version hmem, hverdict] at hverdict'
      cases hverdict'
  · have hrefused : (Keys.delete keys versions terms).on step.context.now store =
        (.error .error, store) := by
      rw [Keys.delete, if_pos hlength]
      rfl
    rw [hrefused]
    exact ⟨[], rfl, fun status hmem => (by rw [List.zip_nil_right] at hmem; cases hmem),
      fun _ => rfl⟩

/-- A step loses if it demands a version that the key has left behind. -/
theorem loses_of_lt (hopen : store.closed = false) (hslot : store.live? step.now key = some slot)
    (hlt : expected < slot.version) : step.Loses key expected store := by
  have hunexpected : ∀ terms : Terms, terms.expected = some expected →
      Unexpected step.now store key terms (some slot.record) := by
    intro terms hexpected
    refine ⟨by rw [hslot]; rfl, ?_⟩
    rw [Terms.permit, hexpected]
    have hne : slot.version ≠ expected := by grind
    exact beq_false_of_ne hne
  unfold Loses
  split
  · rename_i items terms mode hcommand
    intro hexpected
    rw [run, hcommand]
    exact Command.mset_of_unexpected (hunexpected terms hexpected) items mode
  · rename_i keys versions terms hcommand
    intro hexpected
    exact loses_del hcommand hexpected hopen hslot hlt
  · intro terms hguard hexpected
    obtain ⟨status, hdenies, hscript⟩ :=
      Command.refused_of_unexpected hguard (hunexpected terms hexpected)
    have hrun : step.run store = (⟨status, step.command.blank status⟩, store) := by
      rw [run, Command.run_eq]
      exact Prod.ext (by rw [hscript]; rfl) (by rw [hscript])
    rw [hrun]
    refine ⟨?_, rfl⟩
    rcases hdenies with hdenies | ⟨hmissing, _⟩
    · exact hdenies
    · cases hmissing

/-- Once a write that demanded a version has been applied at a newer one, which
every write of a string is, no step that demands the same version has success as
long as the key lives.  The clock need not run forwards. -/
theorem loses_after_winner (hreachable : store.Reachable) {winner loser : Step}
    {between : List Step} (hguard : winner.command.guard? = some (key, terms))
    (hexpected : terms.expected = some expected)
    (happlied : version ∈ winner.command.applied (winner.run store).1)
    (hnewer : expected < version ∨ winner.command.puts?.isSome)
    (hwon : ((winner.run store).2.live? winner.now key).isSome)
    (hstays : StaysLive key between (winner.run store).2)
    (hlive : ((runAll (winner :: between) store).2.live? loser.now key).isSome) :
    loser.Loses key expected (runAll (winner :: between) store).2 := by
  have hlt : expected < version := by
    rcases hnewer with hlt | hputs
    · exact hlt
    · obtain ⟨⟨target, written⟩, hputs⟩ := Option.isSome_iff_exists.mp hputs
      have hok := Command.status_of_applied happlied
      have hwritten := Command.applied_of_puts hputs happlied
      exact hwritten ▸ Command.lt_of_puts hguard hexpected hputs hok
  have hfloor : (winner.run store).2.Floor winner.now key version :=
    Command.floor_of_applied (Command.keys_of_guard hguard) happlied
  have hkept : (runAll (winner :: between) store).2.Kept key version :=
    (Store.Kept.of_floor hfloor hwon).runAll hstays
  obtain ⟨slot, hslot⟩ := Option.isSome_iff_exists.mp hlive
  have hopen : (runAll (winner :: between) store).2.closed = false :=
    (hreachable.runAll (winner :: between)).open_of_live hslot
  have hbehind : expected < slot.version := UInt64.lt_of_lt_of_le hlt (hkept.le_version hslot)
  exact loses_of_lt hopen hslot hbehind

/-- A field that is written at a newer version than the one demanded. -/
theorem loses_after_winner_hset :
    let context : Context := ⟨⟨5000⟩, .absolute⟩
    let store := ((Command.hset [104] [97] ⟨[49], 10⟩ {}).run context .empty).2
    let winner : Step := ⟨context, .hset [104] [98] ⟨[50], 11⟩ (.expecting 10)⟩
    let between : List Step := [⟨context, .hset [104] [99] ⟨[51], 3⟩ {}⟩]
    let loser : Step := ⟨context, .hset [104] [97] ⟨[52], 12⟩ (.expecting 10)⟩
    (winner.run store).1.status = .ok ∧
      loser.Loses [104] 10 (runAll (winner :: between) store).2 := by
  intro context store winner between loser
  have hreachable : store.Reachable := Store.Reachable.empty.run _ _
  have happlied : 11 ∈ winner.command.applied (winner.run store).1 := by decide
  have hnewer : (10 : Version) < 11 ∨ winner.command.puts?.isSome := .inl (by decide)
  have hstays : StaysLive [104] between (winner.run store).2 := ⟨by decide, by decide, trivial⟩
  exact ⟨by decide, loses_after_winner hreachable rfl rfl happlied hnewer (by decide) hstays
    (by decide)⟩

/-- A write that is applied at an older version than that of its key leaves the
key where it was, and a second one finds the version that it demands.  A deletion
does not look at the version that its terms demand but at the one that it gives
for the key. -/
theorem wins_after_winner :
    (¬ ∀ (store : Store) (winner loser : Step) (key : Bytes) (terms : Terms)
        (expected version : Version), store.Reachable → 0 < expected →
      winner.command.guard? = some (key, terms) → terms.expected = some expected →
      version ∈ winner.command.applied (winner.run store).1 →
      ((winner.run store).2.live? winner.now key).isSome →
      ((winner.run store).2.live? loser.now key).isSome →
      loser.Loses key expected (winner.run store).2) ∧
    let context : Context := ⟨⟨5000⟩, .absolute⟩
    let steps : List Step := [⟨context, .hset [104] [97] ⟨[49], 10⟩ {}⟩,
      ⟨context, .hset [104] [97] ⟨[50], 11⟩ (.expecting 10)⟩,
      ⟨context, .del [[104]] [11] (.expecting 10)⟩]
    (runAll steps .empty).1 = [⟨.ok, .nothing⟩, ⟨.ok, .nothing⟩, ⟨.ok, .statuses [.ok]⟩] := by
  refine ⟨fun h => ?_, by decide⟩
  let context : Context := ⟨⟨5000⟩, .absolute⟩
  let store := (runAll [⟨context, .hset [104] [97] ⟨[49], 10⟩ {}⟩,
    ⟨context, .hset [104] [98] ⟨[50], 5⟩ {}⟩] .empty).2
  have hreachable : store.Reachable := Store.Reachable.empty.runAll _
  have hloses := h store ⟨context, .hset [104] [98] ⟨[51], 7⟩ (.expecting 10)⟩
    ⟨context, .hset [104] [98] ⟨[52], 8⟩ (.expecting 10)⟩ [104] (.expecting 10) 10 7 hreachable
    (by decide) rfl rfl (by decide) (by decide) (by decide)
  exact absurd (hloses (.expecting 10) rfl rfl).1 (by decide)

end Step

end Keyspace
