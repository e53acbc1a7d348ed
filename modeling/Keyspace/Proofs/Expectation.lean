import Keyspace.Proofs.Batch
import Keyspace.Proofs.Versions

/-!
# Expected versions

A caller may demand that the key of a write have a certain version.  This module
shows that the demand cannot be got round: a key that does not have the version
stays as it is.

There are three groups.

* Single keys.  `Command.guard?` tells the key and the terms of the commands that
  write to one key on terms.  The check of the terms stands at a different place in
  each of them, after other checks that only read, and `Script.Refused` goes through
  those.  `Command.refused_of_unexpected` says that all of them are refused on a key
  that is not as the caller expects.
* Batches.  A batch of strings does not check the terms for a key that an earlier
  item is going to write.  But an item is going to write a key only if the check was
  passed, so on a key that is not as demanded none is ever granted
  (`Strings.planned_of_unexpected`).
* The guard.  `Command.kept_of_expected` is the result, for every command that can
  demand a version (`Command.expected?`).
-/

namespace Keyspace

/-! ## Single keys -/

namespace Script

variable {α β : Type} {bad : Status → Prop} {now : Millis} {store : Store}

/-- Whether a script is refused for one of some reasons and leaves the store as
it is. -/
def Refused (bad : Status → Prop) (now : Millis) (store : Store) (script : Script Status α) :
    Prop :=
  ∃ status, bad status ∧ script.on now store = (.error status, store)

namespace Refused

theorem bind {script : Script Status α} (h : script.Refused bad now store)
    (rest : α → Script Status β) : (script.bind rest).Refused bad now store := by
  obtain ⟨status, hbad, hrun⟩ := h
  exact ⟨status, hbad, on_bind_error hrun rest⟩

/-- What is refused after some reading is refused. -/
theorem of_asks {script : Script Status α} {rest : α → Script Status β} (h : script.Asks bad)
    (hrest : ∀ result, (rest result).Refused bad now store) :
    (script.bind rest).Refused bad now store := by
  rcases h.run_cases now store with ⟨result, hrun⟩ | ⟨reason, hreason, hrun⟩
  · obtain ⟨status, hbad, hrefused⟩ := hrest result
    exact ⟨status, hbad, (on_bind_ok hrun rest).trans hrefused⟩
  · exact ⟨reason, hreason, on_bind_error hrun rest⟩

end Refused

end Script

/-- The reasons for which a command is refused on a key that is not as the caller
expects: none under which anything has been done, and that the key does not exist
only if that is so. -/
def Denies (found : Option Record) (status : Status) : Prop :=
  status.isOk = false ∨ found = none ∧ status = .notExist

variable {now : Millis} {store : Store} {key : Bytes} {terms : Terms} {found : Option Record}
  {version : Version}

/-- No reason for a refusal reports a change. -/
theorem Status.changes_of_isOk {status : Status} (h : status.isOk = false) :
    status.changes = false := by
  cases status <;> first | rfl | cases h

theorem Denies.changes {found : Option Record} {status : Status} (h : Denies found status) :
    status.changes = false := by
  rcases h with herror | ⟨_, rfl⟩
  · exact Status.changes_of_isOk herror
  · rfl

theorem common_denies (found : Option Record) : Status.Common (Denies found) :=
  ⟨.inl rfl, .inl rfl, .inl rfl⟩

/-- What can be seen of the key is not as the caller expects. -/
structure Unexpected (now : Millis) (store : Store) (key : Bytes) (terms : Terms)
    (found : Option Record) : Prop where
  seen : (store.live? now key).map Slot.record = found
  permit : terms.permit found = false

namespace Unexpected

variable (h : Unexpected now store key terms found)
include h

theorem checkTerms : (checkTerms key terms).Refused (Denies found) now store := by
  cases hclosed : store.closed with
  | true =>
    refine ⟨.error, .inl rfl, ?_⟩
    rw [on_checkTerms, Store.record_closed hclosed]
    rfl
  | false =>
    refine ⟨.versionMismatch, .inl rfl, ?_⟩
    rw [on_checkTerms, Store.record_open hclosed, h.seen]
    simp [h.permit]

theorem checkKind (kind : Kind) : (checkKind key terms kind).Refused (Denies found) now store :=
  h.checkTerms.bind _

theorem checkExisting (kind : Kind) :
    (checkExisting key terms kind).Refused (Denies found) now store :=
  (h.checkKind kind).bind _

theorem checkCurrent (kind : Kind) :
    (checkCurrent key terms kind version).Refused (Denies found) now store :=
  (h.checkExisting kind).bind _

theorem put (item : Item) (mode : WriteMode) :
    (Strings.store key item terms mode).Refused (Denies found) now store :=
  h.checkTerms.bind _

end Unexpected

namespace Command

variable {context : Context} {command : Command} {status : Status} {reply : Reply}

/-- The key and the terms of a command that writes to one key on terms. -/
def guard? : Command → Option (Bytes × Terms)
  | getSet key _ terms | set key _ terms _ | setWith key _ terms _ | incrBy key _ _ terms
  | decrBy key _ _ terms | hset key _ _ terms | hmset key _ terms | hdel key _ terms
  | hincrBy key _ _ _ terms | sadd key _ terms | srem key _ terms | spop key _ terms
  | zadd key _ terms | zrem key _ terms | zincrBy key _ _ _ terms
  | zremRangeByScore key _ _ _ terms | zremRangeByRank key _ _ _ terms => some (key, terms)
  | _ => none

/-- A command on a key that is not as its caller expects is refused. -/
theorem refused_of_unexpected (hguard : command.guard? = some (key, terms))
    (h : Unexpected context.now store key terms found) :
    (command.script context).Refused (Denies found) context.now store := by
  have hcommon := common_denies found
  have hversion (version : Version) : (requireVersion version).Asks (Denies found) :=
    asks_requireVersion hcommon.error
  have hsome {α : Type} (batch : List α) : (requireSome batch).Asks (Denies found) :=
    asks_requireSome (.inl rfl) batch
  have hadd : ∀ version delta,
      (Strings.add key version delta terms).Refused (Denies found) context.now store :=
    fun version delta => .of_asks (hversion version) fun _ => (h.checkKind .string).bind _
  cases command with
  | getSet key item terms =>
    cases hguard
    refine .bind (.of_asks (hversion _) fun _ => ?_) _
    exact .of_asks (.query hcommon.failure rfl) fun _ => (h.put item {}).bind _
  | set key item terms mode =>
    cases hguard
    exact .bind (.of_asks (hversion _) fun _ => h.put item mode) _
  | setWith key item terms tokens =>
    cases hguard
    refine .bind (.of_asks (hversion _) fun _ => ?_) _
    cases SetOptions.ofTokens? tokens with
    | none => exact ⟨.wrongArgCount, .inl rfl, rfl⟩
    | some options =>
      have hput : ∀ expireTime mode, (Strings.store key item { terms with expireTime }
          mode).Refused (Denies found) context.now store := by
        intro expireTime mode
        have hterms : Unexpected context.now store key { terms with expireTime } found :=
          ⟨h.seen, h.permit⟩
        exact hterms.put item mode
      dsimp only
      split
      · cases found with
        | none =>
          have hmissing : (requireRecord key).Asks (Denies none) :=
            asks_requireRecord hcommon (.inr ⟨rfl, rfl⟩)
          exact .of_asks hmissing.discard fun _ => hput _ _
        | some record =>
          cases hclosed : store.closed with
          | true =>
            have hrefused :
                (requireRecord key).Refused (Denies (some record)) context.now store := by
              refine ⟨.error, .inl rfl, ?_⟩
              rw [on_requireRecord, Store.record_closed hclosed]
              rfl
            exact (hrefused.bind _).bind _
          | false =>
            have hpresent : (discard (requireRecord key)).on context.now store =
                (.ok (), store) := by
              rw [Script.discard_eq, Script.on_bind, on_requireRecord, Store.record_open hclosed,
                h.seen]
              rfl
            obtain ⟨status, hbad, hrun⟩ := hput _ _
            exact ⟨status, hbad, (Script.on_bind_ok hpresent _).trans hrun⟩
      · exact hput _ _
  | incrBy key version delta terms =>
    cases hguard
    exact (hadd version delta).bind _
  | decrBy key version delta terms =>
    cases hguard
    exact .bind (.of_asks (.ofOption (.inl rfl) _) fun delta => hadd version delta) _
  | hset key field item terms =>
    cases hguard
    exact .bind (.of_asks (hversion _) fun _ => ((h.checkKind .hash).bind _).bind _) _
  | hmset key values terms =>
    cases hguard
    exact .bind (.of_asks (hsome _) fun _ => ((h.checkKind .hash).bind _).bind _) _
  | hdel key fields terms =>
    cases hguard
    exact .bind (.of_asks (hsome _) fun _ => ((h.checkExisting .hash).bind _).bind _) _
  | hincrBy key field version delta terms =>
    cases hguard
    exact .bind (.of_asks (hversion _) fun _ => ((h.checkKind .hash).bind _).bind _) _
  | sadd key members terms =>
    cases hguard
    exact .bind (.of_asks (hsome _) fun _ => ((h.checkKind .set).bind _).bind _) _
  | srem key members terms =>
    cases hguard
    exact .bind (.of_asks (hsome _) fun _ => ((h.checkExisting .set).bind _).bind _) _
  | spop key version terms =>
    cases hguard
    exact .bind (.of_asks (hversion _) fun _ => ((h.checkCurrent .set).bind _).bind _) _
  | zadd key items terms =>
    cases hguard
    exact .bind (.of_asks (hsome _) fun _ => ((h.checkKind .zset).bind _).bind _) _
  | zrem key members terms =>
    cases hguard
    exact .bind (.of_asks (hsome _) fun _ => ((h.checkExisting .zset).bind _).bind _) _
  | zincrBy key member version delta terms =>
    cases hguard
    exact .bind (.of_asks (hversion _) fun _ => ((h.checkKind .zset).bind _).bind _) _
  | zremRangeByScore key min max version terms =>
    cases hguard
    refine .bind (.of_asks (hversion _) fun _ => .of_asks ?_ fun bounds => ?_) _
    · refine .bind (.ofOption (.inl rfl) _) fun _ => ?_
      exact .bind (.ofOption (.inl rfl) _) fun _ => .done _
    · exact ((h.checkCurrent .zset).bind _).bind _
  | zremRangeByRank key start stop version terms =>
    cases hguard
    exact .bind (.of_asks (hversion _) fun _ => ((h.checkCurrent .zset).bind _).bind _) _
  | _ => cases hguard

end Command

/-! ## Batches -/

namespace Strings

variable {mode : WriteMode} {items : List (Bytes × Item)}

theorem judgement_of_unexpected (h : Unexpected now store key terms found) (offered : Version) :
    (judgement terms mode (store.record now key) offered).isOk = false := by
  unfold judgement
  split
  · rfl
  · cases hclosed : store.closed with
    | true =>
      rw [Store.record_closed hclosed]
      rfl
    | false =>
      rw [Store.record_open hclosed, h.seen]
      simp [h.permit, Status.isOk]

/-- In a batch that demands what its key is not, no item on the key is granted. -/
theorem planned_of_unexpected (h : Unexpected now store key terms found)
    {pending : Std.ExtTreeMap Bytes Version} (hpending : pending[key]? = none) :
    ∀ item status, ((key, item), status) ∈
      items.zip (plannedAll terms mode store now pending items) → status.isOk = false := by
  induction items generalizing pending with
  | nil =>
    intro item status hmem
    cases hmem
  | cons entry rest ih =>
    obtain ⟨other, offered⟩ := entry
    intro item status hmem
    rw [plannedAll, List.zip_cons_cons, List.mem_cons] at hmem
    by_cases hother : key = other
    · subst hother
      have hrefused : (planned terms mode store now pending key offered).isOk = false := by
        rw [planned, hpending]
        split
        · rfl
        · exact judgement_of_unexpected h offered.version
      have hne : planned terms mode store now pending key offered ≠ .ok := by
        intro hok
        rw [hok] at hrefused
        cases hrefused
      rw [if_neg hne] at hmem
      rcases hmem with heq | hmem
      · cases heq
        exact hrefused
      · exact ih hpending item status hmem
    · rcases hmem with heq | hmem
      · cases heq
        exact absurd rfl hother
      · refine ih ?_ item status hmem
        split
        · rw [Std.ExtTreeMap.getElem?_insert, if_neg, hpending]
          rw [Std.compare_eq_iff_eq]
          exact Ne.symm hother
        · exact hpending

/-- Strings that are put under other keys leave a key as it is. -/
theorem getElem?_foldl_written {writes : List Write} (h : ∀ write ∈ writes, write.key ≠ key)
    (store : Store) :
    (writes.foldl (written now) store).slots[key]? = store.slots[key]? := by
  induction writes generalizing store with
  | nil => rfl
  | cons write rest ih =>
    have hput : (written now store write).slots[key]? = store.slots[key]? := by
      have hne : (Call.put write.key write.item write.deadline).key? ≠ some key :=
        fun hsame => h write List.mem_cons_self (Option.some.inj hsame)
      exact Store.getElem?_perform_of_ne (by simp) hne
    rw [List.foldl_cons, ih fun other hother => h other (List.mem_cons_of_mem write hother), hput]

end Strings

namespace Command

variable {context : Context} {command : Command} {status : Status} {expected : Version}

/-- A batch leaves a key alone that is not as its caller expects, however often it
names the key. -/
theorem mset_of_unexpected (h : Unexpected context.now store key terms found)
    (items : List (Bytes × Item)) (mode : WriteMode) :
    ∃ statuses, ((mset items terms mode).run context store).1.data = .statuses statuses ∧
      (∀ item status, ((key, item), status) ∈ items.zip statuses → status.isOk = false) ∧
      ((mset items terms mode).run context store).2.slots[key]? = store.slots[key]? := by
  have hrun : (mset items terms mode).run context store = _ := run_of_reply (by rfl) store
  rw [hrun]
  by_cases hitems : items = []
  · subst hitems
    exact ⟨[], rfl, fun item status hmem => (by cases hmem), rfl⟩
  · rw [Strings.on_setMany hitems]
    have hrefused : ∀ item status, ((key, item), status) ∈
        items.zip (Strings.plannedAll terms mode store context.now ∅ items) →
        status.isOk = false :=
      Strings.planned_of_unexpected h Std.ExtTreeMap.getElem?_empty
    refine ⟨_, rfl, hrefused, Strings.getElem?_foldl_written (fun write hwrite => ?_) store⟩
    rintro rfl
    have hgranted := (Strings.mem_zip_of_mem_writes hwrite).1
    exact absurd (hrefused _ _ hgranted) (by decide)

/-! ## The guard -/

/-- The version that a command demands of the keys that it writes to. -/
def expected? : Command → Option Version
  | mset _ terms _ => terms.expected
  | command => command.guard?.bind fun (_, terms) => terms.expected

theorem expected?_of_guard (hguard : command.guard? = some (key, terms)) :
    command.expected? = terms.expected := by
  cases command <;> cases hguard <;> rfl

theorem keys_of_guard (hguard : command.guard? = some (key, terms)) : command.keys = [key] := by
  cases command <;> cases hguard <;> rfl

/-- A command that demands a version is a batch of strings or writes to one key. -/
theorem expected?_cases (h : command.expected? = some expected) :
    (∃ items terms mode, command = .mset items terms mode ∧ terms.expected = some expected) ∨
      ∃ key terms, command.guard? = some (key, terms) ∧ terms.expected = some expected := by
  unfold expected? at h
  split at h
  · rename_i items terms mode
    exact .inl ⟨items, terms, mode, rfl, h⟩
  · obtain ⟨⟨key, terms⟩, hguard, hexpected⟩ := Option.bind_eq_some_iff.mp h
    exact .inr ⟨key, terms, hguard, hexpected⟩

/-- The statuses in the reply to a command that are about a key. -/
def reported (command : Command) (key : Bytes) (reply : Reply) : List Status :=
  match command, reply.data with
  | mset items _ _, .statuses statuses =>
    (items.zip statuses).filterMap fun ((target, _), status) =>
      if target = key then some status else none
  | _, .statuses statuses => statuses
  | _, .fieldStatuses statuses => statuses.map Prod.snd
  | _, _ => []

/-- A command that is refused reports nothing but the reason. -/
theorem reported_blank (hguard : command.guard? = some (key, terms)) {other : Status}
    (hother : other ∈ command.reported key ⟨status, command.blank status⟩) : other = status := by
  have hmap {ι : Type} {items : List ι} (h : other ∈ items.map fun _ => status) :
      other = status := by
    obtain ⟨_, _, rfl⟩ := List.mem_map.mp h
    rfl
  cases command with
  | sadd | srem | zrem | zadd => exact hmap hother
  | hmset | hdel =>
    obtain ⟨entry, hentry, rfl⟩ := List.mem_map.mp hother
    obtain ⟨_, _, rfl⟩ := List.mem_map.mp hentry
    rfl
  | mset => cases hguard
  | del => cases hguard
  | _ => cases hother

theorem mem_reported_mset {items : List (Bytes × Item)} {mode : WriteMode} {reply : Reply}
    {statuses : List Status} (hdata : reply.data = .statuses statuses)
    (h : status ∈ (mset items terms mode).reported key reply) :
    ∃ item, ((key, item), status) ∈ items.zip statuses := by
  simp only [reported, hdata] at h
  obtain ⟨⟨⟨target, item⟩, other⟩, hentry, hsame⟩ := List.mem_filterMap.mp h
  dsimp only at hsame
  split at hsame
  · rename_i hkey
    cases hkey
    cases hsame
    exact ⟨item, hentry⟩
  · cases hsame

/-- A demanded version cannot be got round.  Whatever the command, a key that it
names and that does not have the version demanded stays as it is, deadline
included; nothing that is reported about the key says that something has been
changed; nor does the status of a command on that key alone. -/
theorem kept_of_expected (hexpected : command.expected? = some expected)
    (hkey : key ∈ command.keys)
    (hmismatch : ((store.live? context.now key).map Slot.version).getD 0 ≠ expected) :
    (command.run context store).2.slots[key]? = store.slots[key]? ∧
    (∀ status ∈ command.reported key (command.run context store).1, status.changes = false) ∧
    ((∀ items terms mode, command ≠ .mset items terms mode) →
      (command.run context store).1.status.changes = false) := by
  have hunexpected : ∀ terms : Terms, terms.expected = some expected →
      Unexpected context.now store key terms ((store.live? context.now key).map Slot.record) := by
    intro terms hterms
    refine ⟨rfl, ?_⟩
    rw [Terms.permit, hterms, Option.map_map]
    exact beq_false_of_ne hmismatch
  rcases expected?_cases hexpected with
    ⟨items, terms, mode, rfl, hterms⟩ | ⟨target, terms, hguard, hterms⟩
  · obtain ⟨statuses, hdata, hrefused, hslot⟩ :=
      mset_of_unexpected (hunexpected terms hterms) items mode
    refine ⟨hslot, fun status hstatus => ?_, fun hmset => absurd rfl (hmset items terms mode)⟩
    obtain ⟨item, hentry⟩ := mem_reported_mset hdata hstatus
    exact Status.changes_of_isOk (hrefused item status hentry)
  · rw [keys_of_guard hguard, List.mem_singleton] at hkey
    subst hkey
    obtain ⟨status, hdenies, hscript⟩ := refused_of_unexpected hguard (hunexpected terms hterms)
    have hrun : command.run context store = (⟨status, command.blank status⟩, store) := by
      rw [run_eq, hscript]
      rfl
    have hchanges : status.changes = false := hdenies.changes
    rw [hrun]
    refine ⟨rfl, fun other hother => ?_, fun _ => hchanges⟩
    rw [reported_blank hguard hother]
    exact hchanges

/-- A batch that names a key twice which is newer than demanded, and another key
that is as demanded. -/
theorem kept_of_expected_twice :
    let context : Context := ⟨⟨5000⟩, .absolute⟩
    let store := ((set [107] ⟨[97], 5⟩ {} {}).run context .empty).2
    let command : Command :=
      .mset [([107], ⟨[98], 8⟩), ([108], ⟨[99], 3⟩), ([107], ⟨[100], 9⟩)] (.expecting 0) {}
    (command.run context store).1 =
        ⟨.ok, .statuses [.versionMismatch, .ok, .versionMismatch]⟩ ∧
      command.reported [107] (command.run context store).1 =
        [.versionMismatch, .versionMismatch] ∧
      (∀ status ∈ command.reported [107] (command.run context store).1, status.changes = false) ∧
      (command.run context store).2.slots[([107] : Bytes)]? = store.slots[([107] : Bytes)]? := by
  intro context store command
  have hexpected : command.expected? = some 0 := rfl
  have hmismatch : ((store.live? context.now [107]).map Slot.version).getD 0 ≠ 0 := by decide
  obtain ⟨hslot, hreported, _⟩ := kept_of_expected hexpected (by decide) hmismatch
  exact ⟨by decide, by decide, hreported, hslot⟩

end Command

end Keyspace
