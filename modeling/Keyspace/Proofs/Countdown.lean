import Keyspace.Proofs.Deadlines
import Keyspace.Proofs.Leftovers
import Keyspace.Proofs.Options
import Keyspace.Proofs.Refusal

/-!
# Counting down

A key with a deadline counts down to it and is gone from then on, without anybody doing
anything.  This module follows such a key through a sequence of commands that leave it alone.

* One moment.  `Store.Ticks` says of a live key that it has a deadline.  As long as it is live
  the deadline is ahead of the clock (`Store.Ticks.now_lt`), and what is in between is the time
  that the key has left (`Store.Ticks.run_pttl`, `Store.Ticks.run_ttl`).
* A sequence.  Reading commands and commands that do not name the key leave its slot in place,
  expired or not (`getElem?_runAll_of_leaves`).  So the deadline stays what it is, and a key
  that has passed it is the same as none (`Store.alike_expired`).
* The start.  A command that gives a key a time to live leaves it live
  (`Command.SetsTime.ticks`), for a deadline is never computed to lie in the past.
-/

namespace Keyspace

variable {store after : Store} {now deadline : Millis} {key : Bytes} {context : Context}

/-! ## One moment -/

/-- Whether a key is live and has a deadline. -/
structure Store.Ticks (store : Store) (now : Millis) (key : Bytes) (deadline : Millis) : Prop where
  isOpen : store.closed = false
  live : ∃ slot, store.live? now key = some slot ∧ slot.deadline = some deadline

namespace Store

theorem live?_of_deadline {slot : Slot} (hslot : store.slots[key]? = some slot)
    (hdeadline : slot.deadline = some deadline) :
    store.live? now key = if deadline ≤ now then none else some slot := by
  rw [live?_eq, hslot, Slot.live?_some, Slot.isExpired, hdeadline]
  exact if_congr decide_eq_true_iff rfl rfl

namespace Ticks

theorem now_lt (h : store.Ticks now key deadline) : now < deadline := by
  obtain ⟨slot, hlive, hdeadline⟩ := h.live
  rw [live?_of_deadline (live?_eq_some.mp hlive).1 hdeadline] at hlive
  split at hlive
  · cases hlive
  · rename_i hahead
    exact Nat.lt_of_not_le hahead

theorem on_millisLeft (h : store.Ticks context.now key deadline) :
    (Keys.millisLeft context key).on context.now store = (.ok (deadline - context.now), store) := by
  obtain ⟨slot, hlive, hdeadline⟩ := h.live
  rw [Keys.millisLeft, Script.bind_eq, Script.on_bind, on_requireRecord, record_open h.isOpen,
    hlive]
  show ((Script.ofOption Status.noExpireSet slot.deadline).bind _).on context.now store = _
  rw [hdeadline]
  rfl

theorem run_pttl (h : store.Ticks context.now key deadline) :
    (Command.pttl key).run context store = (⟨.ok, .count (deadline - context.now)⟩, store) := by
  rw [Command.run_of_reply (by rfl), h.on_millisLeft]

/-- Seconds are rounded up. -/
theorem run_ttl (h : store.Ticks context.now key deadline) :
    ∃ seconds, (Command.ttl key).run context store = (⟨.ok, .count seconds⟩, store) ∧
      deadline - context.now ≤ 1000 * seconds ∧
      1000 * seconds < deadline - context.now + 1000 := by
  have hceil : ∀ left : Nat, left ≤ 1000 * ((left + 999) / 1000) ∧
      1000 * ((left + 999) / 1000) < left + 1000 := by omega
  refine ⟨(deadline - context.now + 999) / 1000, ?_, hceil _⟩
  rw [Command.run_of_reply (by rfl), Keys.secondsLeft, Script.bind_eq,
    Script.on_bind_ok h.on_millisLeft]
  rfl

end Ticks

/-- A key whose deadline has passed is the same as none. -/
theorem alike_expired {slot : Slot} (hslot : store.slots[key]? = some slot)
    (hdeadline : slot.deadline = some deadline) (hpassed : deadline ≤ now) :
    Alike now store (store.replace key none) := by
  refine ⟨rfl, fun other => ?_⟩
  rw [live?_replace]
  split
  · rename_i hkey
    rw [← hkey, live?_of_deadline hslot hdeadline, if_pos hpassed, Slot.live?_none]
  · rfl

end Store

/-! ## A sequence -/

/-- Whether a step has no part in the slot of a key: it does not close the store, and it reads
or is about other keys. -/
def Step.Leaves (key : Bytes) (step : Step) : Prop :=
  step.command ≠ .finalize ∧ (step.command.reads = true ∨ key ∉ step.command.keys)

theorem Command.run_reads {command : Command} (h : command.reads = true) (context : Context)
    (store : Store) : (command.run context store).2 = store := by
  have hreads : (command.script context).Calls fun c => c.reads = true :=
    (script_calls context command).mono fun c hc => hc.reads h
  exact hreads.unchanged context.now store

theorem Step.Leaves.getElem?_run {step : Step} (h : step.Leaves key) (store : Store) :
    (step.run store).2.slots[key]? = store.slots[key]? := by
  obtain ⟨hfinalize, hreads | hkey⟩ := h
  · rw [Step.run, Command.run_reads hreads]
  · exact Command.getElem?_run_of_not_mem hfinalize hkey

theorem getElem?_runAll_of_leaves {steps : List Step} (h : ∀ step ∈ steps, step.Leaves key)
    (store : Store) : (runAll steps store).2.slots[key]? = store.slots[key]? := by
  induction steps generalizing store with
  | nil => rfl
  | cons step rest ih =>
    obtain ⟨hstep, hrest⟩ := List.forall_mem_cons.mp h
    rw [runAll_cons, ih hrest, hstep.getElem?_run]

/-! ## The start -/

namespace Store

theorem ticks_put (hopen : store.closed = false) (hahead : now < deadline) (item : Item) :
    (store.perform now (.put key item (some deadline))).2.Ticks now key deadline := by
  refine ⟨by rw [closed_perform (by simp), hopen], Slot.putItem item (some deadline)
    (store.live? now key), ?_, rfl⟩
  rw [live?_perform_self hopen rfl]
  exact Slot.live?_eq_some.mpr ⟨rfl, decide_eq_false (Nat.not_le.mpr hahead)⟩

/-- A deadline is put in place of another only where a key is live. -/
theorem ticks_setDeadline {version : Version} (hahead : now < deadline)
    (h : store.perform now (.setDeadline key (some deadline) version) = (.ok true, after)) :
    after.Ticks now key deadline := by
  cases hclosed : store.closed with
  | true =>
    rw [perform, revise_closed hclosed] at h
    cases h
  | false =>
    have hanswer : (store.perform now (.setDeadline key (some deadline) version)).1 = .ok true :=
      congrArg Prod.fst h
    cases hlive : store.live? now key with
    | none =>
      rw [perform, fst_revise hclosed, hlive] at hanswer
      cases hanswer
    | some slot =>
      have hafter : (store.perform now (.setDeadline key (some deadline) version)).2 = after :=
        congrArg Prod.snd h
      rw [← hafter]
      refine ⟨by rw [closed_perform (by simp), hclosed], slot.reschedule (some deadline) version,
        ?_, rfl⟩
      rw [live?_perform_self hclosed rfl, hlive]
      exact Slot.live?_eq_some.mpr ⟨rfl, decide_eq_false (Nat.not_le.mpr hahead)⟩

end Store

/-- Writing a string with a deadline that has not passed. -/
def Call.PutsTimed (now : Millis) (key : Bytes) (c : Call) : Prop :=
  ∃ item deadline, c = .put key item (some deadline) ∧ now < deadline

theorem Store.ticks_of_putsTimed {c : Call} (hc : c.PutsTimed now key) {answer : c.Answer}
    (h : store.perform now c = (.ok answer, after)) : ∃ deadline, after.Ticks now key deadline := by
  obtain ⟨item, deadline, rfl, hahead⟩ := hc
  have hafter : (store.perform now (.put key item (some deadline))).2 = after := congrArg Prod.snd h
  cases hclosed : store.closed with
  | true =>
    rw [perform, revise_closed hclosed] at h
    cases h
  | false => exact ⟨deadline, hafter ▸ ticks_put hclosed hahead item⟩

namespace Command

/-- The commands that give a key a time to live. -/
inductive SetsTime (key : Bytes) : Command → Prop where
  | setEx (item : Item) (seconds : Nat) : SetsTime key (setEx key item seconds)
  | setWith (item : Item) (terms : Terms) {tokens : List String} {amount : Nat} {unit : TtlUnit}
      {presence : Presence} (h : SetOptions.Reads tokens ⟨some (amount, unit), presence⟩) :
      SetsTime key (setWith key item terms tokens)
  | expire (amount : Nat) (unit : TtlUnit) (version : Version) :
      SetsTime key (expire key amount unit version)

end Command

namespace Strings

variable {item : Item} {terms : Terms}

/-- A write with a time to live puts its string with a deadline that has not passed. -/
theorem commits_timed (hnow : context.now < horizon) {mode : WriteMode}
    (hmode : mode.appliesDeadline = true) (amount : Nat) (unit : TtlUnit) (version : Version)
    (expected : Option Version) :
    (Strings.store key item ⟨expected, context.deadline amount unit version⟩ mode).Commits
      (Call.PutsTimed context.now key) (· ≠ .ok) := by
  have hahead := Context.lt_deadline hnow amount unit version
  refine commits_store ⟨item, context.deadline amount unit version, ?_, hahead⟩
  rw [WriteMode.deadline, if_pos hmode, Terms.deadline, if_neg (Nat.ne_zero_of_lt hahead)]

theorem commits_setFor_timed (hnow : context.now < horizon) (seconds : Nat) :
    (setFor context key item seconds).Commits (Call.PutsTimed context.now key) (· ≠ .ok) :=
  .bind_of_asks (asks_requireVersion common_ne_ok.error) fun _ =>
    commits_timed hnow rfl seconds .seconds item.version none

theorem commits_setWith_timed (hnow : context.now < horizon) {tokens : List String} {amount : Nat}
    {unit : TtlUnit} {presence : Presence}
    (h : SetOptions.Reads tokens ⟨some (amount, unit), presence⟩) :
    (setWith context key item terms tokens).Commits (Call.PutsTimed context.now key)
      (· ≠ .ok) := by
  refine .bind_of_asks (asks_requireVersion common_ne_ok.error) fun _ => ?_
  rw [SetOptions.ofTokens?_eq_some.mpr h]
  dsimp only
  split
  · have hpresent : (requireRecord key).Asks (· ≠ .ok) :=
      asks_requireRecord common_ne_ok (by decide)
    exact .bind_of_asks hpresent.discard fun _ =>
      commits_timed hnow rfl amount unit item.version terms.expected
  · exact commits_timed hnow rfl amount unit item.version terms.expected

end Strings

/-- A key is not given a time to live, or it has one then and has not passed its deadline. -/
theorem Keys.expire_cases (hnow : context.now < horizon) (key : Bytes) (amount : Nat)
    (unit : TtlUnit) (version : Version) (store : Store) :
    let run := (expire context key amount unit version).on context.now store
    (∃ reason, reason ≠ .ok ∧ run.1 = .error reason) ∨
      run.1 = .ok () ∧ run.2.Ticks context.now key (context.deadline amount unit version) := by
  intro run
  have hahead := Context.lt_deadline hnow amount unit version
  have hcheck : (requireChangeable key version).Asks (· ≠ .ok) := by
    refine .bind (asks_requireRecord common_ne_ok (by decide)) fun record => ?_
    split
    · exact .refuse (by decide)
    · exact .done record
  have hrun : run = ((discard (requireChangeable key version)).bind fun _ => reschedule key
      (some (context.deadline amount unit version)) version).on context.now store := rfl
  -- the check has made no change, and no key is live if the answer is `false`
  rcases hcheck.discard.run_cases context.now store with
    ⟨_, hchecked⟩ | ⟨reason, hreason, hrefused⟩
  · rw [hrun, Script.on_bind_ok hchecked, reschedule, Script.bind_eq, Script.on_bind,
      Script.on_query]
    cases hset : store.perform context.now
        (.setDeadline key (some (context.deadline amount unit version)) version) with
    | mk answer after =>
      rcases answer with failure | (_ | _)
      · exact .inl ⟨failure.status, common_ne_ok.failure failure, rfl⟩
      · exact .inl ⟨.notExist, by decide, rfl⟩
      · exact .inr ⟨rfl, Store.ticks_setDeadline hahead hset⟩
  · rw [hrun, Script.on_bind_error hrefused]
    exact .inl ⟨reason, hreason, rfl⟩

namespace Command

variable {command : Command}

theorem ticks_of_commits
    (hcommits : (command.script context).Commits (Call.PutsTimed context.now key) (· ≠ .ok))
    (hok : (command.run context store).1.status = .ok) :
    ∃ deadline, (command.run context store).2.Ticks context.now key deadline := by
  rw [run_eq] at hok ⊢
  cases hrun : (command.script context).on context.now store with
  | mk ending after =>
    rw [hrun] at hok
    cases ending with
    | ok reply =>
      obtain ⟨c, answer, hc, hperform⟩ := hcommits.run_ok hrun
      exact Store.ticks_of_putsTimed hc hperform
    | error status => exact absurd hok (hcommits.run_error hrun)

/-- A command that gives a key a time to live leaves it live, if it succeeds. -/
theorem SetsTime.ticks (h : command.SetsTime key) (hnow : context.now < horizon)
    (hok : (command.run context store).1.status = .ok) :
    ∃ deadline, (command.run context store).2.Ticks context.now key deadline := by
  cases h with
  | setEx item seconds =>
    exact ticks_of_commits ((Strings.commits_setFor_timed hnow seconds).map _) hok
  | setWith item terms h =>
    exact ticks_of_commits ((Strings.commits_setWith_timed hnow h).map _) hok
  | expire amount unit version =>
    have hrun : (Command.expire key amount unit version).run context store = _ :=
      run_of_reply (by rfl) store
    rw [hrun] at hok ⊢
    rcases Keys.expire_cases hnow key amount unit version store with
      ⟨reason, hreason, hrefused⟩ | ⟨_, hticks⟩
    · rw [hrefused] at hok
      exact absurd hok hreason
    · exact ⟨_, hticks⟩

end Command

/-! ## The whole course -/

section Course

variable {slot : Slot} {steps : List Step} (hslot : store.slots[key]? = some slot)
  (hdeadline : slot.deadline = some deadline) (hsteps : ∀ step ∈ steps, step.Leaves key)

include hslot hdeadline hsteps

/-- As long as its deadline is ahead, a key that is left alone ticks. -/
theorem Store.ticks_runAll (h : store.Reachable) (hahead : now < deadline) :
    (runAll steps store).2.Ticks now key deadline := by
  have hkept := (getElem?_runAll_of_leaves hsteps store).trans hslot
  have hlive : (runAll steps store).2.live? now key = some slot := by
    rw [Store.live?_of_deadline hkept hdeadline, if_neg (Nat.not_le.mpr hahead)]
  exact ⟨(h.runAll steps).open_of_live hlive, slot, hlive, hdeadline⟩

/-- Once its deadline has passed, a key that is left alone is the same as none. -/
theorem alike_runAll (hpassed : deadline ≤ now) :
    (runAll steps store).2.Alike now ((runAll steps store).2.replace key none) :=
  Store.alike_expired ((getElem?_runAll_of_leaves hsteps store).trans hslot) hdeadline hpassed

end Course

/-- A clock that never goes back reads no less later on. -/
theorem now_le_of_le {start : Millis} {steps : List Step}
    (hclock : (start :: steps.map Step.now).Pairwise (· ≤ ·)) {i j : Nat} {first later : Step}
    (hle : i ≤ j) (hfirst : steps[i]? = some first) (hlater : steps[j]? = some later) :
    first.now ≤ later.now := by
  obtain ⟨hi, rfl⟩ := List.getElem?_eq_some_iff.mp hfirst
  obtain ⟨hj, rfl⟩ := List.getElem?_eq_some_iff.mp hlater
  have hordered := List.pairwise_iff_getElem.mp
    (List.pairwise_map.mp (List.pairwise_cons.mp hclock).2)
  rcases Nat.lt_or_eq_of_le hle with hlt | rfl
  · exact hordered i j hi hj hlt
  · exact Nat.le_refl _

/-- A key counts down to exactly its deadline and never comes back by itself.  While commands
run that only read or do not name the key, and the clock does not go back, the key has as many
milliseconds left as there are until the deadline, and as many seconds, rounded up.  From the
deadline on every command replies as if there were no such key, except for the one that lists
the leftovers.  And a command that has given a key a time to live, whatever it is, leaves the
key live at that moment, with a millisecond left at least. -/
theorem counts_down_to_deadline (h : store.Reachable) (key : Bytes) :
    (∀ {start deadline : Millis} {slot : Slot} {steps : List Step},
      store.live? start key = some slot → slot.deadline = some deadline →
      (start :: steps.map Step.now).Pairwise (· ≤ ·) →
      (∀ step ∈ steps, step.command ≠ .finalize ∧
        (step.command.reads = true ∨ key ∉ step.command.keys)) →
      let replies := (runAll steps store).1
      (∀ (i : Nat) (context : Context) (command : Command),
        steps[i]? = some ⟨context, command⟩ → context.now < deadline →
        0 < deadline - context.now ∧
        (command = .pttl key → replies[i]? = some ⟨.ok, .count (deadline - context.now)⟩) ∧
        (command = .ttl key → ∃ seconds, replies[i]? = some ⟨.ok, .count seconds⟩ ∧
          deadline - context.now ≤ 1000 * seconds ∧
          1000 * seconds < deadline - context.now + 1000)) ∧
      (∀ (i j : Nat) (first later : Context), i ≤ j → steps[i]? = some ⟨first, .pttl key⟩ →
        steps[j]? = some ⟨later, .pttl key⟩ → later.now < deadline →
        ∃ most least, least ≤ most ∧ replies[i]? = some ⟨.ok, .count most⟩ ∧
          replies[j]? = some ⟨.ok, .count least⟩) ∧
      ∀ (i j : Nat) (first step : Step), i ≤ j → steps[i]? = some first → deadline ≤ first.now →
        steps[j]? = some step →
        let before := (runAll (steps.take j) store).2
        before.live? step.now key = none ∧
          ((∀ instant limit, step.command ≠ .fetchExpired instant limit) →
            replies[j]? = some (step.run (before.replace key none)).1)) ∧
    ∀ {command : Command} {context : Context}, command.SetsTime key →
      context.now < UInt64.size - 1 → (command.run context store).1.status = .ok →
      let after := (command.run context store).2
      ∃ slot left, after.live? context.now key = some slot ∧ 1 ≤ left ∧
        (Command.pttl key).run context after = (⟨.ok, .count left⟩, after) := by
  refine ⟨fun {start deadline slot steps} hlive hdeadline hclock hsteps => ?_, ?_⟩
  · intro replies
    have hslot := (Store.live?_eq_some.mp hlive).1
    -- at every moment the slot is the one of the start, and only the clock decides
    have hbefore : ∀ i, ∀ step ∈ steps.take i, step.Leaves key :=
      fun i step hstep => hsteps step (List.mem_of_mem_take hstep)
    have hreply : ∀ {i : Nat} {step : Step}, steps[i]? = some step →
        replies[i]? = some (step.run (runAll (steps.take i) store).2).1 := by
      intro i step hstep
      rw [getElem?_fst_runAll, hstep, Option.map_some]
    have hticks : ∀ i {now : Millis}, now < deadline →
        (runAll (steps.take i) store).2.Ticks now key deadline :=
      fun i _ hahead => Store.ticks_runAll hslot hdeadline (hbefore i) h hahead
    refine ⟨fun i context command hstep hahead => ⟨Nat.sub_pos_of_lt hahead, ?_, ?_⟩, ?_, ?_⟩
    · rintro rfl
      rw [hreply hstep, Step.run, (hticks i hahead).run_pttl]
    · rintro rfl
      obtain ⟨seconds, hrun, hceil⟩ := (hticks i hahead).run_ttl
      refine ⟨seconds, ?_, hceil⟩
      rw [hreply hstep, Step.run, hrun]
    · intro i j first later hle hfirst hlater hahead
      have hnow : first.now ≤ later.now := now_le_of_le hclock hle hfirst hlater
      refine ⟨deadline - first.now, deadline - later.now, Nat.sub_le_sub_left hnow deadline, ?_, ?_⟩
      · rw [hreply hfirst, Step.run, (hticks i (Nat.lt_of_le_of_lt hnow hahead)).run_pttl]
      · rw [hreply hlater, Step.run, (hticks j hahead).run_pttl]
    · intro i j first step hle hfirst hpassed hstep before
      have hnow : deadline ≤ step.now :=
        Nat.le_trans hpassed (now_le_of_le hclock hle hfirst hstep)
      have halike := alike_runAll hslot hdeadline (hbefore j) hnow
      refine ⟨?_, fun hfetch => ?_⟩
      · rw [halike.live, Store.live?_replace, if_pos rfl, Slot.live?_none]
      · rw [hreply hstep]
        exact congrArg some (Command.reply_eq hfetch halike)
  · intro command context hcommand hnow hok after
    obtain ⟨deadline, hticks⟩ := hcommand.ticks hnow hok
    obtain ⟨slot, hlive, _⟩ := hticks.live
    exact ⟨slot, deadline - context.now, hlive, Nat.sub_pos_of_lt hticks.now_lt, hticks.run_pttl⟩

/-- A key with 2500 milliseconds left, while another key is written: it has 3 seconds left
then, and a millisecond before the end; then it is gone.  And a key that is given no time at
all has a millisecond left. -/
theorem counts_down_to_deadline_short :
    let early : Context := ⟨⟨5000000⟩, .absolute⟩
    let late : Context := ⟨⟨7499000⟩, .absolute⟩
    let past : Context := ⟨⟨7500000⟩, .absolute⟩
    let store := (Store.empty.perform 0 (.put [107] ⟨[97], 9⟩ (some 7500))).2
    let steps : List Step := [⟨early, .pttl [107]⟩, ⟨early, .ttl [107]⟩,
      ⟨early, .set [108] ⟨[98], 1⟩ {} {}⟩, ⟨late, .pttl [107]⟩, ⟨past, .get [107]⟩]
    let replies := (runAll steps store).1
    let again := ((Command.setEx [107] ⟨[99], 10⟩ 0).run early store).2
    store.Reachable ∧ replies[0]? = some ⟨.ok, .count 2500⟩ ∧
      replies[1]? = some ⟨.ok, .count 3⟩ ∧ replies[3]? = some ⟨.ok, .count 1⟩ ∧
      replies[4]? = some ⟨.notExist, .item .empty⟩ ∧
      ∃ slot left, again.live? early.now [107] = some slot ∧ 1 ≤ left ∧
        (Command.pttl [107]).run early again = (⟨.ok, .count left⟩, again) := by
  intro early late past store steps replies again
  have hearly : early.now = 5000 := by decide +kernel
  have hlate : late.now = 7499 := by decide +kernel
  have hpast : past.now = 7500 := by decide +kernel
  have hreachable : store.Reachable := Store.Reachable.empty.perform 0 _
  have hslot : store.live? 5000 [107] = some ⟨.string ⟨[97], 9⟩, 9, some 7500⟩ := rfl
  have hclock : (5000 :: steps.map Step.now).Pairwise (· ≤ ·) := by decide +kernel
  have hsteps : ∀ step ∈ steps, step.command ≠ .finalize ∧
      (step.command.reads = true ∨ ([107] : Bytes) ∉ step.command.keys) := by
    simp only [steps, List.forall_mem_cons]
    exact ⟨⟨nofun, .inl rfl⟩, ⟨nofun, .inl rfl⟩, ⟨nofun, .inr (by decide)⟩, ⟨nofun, .inl rfl⟩,
      ⟨nofun, .inl rfl⟩, nofun⟩
  have hok : ((Command.setEx [107] ⟨[99], 10⟩ 0).run early store).1.status = .ok := by
    decide +kernel
  obtain ⟨hcourse, hstart⟩ := counts_down_to_deadline hreachable [107]
  obtain ⟨hbefore, _, hafter⟩ := hcourse hslot rfl hclock hsteps
  have hahead : early.now < 7500 := by rw [hearly]; decide
  have hlast : late.now < 7500 := by rw [hlate]; decide
  refine ⟨hreachable, ?_, ?_, ?_, ?_, ?_⟩
  · have hreply := (hbefore 0 early _ rfl hahead).2.1 rfl
    rw [hearly] at hreply
    exact hreply
  · obtain ⟨seconds, hreply, hleast, hmost⟩ := (hbefore 1 early _ rfl hahead).2.2 rfl
    rw [hearly] at hleast hmost
    have hleast : (2500 : Nat) ≤ 1000 * seconds := hleast
    have hmost : 1000 * seconds < (3500 : Nat) := hmost
    have hseconds : seconds = 3 := by omega
    rw [hseconds] at hreply
    exact hreply
  · have hreply := (hbefore 3 late _ rfl hlast).2.1 rfl
    rw [hlate] at hreply
    exact hreply
  · have hreply := (hafter 4 4 ⟨past, .get [107]⟩ _ (Nat.le_refl 4) rfl (Nat.le_of_eq hpast.symm)
      rfl).2 nofun
    exact hreply.trans (by decide +kernel)
  · exact hstart (.setEx ⟨[99], 10⟩ 0) (by decide +kernel) hok

end Keyspace
