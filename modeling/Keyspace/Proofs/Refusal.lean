import Keyspace.Proofs.Admission
import Keyspace.Proofs.Coherence
import Keyspace.Proofs.Commit

/-!
# Refused commands

A command that writes one part of one key leaves the store exactly as it was
unless it reports success, whatever faults are armed.  A fault can fail a call or
lie about it, so a command may go on where it should have stopped.  What keeps
the store safe is that such a command writes last and once: if that call fails
the store is as it was, and if it succeeds so does the command.

There are five groups.

* Calls.  A call that fails leaves the store as it was
  (`Store.perform_of_error`), and so does one that answers that there was nothing
  to do where the key is known to be live (`Store.dropByScore_zero`).
* Faults.  `Store.Answers` says what a store with faults may do with a call,
  whatever the schedule.
* Scripts.  `Script.Finds` says of a script that only reads what holds of its
  results in spite of faults, and `Script.Atomic` that a script changes nothing if
  it is refused.  `Script.Atomic.run` is the induction over the run.
* Checks.  No fault makes up the record of a key (`finds_checkCurrent`), so a
  command that can be refused after its writing call knows that its key is live.
* Commands.  `Command.runFaulty_refused` is the result.
-/

namespace Keyspace

/-! ## Calls -/

/-- A removal by score that finds nobody keeps the slot as it is. -/
theorem Slot.kept_of_dropByScore_zero {slot : Slot} {slot? : Option Slot} {low high : Int64}
    {version : Version} (hfilled : slot.content.isEmpty = false)
    (h : dropByScore low high version (some slot) = .ok (0, slot?)) : slot? = some slot := by
  cases hranking : slot.zset with
  | error failure =>
    rw [dropByScore, hranking] at h
    cases h
  | ok ranking =>
    have hcontent := zset_eq_ok hranking
    simp only [dropByScore, hranking, bind, Except.bind, pure, Except.pure, Except.ok.injEq,
      Prod.mk.injEq, List.length_eq_zero_iff] at h
    obtain ⟨hnobody, hkept⟩ := h
    rw [hnobody, List.foldl_nil, List.isEmpty_nil, if_pos rfl, ← hcontent, unlessEmpty, hfilled,
      if_neg Bool.false_ne_true] at hkept
    exact hkept.symm

namespace Store

variable {store : Store} {now : Millis} {key : Bytes} {slot : Slot} {c : Call} {failure : Failure}

/-- A live slot is no leftover to be dropped. -/
theorem sweep_of_live (h : store.live? now key = some slot) : store.sweep now key = store := by
  obtain ⟨hslot, hlive⟩ := live?_eq_some.mp h
  rw [sweep, hslot]
  dsimp only
  rw [hlive, if_neg Bool.false_ne_true]

/-- To put a slot where it is changes nothing. -/
theorem replace_self (h : store.slots[key]? = some slot) :
    store.replace key (some slot) = store := by
  have hslots : store.slots.insert key slot = store.slots := by
    apply Std.ExtTreeMap.ext_getElem?
    intro other
    rw [Std.ExtTreeMap.getElem?_insert]
    split
    · rename_i hsame
      rw [← Std.LawfulEqOrd.compare_eq_iff_eq.mp hsame, h]
    · rfl
  have hagenda : store.agenda.move key slot.deadline slot.deadline = store.agenda := if_pos rfl
  rw [replace, h]
  show { store with
    slots := store.slots.insert key slot
    agenda := store.agenda.move key slot.deadline slot.deadline } = store
  rw [hslots, hagenda]

/-- A change that fails leaves the store as it was, if it never fails where there
is no slot: only such a slot could have been an expired one. -/
theorem revise_of_error {α : Type} {change : Option Slot → Except Failure (α × Option Slot)}
    (hnone : ∀ failure, change none ≠ .error failure)
    (h : (store.revise now key change).1 = .error failure) :
    (store.revise now key change).2 = store := by
  cases hclosed : store.closed with
  | true => rw [revise_closed hclosed]
  | false =>
    rw [revise_open hclosed] at h ⊢
    cases hchange : change (store.live? now key) with
    | ok result =>
      rw [hchange] at h
      cases h
    | error reason =>
      cases hslot : store.live? now key with
      | none =>
        rw [hslot] at hchange
        exact absurd hchange (hnone reason)
      | some slot => exact sweep_of_live hslot

/-- A call that fails leaves the store as it was. -/
theorem perform_of_error (h : (store.perform now c).1 = .error failure) :
    (store.perform now c).2 = store := by
  cases hreads : c.reads with
  | true => exact perform_of_reads hreads
  | false =>
    cases c with
    | close =>
      rw [perform, close] at h ⊢
      split at h
      · rename_i hclosed
        rw [if_pos hclosed]
      · cases h
    | delete =>
      rw [perform, delete] at h ⊢
      split at h
      · rename_i hclosed
        rw [if_pos hclosed]
      · cases h
    | dropByScore =>
      rw [perform] at h ⊢
      split
      · rfl
      · rename_i hrange
        rw [if_neg hrange] at h
        exact revise_of_error (by intro failure; simp [Slot.dropByScore]) h
    | setDeadline => exact revise_of_error (by intro failure; simp) h
    | put => exact revise_of_error (by intro failure; simp) h
    | putField => exact revise_of_error (by intro failure; simp [Slot.putField]) h
    | dropField => exact revise_of_error (by intro failure; simp [Slot.dropField]) h
    | addMember => exact revise_of_error (by intro failure; simp [Slot.addMember]) h
    | dropMember => exact revise_of_error (by intro failure; simp [Slot.dropMember]) h
    | putScore => exact revise_of_error (by intro failure; simp [Slot.putScore]) h
    | dropScore => exact revise_of_error (by intro failure; simp [Slot.dropScore]) h
    | _ => cases hreads

/-- A removal by score that finds nobody in a live sorted set changes nothing. -/
theorem dropByScore_zero (hsound : store.Sound) (hslot : store.live? now key = some slot)
    {low high : Int64} {version : Version}
    (h : (store.perform now (.dropByScore key low high version)).1 = .ok (0 : Nat)) :
    (store.perform now (.dropByScore key low high version)).2 = store := by
  have hstored := (live?_eq_some.mp hslot).1
  have hfilled := (hsound key slot hstored).filled
  rw [perform] at h ⊢
  split
  · rfl
  · rename_i hrange
    rw [if_neg hrange] at h
    cases hclosed : store.closed with
    | true => rw [revise_closed hclosed]
    | false =>
      rw [revise_open hclosed, hslot, sweep_of_live hslot] at h ⊢
      cases hchange : Slot.dropByScore low high version (some slot) with
      | error failure => rfl
      | ok result =>
        obtain ⟨removed, slot?⟩ := result
        rw [hchange] at h
        cases h
        rw [Slot.kept_of_dropByScore_zero hfilled hchange]
        exact replace_self hstored

end Store

/-! ## Faults -/

/-- What a store with faults may do with a call: answer it, fail it, or lie about
it without looking. -/
inductive Store.Answers (now : Millis) (store : Store) (c : Call) :
    Except Failure c.Answer → Store → Prop where
  | passed : Answers now store c (store.perform now c).1 (store.perform now c).2
  | failed (failure : Failure) : Answers now store c (.error failure) store
  | absent : Answers now store c (.ok c.absent) store

namespace Store.Answers

variable {now : Millis} {store after : Store} {c : Call} {answer : Except Failure c.Answer}

theorem of_reads (h : store.Answers now c answer after) (hc : c.reads = true) : after = store := by
  cases h with
  | passed => exact perform_of_reads hc
  | failed => rfl
  | absent => rfl

theorem of_error {failure : Failure} (h : store.Answers now c (.error failure) after) :
    after = store := by
  generalize hanswer : (Except.error failure : Except Failure c.Answer) = answer at h
  cases h with
  | passed => exact perform_of_error hanswer.symm
  | failed => rfl
  | absent => rfl

/-- Faults or not, a call leaves the slots of other keys as they are. -/
theorem getElem?_of_ne {key : Bytes} (h : store.Answers now c answer after) (hc : c ≠ .close)
    (hkey : c.key? ≠ some key) : after.slots[key]? = store.slots[key]? := by
  cases h with
  | passed => exact getElem?_perform_of_ne hc hkey
  | failed => rfl
  | absent => rfl

/-- The deadline of a live key stays as it was only because of a fault. -/
theorem of_setDeadline_false {key : Bytes} {slot : Slot} {deadline : Option Millis}
    {version : Version} (hslot : store.live? now key = some slot)
    (h : store.Answers now (.setDeadline key deadline version) (.ok false) after) :
    after = store := by
  generalize hanswer : (Except.ok false :
    Except Failure (Call.setDeadline key deadline version).Answer) = answer at h
  cases h with
  | failed => rfl
  | absent => rfl
  | passed =>
    cases hclosed : store.closed with
    | true => exact perform_closed hclosed _
    | false =>
      rw [fst_setDeadline hclosed hslot] at hanswer
      cases hanswer

/-- A removal by score that finds nobody in a live sorted set changes nothing,
faults or not. -/
theorem of_dropByScore_zero {key : Bytes} {slot : Slot} {low high : Int64} {version : Version}
    (hsound : store.Sound) (hslot : store.live? now key = some slot)
    (h : store.Answers now (.dropByScore key low high version) (.ok (0 : Nat)) after) :
    after = store := by
  generalize hanswer : (Except.ok (0 : Nat) :
    Except Failure (Call.dropByScore key low high version).Answer) = answer at h
  cases h with
  | failed => rfl
  | absent => rfl
  | passed => exact dropByScore_zero hsound hslot hanswer.symm

end Store.Answers

/-- Whatever the faults are, they can do no more with a call. -/
theorem FaultyStore.answers (now : Millis) (faulty : FaultyStore) (c : Call) :
    faulty.store.Answers now c (faulty.perform now c).1 (faulty.perform now c).2.store := by
  unfold perform
  split
  · exact .passed
  · exact .failed _
  · exact .absent

/-! ## Scripts -/

namespace Script

variable {ε α β : Type} {now : Millis} {store : Store}

/-- The script only reads, and `found` holds of its results in spite of faults. -/
inductive Finds (now : Millis) (store : Store) (found : α → Prop) : Script ε α → Prop where
  | done {result : α} (h : found result) : Finds now store found (done result)
  | refuse (reason : ε) : Finds now store found (refuse reason)
  | read {c : Call} {next : Except Failure c.Answer → Script ε α} (hc : c.reads = true)
      (hnext : ∀ answer, store.Answers now c answer store → Finds now store found (next answer)) :
      Finds now store found (call c next)

namespace Finds

variable {found : α → Prop} {seen : β → Prop}

theorem bind {script : Script ε α} {rest : α → Script ε β} (h : script.Finds now store found)
    (hrest : ∀ result, found result → (rest result).Finds now store seen) :
    (script.bind rest).Finds now store seen := by
  induction h with
  | done hresult => exact hrest _ hresult
  | refuse reason => exact .refuse reason
  | read hc _ ih => exact .read hc ih

end Finds

/-- A script that only reads has some result. -/
theorem Asks.finds {Q : ε → Prop} {script : Script ε α} (h : script.Asks Q) :
    script.Finds now store fun _ => True := by
  induction h with
  | done result => exact .done trivial
  | refuse _ => exact .refuse _
  | call hc _ ih => exact .read hc fun answer _ => ih answer

/-- The script only reads until its last call, and if that does not lead to a
result it has changed nothing. -/
inductive Atomic (now : Millis) (store : Store) : Script ε α → Prop where
  | refuse (reason : ε) : Atomic now store (refuse reason)
  | read {c : Call} {next : Except Failure c.Answer → Script ε α} (hc : c.reads = true)
      (hnext : ∀ answer, store.Answers now c answer store → Atomic now store (next answer)) :
      Atomic now store (call c next)
  | write {c : Call} {next : Except Failure c.Answer → Script ε α}
      (hnext : ∀ answer after, store.Answers now c answer after →
        (∃ result, next answer = .done result) ∨
          (∃ reason, next answer = .refuse reason) ∧ after = store) :
      Atomic now store (call c next)

namespace Atomic

theorem bind_of_finds {found : α → Prop} {script : Script ε α} {rest : α → Script ε β}
    (h : script.Finds now store found)
    (hrest : ∀ result, found result → (rest result).Atomic now store) :
    (script.bind rest).Atomic now store := by
  induction h with
  | done hresult => exact hrest _ hresult
  | refuse reason => exact .refuse reason
  | read hc _ ih => exact .read hc ih

/-- A script that makes one writing call and succeeds if that does changes
nothing if it is refused. -/
theorem of_commits {P : Call → Prop} {Q : ε → Prop} {script : Script ε α}
    (h : script.Commits P Q) : script.Atomic now store := by
  induction h with
  | refuse _ => exact .refuse _
  | read hc _ ih => exact .read hc fun answer _ => ih answer
  | write hc herror hok =>
    apply write
    intro answer after hanswer
    cases answer with
    | error failure =>
      obtain ⟨reason, _, hnext⟩ := herror failure
      exact .inr ⟨⟨reason, hnext⟩, hanswer.of_error⟩
    | ok answer => exact .inl (hok answer)

/-- A refused run against faults leaves the store as it was. -/
theorem run {script : Script ε α} (h : script.Atomic now store) {faulty : FaultyStore}
    (hstore : faulty.store = store) {reason : ε}
    (hrun : (script.run (FaultyStore.perform now) faulty).1 = .error reason) :
    (script.run (FaultyStore.perform now) faulty).2.store = store := by
  induction h generalizing faulty with
  | refuse _ => exact hstore
  | @read c next hc _ ih =>
    have hanswers := faulty.answers now c
    rw [hstore] at hanswers
    have hsame := hanswers.of_reads hc
    rw [hsame] at hanswers
    exact ih _ hanswers hsame hrun
  | @write c next hnext =>
    have hanswers := faulty.answers now c
    rw [hstore] at hanswers
    rw [Script.run] at hrun ⊢
    rcases hnext _ _ hanswers with ⟨result, hdone⟩ | ⟨⟨other, hrefuse⟩, hsame⟩
    · rw [hdone] at hrun
      cases hrun
    · rw [hrefuse]
      exact hsame

end Atomic

/-- A script that only reads changes nothing, whatever the faults are. -/
theorem Calls.unchanged_faulty {script : Script ε α} (h : script.Calls fun c => c.reads = true)
    (now : Millis) (faulty : FaultyStore) :
    (script.run (FaultyStore.perform now) faulty).2.store = faulty.store := by
  have hstep : ∀ c : Call, c.reads = true → ∀ other : FaultyStore, other.store = faulty.store →
      (other.perform now c).2.store = faulty.store := by
    intro c hc other hother
    rw [(other.answers now c).of_reads hc, hother]
  exact preserves hstep h rfl

end Script

variable {now : Millis} {store : Store} {key : Bytes} {terms : Terms} {kind : Kind}
  {version : Version}

/-! ## Checks -/

/-- Whether a record is that of a key that is live. -/
def Store.Shows (store : Store) (now : Millis) (key : Bytes) (record : Record) : Prop :=
  ∃ slot, store.live? now key = some slot ∧ slot.record = record

/-- No fault makes up a record: the one that is found is that of a live key. -/
theorem finds_query_record :
    (query (.record key)).Finds now store fun found =>
      ∀ record, found = some record → store.Shows now key record := by
  refine .read rfl fun answer hanswer => ?_
  cases hanswer with
  | failed failure => exact .refuse _
  | absent => exact .done nofun
  | passed =>
    cases hclosed : store.closed with
    | true =>
      rw [Store.perform_record, Store.record_closed hclosed]
      exact .refuse _
    | false =>
      rw [Store.perform_record, Store.record_open hclosed]
      refine .done fun record hrecord => ?_
      obtain ⟨slot, hslot, hsame⟩ := Option.map_eq_some_iff.mp hrecord
      exact ⟨slot, hslot, hsame⟩

theorem finds_requireRecord :
    (requireRecord key).Finds now store (store.Shows now key) := by
  refine finds_query_record.bind fun found hfound => ?_
  cases found with
  | none => exact .refuse _
  | some record => exact .done (hfound record rfl)

theorem finds_checkCurrent :
    (checkCurrent key terms kind version).Finds now store (store.Shows now key) := by
  have hterms : (checkTerms key terms).Finds now store fun found =>
      ∀ record, found = some record → store.Shows now key record := by
    refine finds_query_record.bind fun found hfound => ?_
    split
    · exact .done hfound
    · exact .refuse _
  have hkind : (checkKind key terms kind).Finds now store fun found =>
      ∀ record, found = some record → store.Shows now key record := by
    refine hterms.bind fun found hfound => ?_
    split
    · exact .done hfound
    · exact .refuse _
  have hexisting : (checkExisting key terms kind).Finds now store (store.Shows now key) := by
    refine hkind.bind fun found hfound => ?_
    cases found with
    | none => exact .refuse _
    | some record => exact .done (hfound record rfl)
  refine hexisting.bind fun record hrecord => ?_
  have hcurrent : (requireCurrent record.version version).Asks fun _ => True :=
    asks_requireCurrent trivial record.version
  exact hcurrent.finds.bind fun _ _ => .done hrecord

namespace Keys

variable {context : Context}

theorem finds_requireChangeable :
    (requireChangeable key version).Finds now store (store.Shows now key) := by
  refine finds_requireRecord.bind fun record hrecord => ?_
  split
  · exact .refuse _
  · exact .done hrecord

/-- To replace the deadline of a live key fails, or is struck, or succeeds. -/
theorem atomic_reschedule {record : Record} (h : store.Shows now key record)
    (deadline : Option Millis) : (reschedule key deadline version).Atomic now store := by
  obtain ⟨slot, hslot, _⟩ := h
  apply Script.Atomic.write
  intro answer after hanswer
  cases answer with
  | error failure => exact .inr ⟨⟨failure.status, rfl⟩, hanswer.of_error⟩
  | ok changed =>
    cases changed with
    | true => exact .inl ⟨(), rfl⟩
    | false => exact .inr ⟨⟨.notExist, rfl⟩, hanswer.of_setDeadline_false hslot⟩

theorem atomic_expire (ttl : Nat) (unit : TtlUnit) :
    (expire context key ttl unit version).Atomic now store := by
  have hfinds : (discard (requireChangeable key version)).Finds now store fun _ =>
      ∃ record, store.Shows now key record :=
    finds_requireChangeable.bind fun record hrecord => .done ⟨record, hrecord⟩
  exact .bind_of_finds hfinds fun _ ⟨_, hrecord⟩ => atomic_reschedule hrecord _

theorem atomic_persist : (persist key version).Atomic now store := by
  refine .bind_of_finds finds_requireChangeable fun record hrecord => ?_
  split
  · exact .refuse _
  · exact atomic_reschedule hrecord none

end Keys

/-- To remove the members within bounds fails, or is struck, or finds nobody, or
succeeds. -/
theorem Rankings.atomic_dropByScore (hsound : store.Sound) (min max : String) :
    (dropByScore key min max version terms).Atomic now store := by
  have hversion : (requireVersion version).Asks fun _ => True := asks_requireVersion trivial
  have hbounds : (bounds min max).Asks fun _ => True :=
    .bind (.ofOption trivial _) fun low => .bind (.ofOption trivial _) fun high => .done _
  have hcheck : (discard (checkCurrent key terms .zset version)).Finds now store fun _ =>
      ∃ record, store.Shows now key record :=
    finds_checkCurrent.bind fun record hrecord => .done ⟨record, hrecord⟩
  refine .bind_of_finds hversion.finds fun _ _ => ?_
  refine .bind_of_finds hbounds.finds fun window _ => ?_
  refine .bind_of_finds hcheck fun _ ⟨_, slot, hslot, _⟩ => ?_
  apply Script.Atomic.write
  intro answer after hanswer
  cases answer with
  | error failure => exact .inr ⟨⟨failure.status, rfl⟩, hanswer.of_error⟩
  | ok removed =>
    by_cases hnobody : removed = (0 : Nat)
    · rw [hnobody] at hanswer ⊢
      exact .inr ⟨⟨.rangeEmpty, rfl⟩, hanswer.of_dropByScore_zero hsound hslot⟩
    · exact .inl ⟨removed, if_neg hnobody⟩

/-! ## Commands -/

namespace Command

variable {context : Context} {command : Command} {faulty : FaultyStore} {α : Type}

/-- Whether a command only reads. -/
def reads : Command → Bool
  | get _ | mget _ | hget .. | hmget .. | hexists .. | hlen _ | hgetall _ | hkeys _ | hvals _
  | smembers _ | scard _ | sismember .. | zcard _ | zscore .. | zcount .. | zrange ..
  | zrangeByScore .. | zrank .. | keyExists _ | ttl _ | pttl _ | keyType _ | keyVersion _
  | fetchExpired .. => true
  | _ => false

/-- Whether a command writes to one key by a single call. -/
def writesOnce : Command → Bool
  | set .. | setEx .. | setWith .. | getSet .. | incrBy .. | decrBy .. | hset .. | hincrBy ..
  | spop .. | zincrBy .. | zremRangeByScore .. | expire .. | persist .. => true
  | _ => false

/-- The calls of a reading command only read. -/
theorem Footprint.reads {c : Call} (h : command.Footprint c) (hcommand : command.reads = true) :
    c.reads = true := by
  cases command <;> cases hcommand <;> simp only [Footprint] at h <;> grind [Call.reads]

/-- The frame rule in spite of faults: a command leaves the slots of the keys that it
does not name as they are. -/
theorem getElem?_runFaulty_of_not_mem {key : Bytes} (hcommand : command ≠ .finalize)
    (hkey : key ∉ command.keys) :
    (command.runFaulty context faulty).2.store.slots[key]? = faulty.store.slots[key]? := by
  have hstep : ∀ c, command.Footprint c → ∀ other : FaultyStore,
      other.store.slots[key]? = faulty.store.slots[key]? →
      (other.perform context.now c).2.store.slots[key]? = faulty.store.slots[key]? := by
    intro c hc other hother
    have hclose : c ≠ .close := fun hsame => hcommand (Footprint.eq_finalize (hsame ▸ hc))
    have hne : c.key? ≠ some key := fun hsame => hkey (hc.key_mem hsame)
    rw [(other.answers context.now c).getElem?_of_ne hclose hne, hother]
  exact Script.Calls.preserves hstep (script_calls context command) rfl

/-- A command that answers with the result of a script and does not succeed has been
refused by it. -/
theorem refused_of_reply {script : Script Status α} {data : α → Data}
    (h : command.script context = reply script data)
    (hstatus : (command.runFaulty context faulty).1.status ≠ .ok) :
    (∃ reason, (script.run (FaultyStore.perform context.now) faulty).1 = .error reason) ∧
      (command.runFaulty context faulty).2 =
        (script.run (FaultyStore.perform context.now) faulty).2 := by
  rw [runFaulty, runBy_of_reply h] at hstatus ⊢
  cases hrun : (script.run (FaultyStore.perform context.now) faulty).1 with
  | ok result =>
    rw [hrun] at hstatus
    exact absurd rfl hstatus
  | error reason => exact ⟨⟨reason, rfl⟩, rfl⟩

/-- A command that answers with the result of an atomic script changes nothing
unless it succeeds. -/
theorem runFaulty_of_atomic {script : Script Status α} {data : α → Data}
    (h : command.script context = reply script data)
    (hatomic : script.Atomic context.now faulty.store)
    (hstatus : (command.runFaulty context faulty).1.status ≠ .ok) :
    (command.runFaulty context faulty).2.store = faulty.store := by
  obtain ⟨⟨reason, hrun⟩, hafter⟩ := refused_of_reply h hstatus
  rw [hafter]
  exact hatomic.run rfl hrun

/-- As `runFaulty_of_atomic`, for a script that makes one writing call and
succeeds if that does. -/
theorem runFaulty_of_commits {script : Script Status α} {data : α → Data}
    (h : command.script context = reply script data)
    (hcommits : script.Commits (fun _ => True) (· ≠ .ok))
    (hstatus : (command.runFaulty context faulty).1.status ≠ .ok) :
    (command.runFaulty context faulty).2.store = faulty.store :=
  runFaulty_of_atomic h (.of_commits hcommits) hstatus

/-- A command that is refused or fails leaves the store exactly as it was, with
its leftovers, whatever faults are armed, if it reads or writes to one key by a
single call. -/
theorem runFaulty_refused (h : Store.Reachable faulty.store)
    (hcommand : command.reads = true ∨ command.writesOnce = true)
    (hstatus : (command.runFaulty context faulty).1.status ≠ .ok) :
    (command.runFaulty context faulty).2.store = faulty.store := by
  have hsound := h.sound
  rcases hcommand with hreads | hwrites
  · have hcalls : (command.script context).Calls fun c => c.reads = true :=
      (script_calls context command).mono fun c hc => hc.reads hreads
    exact hcalls.unchanged_faulty context.now faulty
  · cases command with
    | set => exact runFaulty_of_commits rfl (Strings.commits_set trivial) hstatus
    | setEx =>
      exact runFaulty_of_commits rfl (Strings.commits_setFor (fun _ => trivial) _) hstatus
    | setWith =>
      exact runFaulty_of_commits rfl (Strings.commits_setWith (fun _ => trivial) _) hstatus
    | getSet =>
      exact runFaulty_of_commits rfl (Strings.commits_exchange fun _ => trivial) hstatus
    | incrBy =>
      exact runFaulty_of_commits rfl (Strings.commits_add (fun _ _ => trivial) _) hstatus
    | decrBy =>
      exact runFaulty_of_commits rfl (Strings.commits_subtract (fun _ _ => trivial) _) hstatus
    | hset => exact runFaulty_of_commits rfl (Hashes.commits_put trivial) hstatus
    | hincrBy =>
      exact runFaulty_of_commits rfl (Hashes.commits_add (fun _ => trivial) _) hstatus
    | spop => exact runFaulty_of_commits rfl (Sets.commits_pop fun _ => trivial) hstatus
    | zincrBy =>
      exact runFaulty_of_commits rfl (Rankings.commits_add (fun _ => trivial) _) hstatus
    | zremRangeByScore =>
      exact runFaulty_of_atomic rfl (Rankings.atomic_dropByScore hsound _ _) hstatus
    | expire => exact runFaulty_of_atomic rfl (Keys.atomic_expire _ _) hstatus
    | persist => exact runFaulty_of_atomic rfl Keys.atomic_persist hstatus
    | _ => cases hwrites

/-- Two faults lead a write past the checks that would stop it, and the string that
the key holds is still there. -/
theorem runFaulty_refused_misled :
    let context : Context := ⟨⟨9000⟩, .absolute⟩
    let store := ((Store.empty.perform 0 (.put [107] ⟨[97], 1⟩ none)).2.perform 0
      (.put [108] ⟨[98], 2⟩ (some 5))).2
    let faulty : FaultyStore := ⟨store, [⟨.record, .absent, 0, 1⟩, ⟨.field, .absent, 0, 1⟩]⟩
    let command : Command := .hset [107] [102] ⟨[99], 3⟩ {}
    Store.Reachable faulty.store ∧ command.writesOnce = true ∧
      (command.runFaulty context faulty).1 = ⟨.wrongType, .nothing⟩ ∧
      (command.runFaulty context faulty).2.faults = [] ∧
      (command.runFaulty context faulty).2.store = faulty.store := by
  intro context store faulty command
  have hreachable : Store.Reachable faulty.store :=
    (Store.Reachable.empty.perform 0 _).perform 0 _
  have hreply : (command.runFaulty context faulty).1 = ⟨.wrongType, .nothing⟩ := by decide
  have hstatus : (command.runFaulty context faulty).1.status ≠ .ok := by
    rw [hreply]
    decide
  have hsame := runFaulty_refused hreachable (.inr rfl) hstatus
  exact ⟨hreachable, rfl, hreply, by decide, hsame⟩

end Command

end Keyspace
