import Keyspace.Proofs.Footprint

/-!
# Scripts that write once

Most writing commands, and each item of most batches, read what they have to
know and then make a single writing call.  `Script.Commits P Q` says that of a
script: the calls before the last one only read, `P` holds of the last one, the
script succeeds only if that call does, and `Q` holds of the reason for every
refusal.  So the run of such a script is nothing or one call
(`Script.Commits.run_eq`), a success comes from the call
(`Script.Commits.run_ok`), and a refusal has one of the reasons
(`Script.Commits.run_error`).

`Script.Asks Q` says the same of a script that only reads, such as the checks.
-/

namespace Keyspace

namespace Script

variable {ε ε' α β : Type} {P : Call → Prop} {Q : ε → Prop} {now : Millis}
  {store after : Store}

/-! ## Reading -/

/-- The script only reads, and refuses only for reasons of which `Q` holds. -/
inductive Asks (Q : ε → Prop) : Script ε α → Prop where
  | done (result : α) : Asks Q (done result)
  | refuse {reason : ε} (h : Q reason) : Asks Q (refuse reason)
  | call {c : Call} {next : Except Failure c.Answer → Script ε α} (hc : c.reads = true)
      (hnext : ∀ answer, Asks Q (next answer)) : Asks Q (call c next)

namespace Asks

theorem bind {script : Script ε α} {rest : α → Script ε β} (h : script.Asks Q)
    (hrest : ∀ result, (rest result).Asks Q) : (script.bind rest).Asks Q := by
  induction h with
  | done result => exact hrest result
  | refuse hreason => exact .refuse hreason
  | call hc _ ih => exact .call hc ih

theorem discard {script : Script ε α} (h : script.Asks Q) :
    (Functor.discard script).Asks Q :=
  h.bind fun _ => .done ()

theorem query {Q : Status → Prop} (hfailure : ∀ failure : Failure, Q failure.status) {c : Call}
    (hc : c.reads = true) : (query c).Asks Q := by
  refine .call hc fun answer => ?_
  cases answer with
  | error failure => exact .refuse (hfailure failure)
  | ok answer => exact .done answer

theorem ask {Q : Failure → Prop} (hfailure : ∀ failure, Q failure) {c : Call}
    (hc : c.reads = true) : (ask c).Asks Q := by
  refine .call hc fun answer => ?_
  cases answer with
  | error failure => exact .refuse (hfailure failure)
  | ok answer => exact .done answer

theorem ofOption {reason : ε} (h : Q reason) (value? : Option α) :
    (ofOption reason value?).Asks Q := by
  cases value? with
  | none => exact .refuse h
  | some value => exact .done value

/-- A script that only reads goes on from the store as it was, or it refuses. -/
theorem run_cases {script : Script ε α} (h : script.Asks Q) (now : Millis) (store : Store) :
    (∃ result, script.on now store = (.ok result, store)) ∨
      ∃ reason, Q reason ∧ script.on now store = (.error reason, store) := by
  induction h with
  | done result => exact .inl ⟨result, rfl⟩
  | refuse hreason => exact .inr ⟨_, hreason, rfl⟩
  | call hc _ ih =>
    rw [on_call, Store.perform_of_reads hc]
    exact ih _

/-- A script that starts by reading is refused with the store as it was, or goes
on from there. -/
theorem on_bind {script : Script ε α} {rest : α → Script ε β} (h : script.Asks Q)
    {p : Except ε β × Store → Prop} (hrefused : ∀ reason, Q reason → p (.error reason, store))
    (hrest : ∀ value, script.on now store = (.ok value, store) →
      p ((rest value).on now store)) : p ((script.bind rest).on now store) := by
  rcases h.run_cases now store with ⟨value, hrun⟩ | ⟨reason, hreason, hrun⟩
  · rw [on_bind_ok hrun]
    exact hrest value hrun
  · rw [on_bind_error hrun]
    exact hrefused reason hreason

end Asks

/-! ## Writing once -/

/-- The script only reads until it makes a call of which `P` holds.  It ends with
that call and succeeds only if the call does, and it refuses only for reasons of
which `Q` holds. -/
inductive Commits (P : Call → Prop) (Q : ε → Prop) : Script ε α → Prop where
  | refuse {reason : ε} (h : Q reason) : Commits P Q (refuse reason)
  | read {c : Call} {next : Except Failure c.Answer → Script ε α} (hc : c.reads = true)
      (hnext : ∀ answer, Commits P Q (next answer)) : Commits P Q (call c next)
  | write {c : Call} {next : Except Failure c.Answer → Script ε α} (hc : P c)
      (herror : ∀ failure, ∃ reason, Q reason ∧ next (.error failure) = .refuse reason)
      (hok : ∀ answer, ∃ result, next (.ok answer) = .done result) : Commits P Q (call c next)

namespace Commits

theorem bind_of_asks {script : Script ε α} {rest : α → Script ε β} (h : script.Asks Q)
    (hrest : ∀ result, (rest result).Commits P Q) : (script.bind rest).Commits P Q := by
  induction h with
  | done result => exact hrest result
  | refuse hreason => exact .refuse hreason
  | call hc _ ih => exact .read hc ih

theorem map {script : Script ε α} (h : script.Commits P Q) (f : α → β) :
    (script.bind fun result => done (f result)).Commits P Q := by
  induction h with
  | refuse hreason => exact .refuse hreason
  | read hc _ ih => exact .read hc ih
  | write hc herror hok =>
    refine .write hc (fun failure => ?_) fun answer => ?_
    · obtain ⟨reason, hreason, hnext⟩ := herror failure
      exact ⟨reason, hreason, by rw [hnext]; rfl⟩
    · obtain ⟨result, hnext⟩ := hok answer
      exact ⟨f result, by rw [hnext]; rfl⟩

theorem query {Q : Status → Prop} (hfailure : ∀ failure : Failure, Q failure.status) {c : Call}
    (hc : P c) : (query c).Commits P Q :=
  .write hc (fun failure => ⟨failure.status, hfailure failure, rfl⟩) fun answer => ⟨answer, rfl⟩

theorem discard {script : Script ε α} (h : script.Commits P Q) :
    (Functor.discard script).Commits P Q :=
  h.map fun _ => ()

/-- A success comes from the one call. -/
theorem run_ok {script : Script ε α} (h : script.Commits P Q) {result : α}
    (hrun : script.on now store = (.ok result, after)) :
    ∃ c answer, P c ∧ store.perform now c = (.ok answer, after) := by
  induction h generalizing store with
  | refuse hreason => cases hrun
  | read hc _ ih =>
    rw [on_call, Store.perform_of_reads hc] at hrun
    exact ih _ hrun
  | @write c next hc herror hok =>
    rw [on_call] at hrun
    cases hperform : store.perform now c with
    | mk answer between =>
      rw [hperform] at hrun
      cases answer with
      | error failure =>
        obtain ⟨reason, _, hnext⟩ := herror failure
        rw [hnext] at hrun
        cases hrun
      | ok answer =>
        obtain ⟨result, hnext⟩ := hok answer
        rw [hnext] at hrun
        cases hrun
        exact ⟨c, answer, hc, hperform⟩

/-- A refusal has one of the reasons. -/
theorem run_error {script : Script ε α} (h : script.Commits P Q) {reason : ε}
    (hrun : script.on now store = (.error reason, after)) : Q reason := by
  induction h generalizing store with
  | refuse hreason => cases hrun; exact hreason
  | read hc _ ih => exact ih _ hrun
  | @write c next hc herror hok =>
    rw [on_call] at hrun
    cases hanswer : (store.perform now c).1 with
    | error failure =>
      obtain ⟨reason, hreason, hnext⟩ := herror failure
      rw [hanswer, hnext] at hrun
      cases hrun
      exact hreason
    | ok answer =>
      obtain ⟨result, hnext⟩ := hok answer
      rw [hanswer, hnext] at hrun
      cases hrun

/-- A run is nothing or the one call. -/
theorem run_eq {script : Script ε α} (h : script.Commits P Q) (now : Millis) (store : Store) :
    (script.on now store).2 = store ∨
      ∃ c, P c ∧ (script.on now store).2 = (store.perform now c).2 := by
  induction h generalizing store with
  | refuse _ => exact .inl rfl
  | read hc _ ih =>
    rw [on_call, Store.perform_of_reads hc]
    exact ih _ store
  | @write c next hc herror hok =>
    refine .inr ⟨c, hc, ?_⟩
    rw [on_call]
    cases (store.perform now c).1 with
    | error failure =>
      obtain ⟨reason, _, hnext⟩ := herror failure
      rw [hnext, on_refuse]
    | ok answer =>
      obtain ⟨result, hnext⟩ := hok answer
      rw [hnext, on_done]

/-- A script whose one call cannot fail is refused without it, or makes it and
succeeds. -/
theorem run_cases {script : Script ε α} (h : script.Commits P Q) (now : Millis)
    (store : Store) (hcall : ∀ c, P c → ∃ answer, (store.perform now c).1 = .ok answer) :
    (∃ reason, Q reason ∧ script.on now store = (.error reason, store)) ∨
      ∃ c result, P c ∧ script.on now store = (.ok result, (store.perform now c).2) := by
  induction h with
  | refuse hreason => exact .inl ⟨_, hreason, rfl⟩
  | read hc _ ih =>
    rw [on_call, Store.perform_of_reads hc]
    exact ih _
  | @write c next hc herror hok =>
    obtain ⟨answer, hanswer⟩ := hcall c hc
    obtain ⟨result, hnext⟩ := hok answer
    refine .inr ⟨c, result, hc, ?_⟩
    rw [on_call, hanswer, hnext, on_done]

end Commits

end Script

/-- Whether the status of an item reports that something has been changed. -/
def Status.changes : Status → Bool
  | ok | alreadyExists => true
  | _ => false

/-- An item of a batch that reports a change has made its call. -/
theorem Script.Commits.run_settle {ε : Type} {c : Call} {now : Millis} {store after : Store}
    {script : Script Status Status}
    (h : script.Commits (· = c) fun reason => reason.changes = false) {status : Status}
    (hrun : (script.settle : Script ε Status).on now store = (.ok status, after))
    (hstatus : status.changes = true) :
    ∃ answer, store.perform now c = (.ok answer, after) := by
  rw [on_settle] at hrun
  cases hinner : script.on now store with
  | mk ending between =>
    rw [hinner] at hrun
    cases ending with
    | ok result =>
      cases hrun
      obtain ⟨c, answer, rfl, hperform⟩ := h.run_ok hinner
      exact ⟨answer, hperform⟩
    | error reason =>
      have hreason : reason.changes = false := h.run_error hinner
      cases hrun
      rw [hreason] at hstatus
      cases hstatus

variable {P : Call → Prop} {Q : Status → Prop} {context : Context} {key field member : Bytes}
  {version : Version} {terms : Terms} {now : Millis} {before after : Store} {status : Status}

/-! ## Checks -/

theorem asks_requireVersion (herror : Q .error) : (requireVersion version).Asks Q := by
  unfold requireVersion
  split
  · exact .refuse herror
  · exact .done ()

theorem asks_requireSome {α : Type} (hcount : Q .wrongArgCount) (batch : List α) :
    (requireSome batch).Asks Q := by
  unfold requireSome
  split
  · exact .refuse hcount
  · exact .done ()

theorem asks_requireNewer (hmismatch : Q .versionMismatch) (stored : Option Version) :
    (requireNewer stored version).Asks Q := by
  unfold requireNewer
  split
  · exact .refuse hmismatch
  · exact .done ()

theorem asks_requireCurrent (hmismatch : Q .versionMismatch) (stored : Version) :
    (requireCurrent stored version).Asks Q := by
  unfold requireCurrent
  split
  · exact .refuse hmismatch
  · exact .done ()

/-- The reasons for which a check refuses, other than that the key is absent. -/
structure Status.Common (Q : Status → Prop) : Prop where
  error : Q .error
  versionMismatch : Q .versionMismatch
  wrongType : Q .wrongType

theorem Status.Common.failure (h : Status.Common Q) (failure : Failure) : Q failure.status := by
  cases failure with
  | wrongType => exact h.wrongType
  | _ => exact h.error

theorem asks_checkTerms (h : Status.Common Q) : (checkTerms key terms).Asks Q := by
  refine .bind (.query h.failure rfl) fun found => ?_
  split
  · exact .done found
  · exact .refuse h.versionMismatch

theorem asks_checkKind (h : Status.Common Q) (kind : Kind) : (checkKind key terms kind).Asks Q := by
  refine .bind (asks_checkTerms h) fun found => ?_
  split
  · exact .done found
  · exact .refuse h.wrongType

theorem asks_checkExisting (h : Status.Common Q) (hmissing : Q .notExist) (kind : Kind) :
    (checkExisting key terms kind).Asks Q := by
  refine .bind (asks_checkKind h kind) fun found => ?_
  cases found with
  | none => exact .refuse hmissing
  | some record => exact .done record

theorem asks_checkCurrent (h : Status.Common Q) (hmissing : Q .notExist) (kind : Kind) :
    (checkCurrent key terms kind version).Asks Q := by
  refine .bind (asks_checkExisting h hmissing kind) fun record => ?_
  exact .bind (asks_requireCurrent h.versionMismatch _) fun _ => .done _

theorem asks_requireRecord (h : Status.Common Q) (hmissing : Q .notExist) :
    (requireRecord key).Asks Q := by
  refine .bind (.query h.failure rfl) fun found => ?_
  cases found with
  | none => exact .refuse hmissing
  | some record => exact .done record

theorem common_ne_ok : Status.Common (· ≠ .ok) :=
  ⟨by decide, by decide, by decide⟩

theorem common_changes : Status.Common fun reason => reason.changes = false :=
  ⟨rfl, rfl, rfl⟩

/-! ## Strings -/

namespace Strings

variable {item : Item} {mode : WriteMode}

theorem commits_store (hput : P (.put key item (mode.deadline terms))) :
    (store key item terms mode).Commits P (· ≠ .ok) := by
  refine .bind_of_asks (asks_checkTerms common_ne_ok) fun found => ?_
  split
  · exact .query common_ne_ok.failure hput
  · rename_i hverdict
    exact .refuse hverdict

theorem commits_set (hput : P (.put key item (mode.deadline terms))) :
    (set key item terms mode).Commits P (· ≠ .ok) :=
  .bind_of_asks (asks_requireVersion common_ne_ok.error) fun _ => commits_store hput

theorem commits_setFor (hput : ∀ deadline, P (.put key item deadline)) (seconds : Nat) :
    (setFor context key item seconds).Commits P (· ≠ .ok) :=
  .bind_of_asks (asks_requireVersion common_ne_ok.error) fun _ => commits_store (hput _)

theorem commits_setWith (hput : ∀ deadline, P (.put key item deadline)) (tokens : List String) :
    (setWith context key item terms tokens).Commits P (· ≠ .ok) := by
  refine .bind_of_asks (asks_requireVersion common_ne_ok.error) fun _ => ?_
  cases SetOptions.ofTokens? tokens with
  | none => exact .refuse (by decide)
  | some options =>
    dsimp only
    split
    · have hpresent : (requireRecord key).Asks (· ≠ .ok) :=
        asks_requireRecord common_ne_ok (by decide)
      exact .bind_of_asks hpresent.discard fun _ => commits_store (hput _)
    · exact commits_store (hput _)

theorem commits_exchange (hput : ∀ deadline, P (.put key item deadline)) :
    (exchange key item terms).Commits P (· ≠ .ok) := by
  refine .bind_of_asks (asks_requireVersion common_ne_ok.error) fun _ => ?_
  refine .bind_of_asks (.query common_ne_ok.failure rfl) fun old => ?_
  exact (commits_store (hput _)).map _

theorem commits_add (hput : ∀ value deadline, P (.put key ⟨value, version⟩ deadline))
    (delta : Int64) : (add key version delta terms).Commits P (· ≠ .ok) := by
  refine .bind_of_asks (asks_requireVersion common_ne_ok.error) fun _ => ?_
  refine .bind_of_asks (asks_checkKind common_ne_ok .string) fun found => ?_
  refine .bind_of_asks (asks_requireNewer common_ne_ok.versionMismatch _) fun _ => ?_
  refine .bind_of_asks (.query common_ne_ok.failure rfl) fun item? => ?_
  have hrest : ∀ current, (do
      let next ← Script.ofOption .overflow (addWithin current delta)
      query (.put key ⟨Decimal.ofInt next.toInt, version⟩ (found.bind Record.deadline))
      return next : Script Status Int64).Commits P (· ≠ .ok) := by
    refine fun current => .bind_of_asks (.ofOption (by decide) _) fun next => ?_
    exact (Script.Commits.query common_ne_ok.failure (hput _ _)).map _
  cases item? with
  | none => exact .bind_of_asks (.done _) hrest
  | some item => exact .bind_of_asks (.ofOption (by decide) _) hrest

theorem commits_subtract (hput : ∀ value deadline, P (.put key ⟨value, version⟩ deadline))
    (delta : Int64) : (subtract key version delta terms).Commits P (· ≠ .ok) :=
  .bind_of_asks (.ofOption (by decide) _) fun delta => commits_add hput delta

end Strings

/-! ## Hashes -/

namespace Hashes

variable {item : Item}

theorem commits_store (h : Status.Common Q) (hput : P (.putField key field item)) :
    (store key field item).Commits P Q := by
  refine .bind_of_asks (.query h.failure rfl) fun stored => ?_
  refine .bind_of_asks (asks_requireNewer h.versionMismatch _) fun _ => ?_
  exact (Script.Commits.query h.failure hput).discard

theorem commits_put (hput : P (.putField key field item)) :
    (put key field item terms).Commits P (· ≠ .ok) := by
  refine .bind_of_asks (asks_requireVersion common_ne_ok.error) fun _ => ?_
  refine .bind_of_asks (asks_checkKind common_ne_ok .hash).discard fun _ => ?_
  exact commits_store common_ne_ok hput

theorem commits_add (hput : ∀ value, P (.putField key field ⟨value, version⟩)) (delta : Int64) :
    (add key field version delta terms).Commits P (· ≠ .ok) := by
  refine .bind_of_asks (asks_requireVersion common_ne_ok.error) fun _ => ?_
  refine .bind_of_asks (asks_checkKind common_ne_ok .hash).discard fun _ => ?_
  refine .bind_of_asks (.query common_ne_ok.failure rfl) fun stored => ?_
  refine .bind_of_asks (asks_requireNewer common_ne_ok.versionMismatch _) fun _ => ?_
  have hrest : ∀ current, (do
      let next ← Script.ofOption .overflow (addWithin current delta)
      discard (query (.putField key field ⟨Decimal.ofInt next.toInt, version⟩))
      return next : Script Status Int64).Commits P (· ≠ .ok) := by
    refine fun current => .bind_of_asks (.ofOption (by decide) _) fun next => ?_
    exact (Script.Commits.query common_ne_ok.failure (hput _)).discard.map _
  cases stored with
  | none => exact .bind_of_asks (.done _) hrest
  | some item => exact .bind_of_asks (.ofOption (by decide) _) hrest

/-- A field that a batch reports as written has been put. -/
theorem putOne_changes (hrun : (putOne key field item).on now before = (.ok status, after))
    (hstatus : status.changes = true) :
    ∃ answer, before.perform now (.putField key field item) = (.ok answer, after) := by
  refine Script.Commits.run_settle ?_ hrun hstatus
  refine .bind_of_asks (asks_requireVersion common_changes.error) fun _ => ?_
  exact (commits_store common_changes (by rfl)).map _

/-- A field that a batch reports as removed has been dropped. -/
theorem dropOne_changes (hrun : (dropOne key field version).on now before = (.ok status, after))
    (hstatus : status.changes = true) :
    ∃ answer, before.perform now (.dropField key field version) = (.ok answer, after) := by
  refine Script.Commits.run_settle ?_ hrun hstatus
  refine .bind_of_asks (asks_requireVersion common_changes.error) fun _ => ?_
  refine .bind_of_asks ?_ fun stored => ?_
  · exact .bind (.query common_changes.failure rfl) fun item? => .ofOption (by rfl) item?
  · refine .bind_of_asks (asks_requireCurrent common_changes.versionMismatch _) fun _ => ?_
    exact (Script.Commits.query common_changes.failure (by rfl)).discard.map _

end Hashes

/-! ## Sets -/

namespace Sets

variable {item : Item}

/-- A member that a batch reports as added has been added or stamped anew. -/
theorem addOne_changes (hrun : (addOne key item).on now before = (.ok status, after))
    (hstatus : status.changes = true) :
    ∃ answer, before.perform now (.addMember key item.value item.version) =
      (.ok answer, after) := by
  refine Script.Commits.run_settle ?_ hrun hstatus
  refine .bind_of_asks (asks_requireVersion common_changes.error) fun _ => ?_
  refine .bind_of_asks (.query common_changes.failure rfl) fun stored => ?_
  refine .bind_of_asks (asks_requireNewer common_changes.versionMismatch _) fun _ => ?_
  exact (Script.Commits.query common_changes.failure (by rfl)).map _

/-- A member that a batch reports as removed has been dropped. -/
theorem dropOne_changes (hrun : (dropOne key item).on now before = (.ok status, after))
    (hstatus : status.changes = true) :
    ∃ answer, before.perform now (.dropMember key item.value item.version) =
      (.ok answer, after) := by
  refine Script.Commits.run_settle ?_ hrun hstatus
  refine .bind_of_asks (asks_requireVersion common_changes.error) fun _ => ?_
  refine .bind_of_asks (.query common_changes.failure rfl) fun stored? => ?_
  refine .bind_of_asks (.ofOption (by rfl) stored?) fun stored => ?_
  refine .bind_of_asks (asks_requireCurrent common_changes.versionMismatch _) fun _ => ?_
  exact (Script.Commits.query common_changes.failure (by rfl)).discard.map _

theorem commits_pop (hdrop : ∀ member, P (.dropMember key member version)) :
    (pop context key version terms).Commits P (· ≠ .ok) := by
  have hcheck : (checkCurrent key terms .set version).Asks (· ≠ .ok) :=
    asks_checkCurrent common_ne_ok (by decide) .set
  refine .bind_of_asks (asks_requireVersion common_ne_ok.error) fun _ => ?_
  refine .bind_of_asks hcheck.discard fun _ => ?_
  refine .bind_of_asks (.query common_ne_ok.failure rfl) fun members => ?_
  refine .bind_of_asks (.ofOption (by decide) _) fun picked => ?_
  exact (Script.Commits.query common_ne_ok.failure (hdrop _)).discard.map _

end Sets

/-! ## Sorted sets -/

namespace Rankings

/-- A member that a batch reports as added has been given its score. -/
theorem addOne_changes {item : Scored}
    (hrun : (addOne key item).on now before = (.ok status, after))
    (hstatus : status.changes = true) :
    ∃ answer, before.perform now (.putScore key item.member item.score item.version) =
      (.ok answer, after) := by
  refine Script.Commits.run_settle ?_ hrun hstatus
  refine .bind_of_asks (asks_requireVersion common_changes.error) fun _ => ?_
  refine .bind_of_asks (.query common_changes.failure rfl) fun stored => ?_
  refine .bind_of_asks (asks_requireNewer common_changes.versionMismatch _) fun _ => ?_
  exact (Script.Commits.query common_changes.failure (by rfl)).map _

/-- A member that a batch reports as removed has been dropped. -/
theorem dropOne_changes {item : Item}
    (hrun : (dropOne key item).on now before = (.ok status, after))
    (hstatus : status.changes = true) :
    ∃ answer, before.perform now (.dropScore key item.value item.version) =
      (.ok answer, after) := by
  refine Script.Commits.run_settle ?_ hrun hstatus
  refine .bind_of_asks (asks_requireVersion common_changes.error) fun _ => ?_
  refine .bind_of_asks (.query common_changes.failure rfl) fun stored? => ?_
  refine .bind_of_asks (.ofOption (by rfl) stored?) fun stored => ?_
  refine .bind_of_asks (asks_requireCurrent common_changes.versionMismatch _) fun _ => ?_
  exact (Script.Commits.query common_changes.failure (by rfl)).discard.map _

theorem commits_add (hput : ∀ score, P (.putScore key member score version)) (delta : Int64) :
    (add key member version delta terms).Commits P (· ≠ .ok) := by
  refine .bind_of_asks (asks_requireVersion common_ne_ok.error) fun _ => ?_
  refine .bind_of_asks (asks_checkKind common_ne_ok .zset).discard fun _ => ?_
  refine .bind_of_asks (.query common_ne_ok.failure rfl) fun stored => ?_
  refine .bind_of_asks (asks_requireNewer common_ne_ok.versionMismatch _) fun _ => ?_
  refine .bind_of_asks (.ofOption (by decide) _) fun next => ?_
  exact (Script.Commits.query common_ne_ok.failure (hput _)).discard.map _

end Rankings

end Keyspace
