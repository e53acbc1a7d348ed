import Keyspace.Proofs.Counters
import Keyspace.Proofs.Deletion
import Keyspace.Proofs.Refusal

/-!
# Retries

A caller that has lost the reply to a command sends the command again.  This module
shows that no harm comes of it: whatever the first run has done, the second one
leaves every live slot as it is, and a counter is not counted twice.  What makes the
second run harmless differs from command to command.

* Scripts that make one call.  `Script.Once` says that a script makes a certain call
  or none, whatever it finds, and a call that is made twice leaves what it leaves
  once (`Script.Once.settles`).
* Counters.  The call depends on what a counter holds, but a counter that has been
  counted refuses the same version (`Script.Spent.settles`).
* Deletions and renames.  The keys of a deletion that are left get the same verdicts
  again, and a rename finds its source gone.
* Batches of strings.  A key that the batch has left is left again, and a key that
  it has written to is at the newest version that the batch has for it
  (`Strings.expired_of_again`).  If the deadline of the batch has passed, its writes
  are made again, and nobody sees either of them.
* Commands.  `Command.run_again` puts the groups together, with the batches of
  `Keyspace.Proofs.Settled`.
-/

namespace Keyspace

variable {ε α β : Type} {now : Millis} {store after : Store} {key : Bytes} {version : Version}
  {terms : Terms} {c : Call}

namespace Script

/-- Whether a script that runs a second time at the same moment changes nothing that
anybody could see. -/
def Settles (now : Millis) (store : Store) (script : Script ε α) : Prop :=
  ∀ key, (script.on now (script.on now store).2).2.live? now key =
    (script.on now store).2.live? now key

namespace Settles

variable {script : Script ε α}

theorem of_again (h : (script.on now (script.on now store).2).2 = (script.on now store).2) :
    script.Settles now store := by
  intro key
  rw [h]

/-- A script that has changed nothing changes nothing. -/
theorem of_unchanged (h : (script.on now store).2 = store) : script.Settles now store :=
  of_again (by rw [h, h])

theorem map (h : script.Settles now store) (f : α → β) :
    (script.bind fun result => done (f result)).Settles now store := by
  intro key
  rw [snd_on_map, snd_on_map]
  exact h key

end Settles

/-! ## Scripts that make one call -/

/-- Whether the run of a script is nothing or one certain call. -/
def Once (now : Millis) (c : Call) (script : Script ε α) : Prop :=
  ∀ store, (script.on now store).2 = store ∨ (script.on now store).2 = (store.perform now c).2

theorem Commits.once {Q : ε → Prop} {script : Script ε α} (h : script.Commits (· = c) Q) :
    script.Once now c := by
  intro store
  rcases h.run_eq now store with hsame | ⟨_, rfl, hmade⟩
  · exact .inl hsame
  · exact .inr hmade

namespace Once

theorem bind_of_reads {script : Script ε α} {rest : α → Script ε β}
    (h : script.Calls fun c => c.reads = true) (hrest : ∀ result, (rest result).Once now c) :
    (script.bind rest).Once now c := by
  intro store
  have hsame := h.unchanged now store
  rw [on_bind]
  cases hrun : script.on now store with
  | mk ending between =>
    rw [hrun] at hsame
    cases hsame
    cases ending with
    | ok result => exact hrest result _
    | error reason => exact .inl rfl

theorem query_bind {rest : c.Answer → Script Status α}
    (hrest : ∀ answer, (rest answer).Calls fun c => c.reads = true) :
    ((query c).bind rest).Once now c := by
  intro store
  right
  rw [on_bind, on_query]
  cases (store.perform now c).1 with
  | error failure => rfl
  | ok answer => exact (hrest answer).unchanged now _

/-- A script that has made its call makes it again or not, and either way nobody can
tell. -/
theorem settles {script : Script ε α} (h : script.Once now c) (hsound : store.Sound) :
    script.Settles now store := by
  rcases h store with hsame | hmade
  · exact .of_unchanged hsame
  · intro key
    rw [hmade]
    rcases h (store.perform now c).2 with hsame | hagain
    · rw [hsame]
    · rw [hagain]
      exact (Store.perform_twice hsound now c).live key

end Once

end Script

open Script

namespace Strings

variable {item : Item} {mode : WriteMode} {context : Context}

theorem once_store :
    (Strings.store key item terms mode).Once now (.put key item (mode.deadline terms)) :=
  Commits.once (commits_store (by rfl))

theorem once_set (key : Bytes) (item : Item) (terms : Terms) (mode : WriteMode) :
    (set key item terms mode).Once now (.put key item (mode.deadline terms)) :=
  .bind_of_reads calls_requireVersion fun _ => once_store

theorem once_setFor (key : Bytes) (item : Item) (seconds : Nat) :
    ∃ deadline, (setFor context key item seconds).Once now (.put key item deadline) := by
  apply Exists.intro
  exact .bind_of_reads calls_requireVersion fun _ => once_store

theorem once_exchange (key : Bytes) (item : Item) (terms : Terms) :
    (exchange key item terms).Once now (.put key item none) := by
  refine .bind_of_reads calls_requireVersion fun _ => ?_
  refine .bind_of_reads (.query (by rfl)) fun old => ?_
  exact Commits.once (.map (commits_store (by rfl)) _)

theorem once_setWith (key : Bytes) (item : Item) (terms : Terms) (tokens : List String) :
    ∃ deadline, (setWith context key item terms tokens).Once now (.put key item deadline) := by
  unfold setWith
  cases SetOptions.ofTokens? tokens with
  | none => exact ⟨none, .bind_of_reads calls_requireVersion fun _ store => .inl rfl⟩
  | some options =>
    apply Exists.intro
    refine .bind_of_reads calls_requireVersion fun _ => ?_
    dsimp only
    split
    · exact .bind_of_reads (.discard (calls_requireRecord (by rfl))) fun _ => once_store
    · exact once_store

end Strings

theorem Hashes.once_put (key name : Bytes) (item : Item) (terms : Terms) :
    (put key name item terms).Once now (.putField key name item) :=
  Commits.once (commits_put (by rfl))

/-- The window of scores is read off the bounds, or the removal is refused. -/
theorem Rankings.once_dropByScore (key : Bytes) (min max : String) (version : Version)
    (terms : Terms) :
    ∃ low high, (dropByScore key min max version terms).Once now
      (.dropByScore key low high version) := by
  have hversion : (requireVersion version).Calls fun c => c.reads = true := calls_requireVersion
  unfold dropByScore bounds
  cases scoreBound? min with
  | none => exact ⟨0, 0, .bind_of_reads hversion fun _ store => .inl rfl⟩
  | some low =>
    cases scoreBound? max with
    | none => exact ⟨0, 0, .bind_of_reads hversion fun _ store => .inl rfl⟩
    | some high =>
      refine ⟨low, high, .bind_of_reads hversion fun _ => ?_⟩
      show ((discard (checkCurrent key terms .zset version)).bind fun _ =>
        (query (.dropByScore key low high version)).bind fun removed =>
          if removed = 0 then .refuse .rangeEmpty else .done removed).Once now _
      refine .bind_of_reads (.discard (calls_checkCurrent (by rfl) .zset)) fun _ => ?_
      refine .query_bind fun removed => ?_
      split <;> constructor

namespace Keys

variable {context : Context}

theorem once_reschedule (key : Bytes) (deadline : Option Millis) (version : Version) :
    (reschedule key deadline version).Once now (.setDeadline key deadline version) := by
  refine .query_bind fun answer => ?_
  cases answer <;> constructor

theorem once_expire (key : Bytes) (amount : Nat) (unit : TtlUnit) (version : Version) :
    (expire context key amount unit version).Once now
      (.setDeadline key (some (context.deadline amount unit version)) version) :=
  .bind_of_reads (.discard (calls_requireChangeable (by rfl))) fun _ =>
    once_reschedule _ _ _

theorem once_persist (key : Bytes) (version : Version) :
    (persist key version).Once now (.setDeadline key none version) := by
  refine .bind_of_reads (calls_requireChangeable (by rfl)) fun record => ?_
  split
  · exact fun store => .inl rfl
  · exact once_reschedule key none version

theorem once_finalize : finalize.Once now .close :=
  Commits.once (Q := (· ≠ .ok)) (.query common_ne_ok.failure rfl)

end Keys

/-! ## Counters -/

/-- A script that is refused at its one call has changed nothing. -/
theorem Script.Commits.snd_of_error {P : Call → Prop} {Q : ε → Prop} {script : Script ε α}
    (h : script.Commits P Q) {reason : ε}
    (hrun : script.on now store = (.error reason, after)) : after = store := by
  induction h generalizing store with
  | refuse _ => cases hrun; rfl
  | @read c next hc _ ih =>
    rw [on_call, Store.perform_of_reads hc] at hrun
    exact ih _ hrun
  | @write c next hc herror hok =>
    rw [on_call] at hrun
    cases hanswer : (store.perform now c).1 with
    | error failure =>
      obtain ⟨_, _, hnext⟩ := herror failure
      rw [hanswer, hnext, Store.perform_of_error hanswer] at hrun
      cases hrun
      rfl
    | ok answer =>
      obtain ⟨result, hnext⟩ := hok answer
      rw [hanswer, hnext] at hrun
      cases hrun

/-- A script that makes one call and is refused once that has succeeded settles. -/
theorem Script.Spent.settles {script : Script Status α} (h : script.Spent now store)
    (hcommits : script.Commits (fun _ => True) (· ≠ .ok)) : script.Settles now store := by
  cases hrun : script.on now store with
  | mk ending after =>
    cases ending with
    | error reason => exact .of_unchanged (by rw [hrun, hcommits.snd_of_error hrun])
    | ok result =>
      have hrefused := h result after hrun
      refine .of_again ?_
      rw [hrun, hrefused]

/-! ## Deletions and renames -/

namespace Keys

variable {source target : Bytes}

/-- A key that a deletion has left gets the same verdict the second time. -/
theorem settles_delete (hopen : store.closed = false) (keys : List Bytes) (versions : List Version)
    (terms : Terms) : (delete keys versions terms).Settles now store := by
  by_cases hlength : keys.length = versions.length
  · obtain ⟨after, hrun, hslots⟩ := on_delete now hopen hlength terms
    have hcalls : (delete keys versions terms).Calls (· ≠ .close) :=
      calls_delete (fun _ _ => by simp) (fun _ _ => by simp) versions
    have hopen' : after.closed = false := by
      rw [← hopen, ← hcalls.closed_on now store, hrun]
    obtain ⟨final, hrerun, hslots'⟩ := on_delete now hopen' hlength terms
    intro key
    rw [hrun, hrerun, Store.live?_eq, Store.live?_eq, hslots']
    split
    · rename_i hdoomed
      rw [hslots]
      split
      · rfl
      · rename_i hleft
        obtain ⟨version, hmem, hverdict⟩ := mem_doomed.mp hdoomed
        have hsame : after.live? now key = store.live? now key := by
          rw [Store.live?_eq, hslots, if_neg hleft, Store.live?_eq]
        rw [verdictOn, hsame] at hverdict
        exact absurd (mem_doomed.mpr ⟨version, hmem, hverdict⟩) hleft
    · rfl
  · refine .of_unchanged ?_
    rw [delete, if_pos hlength]
    rfl

/-- A rename that has been granted has taken its source away. -/
theorem settles_rename (source target : Bytes) (version : Version) (onlyIfAbsent : Bool) :
    (rename source target version onlyIfAbsent).Settles now store := by
  by_cases hne : source = target
  · subst hne
    exact .of_unchanged (rename_self source version onlyIfAbsent)
  · rcases rename_cases hne version onlyIfAbsent store with
      ⟨status, _, hrefused⟩ | ⟨_, after, hrun, _, hgone⟩
    · exact .of_unchanged (by rw [hrefused])
    · refine .of_again ?_
      rw [hrun]
      rcases on_rename hne version onlyIfAbsent after with
        ⟨status, _, hrefused⟩ | ⟨_, _, _, slot, hslot, _⟩
      · rw [hrefused]
      · rw [hgone] at hslot
        cases hslot

end Keys

/-! ## Batches of strings -/

namespace Strings

variable {mode : WriteMode} {pending : Std.ExtTreeMap Bytes Version} {deadline : Option Millis}
  {items : List (Bytes × Item)} {item : Item}

theorem verdict_of_judgement {found : Option Record}
    (h : judgement terms mode (.ok found) version = .ok) :
    mode.verdict (found.map Record.version) version = .ok := by
  rw [judgement] at h
  split at h
  · cases h
  · split at h
    · exact h
    · cases h

/-- What would be granted at a version would be granted at a newer one. -/
theorem judgement_mono {answer : Except Failure (Option Record)} {newer : Version}
    (h : judgement terms mode answer version = .ok) (hle : version ≤ newer) :
    judgement terms mode answer newer = .ok := by
  cases answer with
  | error failure => exact absurd h (judgement_error_ne failure version)
  | ok found =>
    have hverdict := verdict_of_judgement h
    rw [judgement] at h ⊢
    split at h
    · cases h
    · rename_i hversion
      have hnewer : newer ≠ 0 := by grind
      rw [if_neg hnewer]
      split at h
      · rename_i hpermit
        rw [if_pos hpermit]
        cases found with
        | none => rfl
        | some record =>
          have hlt : record.version < newer :=
            UInt64.lt_of_lt_of_le (WriteMode.lt_of_verdict hverdict) hle
          have hmode := WriteMode.onlyIfAbsent_of_verdict hverdict
          rw [Option.map_some, WriteMode.verdict, hmode, if_neg Bool.false_ne_true,
            if_neg (UInt64.not_le.mpr hlt)]
      · cases h

/-- An item of a batch whose key no earlier item writes to is judged as a single write. -/
theorem planned_of_absent (hpending : pending[key]? = none) (item : Item) :
    planned terms mode store now pending key item =
      judgement terms mode (store.record now key) item.version := by
  rw [planned, hpending]
  unfold judgement
  split <;> rfl

/-- The writes of a batch are that of its first item, if it is granted, and those of
the others. -/
theorem mem_writes_cons {write : Write} {status : Status} {statuses : List Status} :
    write ∈ writes deadline ((key, item) :: items) (status :: statuses) ↔
      (status = .ok ∧ write = ⟨key, item, deadline⟩) ∨ write ∈ writes deadline items statuses := by
  rw [writes_cons]
  by_cases hok : status = .ok
  · simp [hok]
  · simp [hok]

/-- What is pending under a key after the first item of a batch. -/
theorem getElem?_pending (version : Version) {other : Bytes} {status : Status} :
    (if status = .ok then pending.insert other version else pending)[key]? =
      if status = .ok ∧ other = key then some version else pending[key]? := by
  by_cases hok : status = .ok
  · simp [hok, Std.ExtTreeMap.getElem?_insert]
  · simp [hok]

/-- A batch writes to a key if the store would grant one of its items there. -/
theorem exists_mem_writes_iff (hpending : pending[key]? = none) (items : List (Bytes × Item)) :
    (∃ write ∈ writes deadline items (plannedAll terms mode store now pending items),
      write.key = key) ↔
      ∃ item, (key, item) ∈ items ∧
        judgement terms mode (store.record now key) item.version = .ok := by
  induction items generalizing pending with
  | nil => exact ⟨nofun, nofun⟩
  | cons entry rest ih =>
    obtain ⟨other, item⟩ := entry
    by_cases hhead : planned terms mode store now pending other item = .ok ∧ other = key
    · obtain ⟨hok, rfl⟩ := hhead
      refine iff_of_true ⟨_, mem_writes_cons.mpr (.inl ⟨hok, rfl⟩), rfl⟩ ⟨item, ?_⟩
      exact ⟨List.mem_cons_self, planned_of_absent hpending item ▸ hok⟩
    · have hrest := ih ((getElem?_pending item.version).trans ((if_neg hhead).trans hpending))
      constructor
      · rintro ⟨write, hwrite, hkey⟩
        rcases mem_writes_cons.mp hwrite with ⟨hok, rfl⟩ | hlater
        · exact absurd ⟨hok, hkey⟩ hhead
        · obtain ⟨offered, hmem, hgranted⟩ := hrest.mp ⟨write, hlater, hkey⟩
          exact ⟨offered, List.mem_cons_of_mem _ hmem, hgranted⟩
      · rintro ⟨offered, hmem, hgranted⟩
        rcases List.mem_cons.mp hmem with heq | hmem
        · cases heq
          exact absurd ⟨(planned_of_absent hpending item).trans hgranted, rfl⟩ hhead
        · obtain ⟨write, hwrite, hkey⟩ := hrest.mpr ⟨offered, hmem, hgranted⟩
          exact ⟨write, mem_writes_cons.mpr (.inr hwrite), hkey⟩

/-- What the store would grant on a key is not newer than what the batch has granted
there. -/
theorem le_of_granted (hmode : mode.onlyIfAbsent = false)
    (hpending : ∀ earlier, pending[key]? = some earlier → earlier ≤ version)
    (hwrites : ∀ write ∈ writes deadline items (plannedAll terms mode store now pending items),
      write.key = key → write.item.version ≤ version)
    (hmem : (key, item) ∈ items)
    (hgranted : judgement terms mode (store.record now key) item.version = .ok) :
    item.version ≤ version := by
  induction items generalizing pending with
  | nil => cases hmem
  | cons entry rest ih =>
    obtain ⟨other, offered⟩ := entry
    have hfirst : planned terms mode store now pending other offered = .ok → other = key →
        offered.version ≤ version :=
      fun hok hkey => hwrites _ (mem_writes_cons.mpr (.inl ⟨hok, rfl⟩)) hkey
    rcases List.mem_cons.mp hmem with heq | hmem
    · cases heq
      cases hearlier : pending[key]? with
      | none => exact hfirst ((planned_of_absent hearlier item).trans hgranted) rfl
      | some earlier =>
        by_cases hle : item.version ≤ earlier
        · exact UInt64.le_trans hle (hpending earlier hearlier)
        · refine hfirst ?_ rfl
          have hversion : item.version ≠ 0 := by grind
          rw [planned, if_neg hversion, hearlier]
          show (if mode.onlyIfAbsent then _ else if item.version ≤ earlier then _ else _) = _
          rw [hmode, if_neg Bool.false_ne_true, if_neg hle]
    · refine ih (fun earlier hearlier => ?_)
        (fun write hwrite => hwrites write (mem_writes_cons.mpr (.inr hwrite))) hmem
      rw [getElem?_pending] at hearlier
      split at hearlier
      · rename_i hhead
        cases hearlier
        exact hfirst hhead.1 hhead.2
      · exact hpending earlier hearlier

/-- The writes that a batch makes on a store. -/
def batch (terms : Terms) (mode : WriteMode) (now : Millis) (items : List (Bytes × Item))
    (store : Store) : List Write :=
  writes (mode.deadline terms) items (plannedAll terms mode store now ∅ items)

/-- Whether a batch writes to a key. -/
def WritesTo (terms : Terms) (mode : WriteMode) (now : Millis) (items : List (Bytes × Item))
    (key : Bytes) (store : Store) : Prop :=
  ∃ write ∈ batch terms mode now items store, write.key = key

/-- The store after a batch. -/
def afterBatch (terms : Terms) (mode : WriteMode) (now : Millis) (items : List (Bytes × Item))
    (store : Store) : Store :=
  (batch terms mode now items store).foldl (written now) store

theorem writesTo_iff : WritesTo terms mode now items key store ↔
    ∃ item, (key, item) ∈ items ∧
      judgement terms mode (store.record now key) item.version = .ok :=
  exists_mem_writes_iff Std.ExtTreeMap.getElem?_empty items

theorem getElem?_afterBatch (h : ¬ WritesTo terms mode now items key store) :
    (afterBatch terms mode now items store).slots[key]? = store.slots[key]? :=
  getElem?_foldl_written (fun write hwrite hkey => h ⟨write, hwrite, hkey⟩) store

theorem live?_afterBatch (h : ¬ WritesTo terms mode now items key store) :
    (afterBatch terms mode now items store).live? now key = store.live? now key := by
  rw [Store.live?_eq, getElem?_afterBatch h, Store.live?_eq]

theorem open_afterBatch (hopen : store.closed = false) :
    (afterBatch terms mode now items store).closed = false :=
  (closed_foldl_written _ store).trans hopen

/-- A key that a batch writes to ends up at the newest version that it writes there, with
the deadline of the batch. -/
theorem slot_of_writesTo (hopen : store.closed = false)
    (h : WritesTo terms mode now items key store) :
    ∃ slot, (afterBatch terms mode now items store).slots[key]? = some slot ∧
      slot.deadline = mode.deadline terms ∧
      ∀ write ∈ batch terms mode now items store, write.key = key →
        write.item.version ≤ slot.version := by
  have hrising : Rising now store (batch terms mode now items store) :=
    (rising_writes _ items (.empty now store)).1
  obtain ⟨write, hwrite, rfl⟩ := h
  obtain ⟨last, hlast, _, _, hslot⟩ := hrising.getElem?_foldl hopen hwrite
  refine ⟨_, hslot, (mem_zip_of_mem_writes hlast).2, fun other hother hkey => ?_⟩
  obtain ⟨newest, _, _, hle, hsame⟩ := hrising.getElem?_foldl hopen hother
  rw [hkey, hslot] at hsame
  have hversion : last.item.version = newest.item.version :=
    congrArg Slot.version (Option.some.inj hsame)
  exact hversion ▸ hle

/-- A key that a batch has written to with a deadline that has passed is not live. -/
theorem live?_of_writesTo (hopen : store.closed = false)
    (hexpired : (mode.deadline terms).any (· ≤ now) = true)
    (h : WritesTo terms mode now items key store) :
    (afterBatch terms mode now items store).live? now key = none := by
  obtain ⟨slot, hslot, hdeadline, _⟩ := slot_of_writesTo hopen h
  rw [Store.live?_eq, hslot, Slot.live?_some, Slot.isExpired, hdeadline]
  exact if_pos hexpired

/-- A key that a batch has left has the same record the second time, and the batch
leaves it again. -/
theorem writesTo_of_again (hopen : store.closed = false)
    (hagain : WritesTo terms mode now items key (afterBatch terms mode now items store)) :
    WritesTo terms mode now items key store := by
  by_contra hleft
  rw [writesTo_iff, Store.record_open (open_afterBatch hopen), live?_afterBatch hleft,
    ← Store.record_open hopen] at hagain
  exact hleft (writesTo_iff.mpr hagain)

/-- A key that a batch has written to is not written to again as long as it lives. -/
theorem expired_of_again (hopen : store.closed = false)
    (hagain : WritesTo terms mode now items key (afterBatch terms mode now items store)) :
    (mode.deadline terms).any (· ≤ now) = true := by
  have hfirst := writesTo_of_again hopen hagain
  obtain ⟨slot, hslot, hdeadline, hnewest⟩ := slot_of_writesTo hopen hfirst
  by_contra hlasts
  have hlive : (afterBatch terms mode now items store).live? now key = some slot := by
    refine Store.live?_eq_some.mpr ⟨hslot, ?_⟩
    rw [Slot.isExpired, hdeadline]
    exact Bool.eq_false_iff.mpr hlasts
  obtain ⟨late, hlate, hgranted⟩ := writesTo_iff.mp hagain
  rw [Store.record_open (open_afterBatch hopen), hlive] at hgranted
  have hlt : slot.version < late.version := lt_of_judgement hgranted rfl
  have hmode := WriteMode.onlyIfAbsent_of_verdict (verdict_of_judgement hgranted)
  -- the store would have granted the late item as well, so it is not newer than the slot
  obtain ⟨early, hearly, hbefore⟩ := writesTo_iff.mp hfirst
  have hle : ∀ item, (key, item) ∈ items →
      judgement terms mode (store.record now key) item.version = .ok →
      item.version ≤ slot.version :=
    fun item hmem => le_of_granted hmode (by simp) hnewest hmem
  have hlater : early.version ≤ late.version :=
    UInt64.le_trans (hle early hearly hbefore) (UInt64.le_of_lt hlt)
  exact UInt64.not_le.mpr hlt (hle late hlate (judgement_mono hbefore hlater))

/-- A batch that is made again writes only to keys that it has written to with a
deadline that has passed. -/
theorem settles_setMany (hopen : store.closed = false) (items : List (Bytes × Item))
    (terms : Terms) (mode : WriteMode) : (setMany items terms mode).Settles now store := by
  by_cases hitems : items = []
  · subst hitems
    exact .of_unchanged rfl
  · intro key
    have hrun : ∀ store, ((setMany items terms mode).on now store).2 =
        afterBatch terms mode now items store :=
      fun store => by rw [on_setMany hitems]; rfl
    rw [hrun store, hrun]
    by_cases hagain : WritesTo terms mode now items key (afterBatch terms mode now items store)
    · have hexpired := expired_of_again hopen hagain
      rw [live?_of_writesTo (open_afterBatch hopen) hexpired hagain,
        live?_of_writesTo hopen hexpired (writesTo_of_again hopen hagain)]
    · exact live?_afterBatch hagain

end Strings

/-! ## Commands -/

namespace Command

variable {context : Context} {command : Command}

/-- Whether a command names all that it removes.  The two others remove what they find
at some place, and find something else there the next time. -/
def repeatable : Command → Bool
  | spop .. | zremRangeByRank .. => false
  | _ => true

/-- Whether a command counts. -/
def counts : Command → Bool
  | incrBy .. | decrBy .. | hincrBy .. | zincrBy .. => true
  | _ => false

/-- A command that answers with the result of a script settles if the script does. -/
theorem settles_of_reply {script : Script Status α} {data : α → Data}
    (hscript : command.script context = reply script data)
    (h : script.Settles context.now store) :
    (command.script context).Settles context.now store := by
  rw [hscript]
  exact h.map _

/-- A command that counts makes one call. -/
theorem commits_counts (hcounts : command.counts = true) :
    (command.script context).Commits (fun _ => True) (· ≠ .ok) := by
  cases command with
  | incrBy => exact commits_reply (Strings.commits_add (fun _ _ => trivial) _) _
  | decrBy => exact commits_reply (Strings.commits_subtract (fun _ _ => trivial) _) _
  | hincrBy => exact commits_reply (Hashes.commits_add (fun _ => trivial) _) _
  | zincrBy => exact commits_reply (Rankings.commits_add (fun _ => trivial) _) _
  | _ => cases hcounts

/-- A command that has counted does not count again. -/
theorem spent_counts (hsound : store.Sound) (hcounts : command.counts = true) :
    (command.script context).Spent context.now store := by
  cases command with
  | incrBy key version delta terms => exact (Strings.spent_add key version delta terms).map _
  | decrBy key version delta terms => exact (Strings.spent_subtract key version delta terms).map _
  | hincrBy key name version delta terms =>
    exact (Hashes.spent_add hsound key name version delta terms).map _
  | zincrBy key member version delta terms =>
    exact (Rankings.spent_add hsound key member version delta terms).map _
  | _ => cases hcounts

/-- Every command that can be repeated settles on an open store. -/
theorem settles_script (hsound : store.Sound) (hopen : store.closed = false)
    (hcommand : command.repeatable = true) :
    (command.script context).Settles context.now store := by
  by_cases hreads : command.reads = true
  · refine .of_unchanged ?_
    have hcalls : (command.script context).Calls fun c => c.reads = true :=
      (script_calls context command).mono fun c hc => hc.reads hreads
    exact hcalls.unchanged context.now store
  by_cases hcounts : command.counts = true
  · exact (spent_counts hsound hcounts).settles (commits_counts hcounts)
  cases command with
  | getSet key item terms =>
    exact settles_of_reply rfl ((Strings.once_exchange key item terms).settles hsound)
  | set key item terms mode =>
    exact settles_of_reply rfl ((Strings.once_set key item terms mode).settles hsound)
  | setEx key item seconds =>
    obtain ⟨_, honce⟩ := Strings.once_setFor key item seconds
    exact settles_of_reply rfl (honce.settles hsound)
  | setWith key item terms tokens =>
    obtain ⟨_, honce⟩ := Strings.once_setWith key item terms tokens
    exact settles_of_reply rfl (honce.settles hsound)
  | mset items terms mode =>
    exact settles_of_reply rfl (Strings.settles_setMany hopen items terms mode)
  | hset key name item terms =>
    exact settles_of_reply rfl ((Hashes.once_put key name item terms).settles hsound)
  | hmset key values terms =>
    exact settles_of_reply rfl (.of_again (Hashes.putMany_again hsound values terms))
  | hdel key fields terms =>
    exact settles_of_reply rfl (.of_again (Hashes.dropMany_again hsound fields terms))
  | sadd key members terms =>
    exact settles_of_reply rfl (.of_again (Sets.addMany_again hsound members terms))
  | srem key members terms =>
    exact settles_of_reply rfl (.of_again (Sets.dropMany_again hsound members terms))
  | zadd key items terms =>
    exact settles_of_reply rfl (.of_again (Rankings.addMany_again hsound items terms))
  | zrem key members terms =>
    exact settles_of_reply rfl (.of_again (Rankings.dropMany_again hsound members terms))
  | zremRangeByScore key min max version terms =>
    obtain ⟨_, _, honce⟩ := Rankings.once_dropByScore key min max version terms
    exact settles_of_reply rfl (honce.settles hsound)
  | del keys versions terms =>
    exact settles_of_reply rfl (Keys.settles_delete hopen keys versions terms)
  | expire key amount unit version =>
    exact settles_of_reply rfl ((Keys.once_expire key amount unit version).settles hsound)
  | persist key version =>
    exact settles_of_reply rfl ((Keys.once_persist key version).settles hsound)
  | rename source target version onlyIfAbsent =>
    exact settles_of_reply rfl (Keys.settles_rename source target version onlyIfAbsent)
  | finalize => exact settles_of_reply rfl (Keys.once_finalize.settles hsound)
  | spop | zremRangeByRank => cases hcommand
  | incrBy | decrBy | hincrBy | zincrBy => exact absurd rfl hcounts
  | _ => exact absurd rfl hreads

/-- A command that has counted is refused if it is sent again. -/
theorem status_again (hsound : store.Sound) (hcounts : command.counts = true)
    (hok : (command.run context store).1.status = .ok) :
    (command.run context (command.run context store).2).1.status = .versionMismatch := by
  cases hrun : (command.script context).on context.now store with
  | mk ending after =>
    have hfirst : command.run context store = (command.conclude ending, after) := by
      rw [run_eq, hrun]
    rw [hfirst] at hok ⊢
    cases ending with
    | error status => exact absurd hok ((commits_counts hcounts).run_error hrun)
    | ok reply =>
      rw [run_eq, spent_counts hsound hcounts reply after hrun]
      rfl

/-- A command that is sent again at once changes nothing that anybody could see, and one
that has counted is refused. -/
theorem run_again (hreachable : store.Reachable) (context : Context)
    (hcommand : command.repeatable = true) :
    let first := command.run context store
    let second := command.run context first.2
    second.2.live context.now = first.2.live context.now ∧
      (command.counts = true → first.1.status = .ok → second.1.status = .versionMismatch) := by
  intro first second
  have hsettles : (command.script context).Settles context.now store := by
    cases hclosed : store.closed with
    | false => exact settles_script hreachable.sound hclosed hcommand
    | true => exact .of_unchanged (runAll_closed hclosed [⟨context, command⟩])
  refine ⟨?_, fun hcounts hok => status_again hreachable.sound hcounts hok⟩
  apply Std.ExtTreeMap.ext_getElem?
  intro key
  rw [Store.getElem?_live, Store.getElem?_live]
  exact hsettles key

/-- A counter at 7 that is counted up to 8 and stays there. -/
theorem run_again_incr :
    let context : Context := ⟨⟨5000⟩, .absolute⟩
    let store := ((Command.set [107] ⟨[55], 1⟩ {} {}).run context .empty).2
    let first := (incr [107] 2 {}).run context store
    let second := (incr [107] 2 {}).run context first.2
    store.Reachable ∧ (incr [107] 2 {}).repeatable = true ∧ first.1 = ⟨.ok, .number 8⟩ ∧
      second.1.status = .versionMismatch ∧ second.2.live context.now = first.2.live context.now := by
  intro context store
  have hreachable : store.Reachable := Store.Reachable.empty.run _ _
  have hrepeatable : (incr [107] 2 {}).repeatable = true := rfl
  have hcounted : ((incr [107] 2 {}).run context store).1 = ⟨.ok, .number 8⟩ := by decide
  obtain ⟨hlive, hspent⟩ := run_again hreachable context hrepeatable
  exact ⟨hreachable, hrepeatable, hcounted, hspent rfl (congrArg Reply.status hcounted), hlive⟩

-- The two commands that cannot be repeated: each takes one member of two, and then the
-- other.
example :
    let context : Context := ⟨⟨5000⟩, .absolute⟩
    let pair := ((sadd [107] [⟨[97], 1⟩, ⟨[98], 1⟩] {}).run context .empty).2
    let popped := ((spop [107] 2 {}).run context pair).2
    let ranked := ((zadd [107] [⟨[97], 1, 1⟩, ⟨[98], 2, 1⟩] {}).run context .empty).2
    let trimmed := ((zremRangeByRank [107] 0 0 2 {}).run context ranked).2
    (popped.live? context.now [107]).isSome ∧
      (((spop [107] 2 {}).run context popped).2.live? context.now [107]).isNone ∧
      (trimmed.live? context.now [107]).isSome ∧
      (((zremRangeByRank [107] 0 0 2 {}).run context trimmed).2.live? context.now [107]).isNone := by
  decide

end Command

end Keyspace
