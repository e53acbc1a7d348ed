import Keyspace.Proofs.Admission
import Keyspace.Proofs.History

/-!
# Batches of writes

A batch plans all its items before it writes any of them, and for a key that an
earlier item is going to write it does not ask the store again but looks at the
version of that item.  This module compares it with its items written one by
one.

There are four groups.

* Single writes.  `judgement` is the status of a single write as a function of
  the record that it finds, and `run_single` is its run.
* The plan.  `plannedAll` gives the statuses of a batch and `on_setMany` its run.
* The overlay.  `Overlay` says how the store looks to the items when they are
  written one by one.  `Overlay.written` keeps it, and `Overlay.runAll_single`
  is the induction.
* The comparison.  `SeesItself` says that the look at the earlier item gives
  what a look at the store would give, and the batch is the sequence of its
  single writes exactly then.  It can fail in two ways: a demanded version is not
  checked against the earlier item, and the deadline of the batch is not looked
  at.
-/

namespace Keyspace.Strings

variable {store current : Store} {context : Context} {now : Millis} {key : Bytes} {item : Item}
  {terms : Terms} {mode : WriteMode} {pending : Std.ExtTreeMap Bytes Version}

/-! ## Single writes -/

/-- The status of a single write at version `offered`, given what the store
answers about its key. -/
def judgement (terms : Terms) (mode : WriteMode) (answer : Except Failure (Option Record))
    (offered : Version) : Status :=
  if offered = 0 then .error
  else match answer with
    | .error failure => failure.status
    | .ok found =>
      if terms.permit found then mode.verdict (found.map Record.version) offered
      else .versionMismatch

/-- A store that fails grants nothing. -/
theorem judgement_error_ne (failure : Failure) (offered : Version) :
    judgement terms mode (.error failure) offered ≠ .ok := by
  rw [judgement]
  split
  · decide
  · cases failure <;> decide

/-- A single write puts its string if it is granted and is refused otherwise. -/
theorem on_set (key : Bytes) (item : Item) (terms : Terms) (mode : WriteMode) :
    (set key item terms mode).on now store =
      if judgement terms mode (store.record now key) item.version = .ok then
        (query (.put key item (mode.deadline terms))).on now store
      else (.error (judgement terms mode (store.record now key) item.version), store) := by
  rw [set, Script.bind_eq, Script.on_bind, on_requireVersion]
  by_cases hzero : item.version = 0
  · have hjudge : judgement terms mode (store.record now key) item.version = .error :=
      if_pos hzero
    rw [if_pos hzero, hjudge, if_neg (by decide)]
  · rw [if_neg hzero]
    dsimp only
    rw [Strings.store, Script.bind_eq, Script.on_bind, on_checkTerms]
    cases hanswer : store.record now key with
    | error failure =>
      have hjudge : judgement terms mode (.error failure) item.version = failure.status :=
        if_neg hzero
      rw [if_neg (judgement_error_ne failure item.version), hjudge]
    | ok found =>
      have hjudge : judgement terms mode (.ok found) item.version =
          if terms.permit found then mode.verdict (found.map Record.version) item.version
          else .versionMismatch := if_neg hzero
      rw [hjudge]
      by_cases hpermit : terms.permit found = true
      · simp only [if_pos hpermit]
        cases mode.verdict (found.map Record.version) item.version <;> rfl
      · simp only [if_neg hpermit]
        rfl

/-- A granted write is newer than what it finds. -/
theorem lt_of_judgement {found : Option Record} {offered : Version}
    (h : judgement terms mode (.ok found) offered = .ok) {record : Record}
    (hfound : found = some record) : record.version < offered := by
  subst hfound
  rw [judgement] at h
  split at h
  · cases h
  · split at h
    · exact WriteMode.lt_of_verdict h
    · cases h

/-- The store after a string has been put. -/
def written (now : Millis) (store : Store) (write : Write) : Store :=
  (store.perform now (.put write.key write.item write.deadline)).2

theorem closed_written (now : Millis) (store : Store) (write : Write) :
    (written now store write).closed = store.closed :=
  Store.closed_perform (by simp)

theorem closed_foldl_written (writes : List Write) (store : Store) :
    (writes.foldl (written now) store).closed = store.closed := by
  induction writes generalizing store with
  | nil => rfl
  | cons write rest ih => exact (ih _).trans (closed_written now store write)

theorem perform_put (hopen : store.closed = false) (write : Write) :
    store.perform now (.put write.key write.item write.deadline) =
      (.ok (), written now store write) :=
  Prod.ext (Store.fst_perform_put hopen _ _ _) rfl

/-- One write of a batch as a command of its own. -/
def single (context : Context) (terms : Terms) (mode : WriteMode) (entry : Bytes × Item) : Step :=
  ⟨context, .set entry.1 entry.2 terms mode⟩

/-- Only an open store grants a write. -/
theorem open_of_judgement {offered : Version}
    (h : judgement terms mode (store.record now key) offered = .ok) : store.closed = false := by
  cases hclosed : store.closed with
  | false => rfl
  | true =>
    rw [Store.record_closed hclosed] at h
    exact absurd h (judgement_error_ne _ _)

/-- A single write replies with its judgement and writes if it is granted. -/
theorem run_single (entry : Bytes × Item) :
    (single context terms mode entry).run store =
      (⟨judgement terms mode (store.record context.now entry.1) entry.2.version, .nothing⟩,
        if judgement terms mode (store.record context.now entry.1) entry.2.version = .ok then
          written context.now store ⟨entry.1, entry.2, mode.deadline terms⟩
        else store) := by
  have hrun : (single context terms mode entry).run store = _ :=
    Command.run_of_reply (by rfl) store
  rw [hrun, single, on_set]
  by_cases h : judgement terms mode (store.record context.now entry.1) entry.2.version = .ok
  · have hput : (query (.put entry.1 entry.2 (mode.deadline terms))).on context.now store =
        (.ok (), written context.now store ⟨entry.1, entry.2, mode.deadline terms⟩) := by
      rw [Script.on_query, Store.fst_perform_put (open_of_judgement h)]
      rfl
    rw [if_pos h, if_pos h, h, hput]
  · rw [if_neg h, if_neg h]
    rfl

/-! ## The plan -/

/-- The status of one item of a batch. -/
def planned (terms : Terms) (mode : WriteMode) (store : Store) (now : Millis)
    (pending : Std.ExtTreeMap Bytes Version) (key : Bytes) (item : Item) : Status :=
  if item.version = 0 then .error
  else match pending[key]? with
    | some version => mode.verdict (some version) item.version
    | none => judgement terms mode (store.record now key) item.version

/-- The statuses of the items of a batch. -/
def plannedAll (terms : Terms) (mode : WriteMode) (store : Store) (now : Millis) :
    Std.ExtTreeMap Bytes Version → List (Bytes × Item) → List Status
  | _, [] => []
  | pending, (key, item) :: rest =>
    let status := planned terms mode store now pending key item
    let pending := if status = .ok then pending.insert key item.version else pending
    status :: plannedAll terms mode store now pending rest

theorem on_plan (pending : Std.ExtTreeMap Bytes Version) :
    (plan terms mode pending key item).on now store =
      (.ok (planned terms mode store now pending key item), store) := by
  rw [plan, planned]
  by_cases hzero : item.version = 0
  · rw [if_pos hzero, if_pos hzero]
    rfl
  · rw [if_neg hzero, if_neg hzero]
    cases pending[key]? with
    | some version => rfl
    | none =>
      dsimp only
      rw [Script.on_settle, Script.bind_eq, Script.on_bind, on_checkTerms]
      unfold judgement
      rw [if_neg hzero]
      cases store.record now key with
      | error failure => rfl
      | ok found =>
        by_cases hpermit : terms.permit found = true
        · simp only [if_pos hpermit]
          rfl
        · simp only [if_neg hpermit]

theorem on_planAll (pending : Std.ExtTreeMap Bytes Version) (items : List (Bytes × Item)) :
    (planAll terms mode pending items).on now store =
      (.ok (plannedAll terms mode store now pending items), store) := by
  induction items generalizing pending with
  | nil => rfl
  | cons entry rest ih =>
    rw [planAll, Script.bind_eq, Script.on_bind_ok (on_plan pending), Script.bind_eq,
      Script.on_bind_ok (ih _)]
    rfl

theorem length_plannedAll (pending : Std.ExtTreeMap Bytes Version)
    (items : List (Bytes × Item)) :
    (plannedAll terms mode store now pending items).length = items.length := by
  induction items generalizing pending with
  | nil => rfl
  | cons entry rest ih => rw [plannedAll, List.length_cons, ih, List.length_cons]

theorem on_putAll (hopen : store.closed = false) (writes : List Write) :
    (putAll writes).on now store = (.ok (), writes.foldl (written now) store) := by
  induction writes generalizing store with
  | nil => rfl
  | cons write rest ih =>
    have hput : (ask (.put write.key write.item write.deadline)).on now store =
        (.ok (), written now store write) := by
      rw [Script.on_ask, perform_put hopen]
    have hopen' : (written now store write).closed = false := by
      rw [closed_written, hopen]
    change ((ask (.put write.key write.item write.deadline)).bind fun _ =>
      putAll rest).on now store = _
    rw [Script.on_bind_ok hput, ih hopen']
    rfl

/-- The writes of a batch item by item. -/
theorem writes_cons (deadline : Option Millis) (key : Bytes) (item : Item)
    (items : List (Bytes × Item)) (status : Status) (statuses : List Status) :
    writes deadline ((key, item) :: items) (status :: statuses) =
      if status = .ok then ⟨key, item, deadline⟩ :: writes deadline items statuses
      else writes deadline items statuses := by
  rw [writes, List.zip_cons_cons, List.filterMap_cons]
  by_cases hok : status = .ok
  · simp only [if_pos hok]
    rfl
  · simp only [if_neg hok]
    rfl

/-- Nothing is granted by a closed store, so nothing is written to it. -/
theorem writes_closed (hclosed : store.closed = true) (deadline : Option Millis)
    (items : List (Bytes × Item)) :
    writes deadline items (plannedAll terms mode store now ∅ items) = [] := by
  induction items with
  | nil => rfl
  | cons entry rest ih =>
    obtain ⟨key, item⟩ := entry
    have hrefused : planned terms mode store now ∅ key item ≠ .ok := by
      unfold planned
      split
      · decide
      · rw [Std.ExtTreeMap.getElem?_empty, Store.record_closed hclosed]
        exact judgement_error_ne _ _
    rw [plannedAll, writes_cons, if_neg hrefused, if_neg hrefused, ih]

/-- A batch answers with the planned statuses and puts what it has granted. -/
theorem on_setMany {items : List (Bytes × Item)} (hitems : items ≠ []) :
    (setMany items terms mode).on now store =
      (.ok (plannedAll terms mode store now ∅ items),
        (writes (mode.deadline terms) items (plannedAll terms mode store now ∅ items)).foldl
          (written now) store) := by
  have hsome : (requireSome items).on now store = (.ok (), store) := by
    rw [on_requireSome, if_neg]
    simpa using hitems
  have hput : ∀ statuses, statuses = plannedAll terms mode store now ∅ items →
      (putAll (writes (mode.deadline terms) items statuses)).on now store =
        (.ok (), (writes (mode.deadline terms) items statuses).foldl
          (written now) store) := by
    rintro statuses rfl
    cases hclosed : store.closed with
    | false => exact on_putAll hclosed _
    | true =>
      rw [writes_closed hclosed]
      rfl
  rw [setMany, Script.bind_eq, Script.on_bind_ok hsome, Script.bind_eq,
    Script.on_bind_ok (on_planAll ∅ items), Script.bind_eq, Script.on_bind, Script.on_outcome,
    hput _ rfl]
  rfl

/-! ## The overlay -/

/-- What a write of a batch at `version` leaves for the items after it to find:
nothing if the deadline of the batch has passed. -/
def rewritten (now : Millis) (deadline : Option Millis) (version : Version) : Option Record :=
  if deadline.any (· ≤ now) then none else some ⟨.string, version, deadline⟩

theorem map_record_live? (now : Millis) (item : Item) (version : Version)
    (deadline : Option Millis) :
    (Slot.live? now (some ⟨.string item, version, deadline⟩)).map Slot.record =
      rewritten now deadline version := by
  rw [Slot.live?_some, rewritten]
  change (if (deadline.any (· ≤ now)) = true then none else _).map Slot.record = _
  split <;> rfl

/-- A granted write leaves its record under its key and nothing else anywhere. -/
theorem record_written {write : Write}
    (h : judgement terms mode (store.record now write.key) write.item.version = .ok)
    (other : Bytes) :
    (written now store write).record now other =
      if write.key = other then .ok (rewritten now write.deadline write.item.version)
      else store.record now other := by
  have hopen := open_of_judgement h
  have hopen' : (written now store write).closed = false := by
    rw [closed_written, hopen]
  rw [Store.record_open hopen', Store.record_open hopen, written,
    Store.live?_perform hopen (by simp)]
  by_cases hkey : write.key = other
  · subst hkey
    have hcall : (Call.put write.key write.item write.deadline).key? = some write.key := rfl
    rw [if_pos hcall, if_pos rfl, Call.effect]
    cases hlive : store.live? now write.key with
    | none => rw [Slot.putItem, map_record_live?]
    | some old =>
      have hlt : old.version < write.item.version := by
        rw [Store.record_open hopen, hlive] at h
        exact lt_of_judgement h rfl
      have hmax : max write.item.version old.version = write.item.version := by grind
      rw [Slot.putItem, hmax, map_record_live?]
  · have hcall : (Call.put write.key write.item write.deadline).key? ≠ some other := by
      simpa [Call.key?] using hkey
    rw [if_neg hcall, if_neg hkey]

/-- The versions that the granted items of a batch write, the last one under
each key, on top of those that are pending already. -/
def granted (pending : Std.ExtTreeMap Bytes Version)
    (entries : List ((Bytes × Item) × Status)) : Std.ExtTreeMap Bytes Version :=
  entries.foldl (fun pending ((key, item), status) =>
    if status = .ok then pending.insert key item.version else pending) pending

/-- At every item whose key an earlier item has written, the shortcut that the
batch takes gives the verdict that a single write would get. -/
def SeesItself (now : Millis) (terms : Terms) (mode : WriteMode)
    (pending : Std.ExtTreeMap Bytes Version) (entries : List ((Bytes × Item) × Status)) : Prop :=
  ∀ before key item status after, entries = before ++ ((key, item), status) :: after →
    item.version ≠ 0 → ∀ earlier, (granted pending before)[key]? = some earlier →
      mode.verdict (some earlier) item.version =
        judgement terms mode (.ok (rewritten now (mode.deadline terms) earlier)) item.version

theorem seesItself_cons {pending : Std.ExtTreeMap Bytes Version} {status : Status}
    {entries : List ((Bytes × Item) × Status)} :
    SeesItself now terms mode pending (((key, item), status) :: entries) ↔
      (item.version ≠ 0 → ∀ earlier, pending[key]? = some earlier →
        mode.verdict (some earlier) item.version =
          judgement terms mode (.ok (rewritten now (mode.deadline terms) earlier))
            item.version) ∧
      SeesItself now terms mode
        (if status = .ok then pending.insert key item.version else pending) entries := by
  constructor
  · intro h
    refine ⟨h [] key item status entries rfl, ?_⟩
    intro before key' item' status' after hsplit
    exact h (((key, item), status) :: before) key' item' status' after (by rw [hsplit]; rfl)
  · rintro ⟨hhead, htail⟩ before key' item' status' after hsplit
    cases before with
    | nil =>
      cases hsplit
      exact hhead
    | cons first before =>
      cases hsplit
      exact htail before key' item' status' after rfl

/-- How the store looks to the items of a batch that are written one by one:
keys with pending writes hold what these leave, other keys what they held. -/
def Overlay (now : Millis) (deadline : Option Millis)
    (pending : Std.ExtTreeMap Bytes Version) (store current : Store) : Prop :=
  ∀ key, current.record now key =
    match pending[key]? with
    | some version => .ok (rewritten now deadline version)
    | none => store.record now key

theorem Overlay.refl (store : Store) (now : Millis) (deadline : Option Millis) :
    Overlay now deadline ∅ store store := by
  intro key
  rw [Std.ExtTreeMap.getElem?_empty]

theorem Overlay.written {deadline : Option Millis} (h : Overlay now deadline pending store current)
    (hok : judgement terms mode (current.record now key) item.version = .ok) :
    Overlay now deadline (pending.insert key item.version) store
      (written now current ⟨key, item, deadline⟩) := by
  intro other
  have hwritten : (Strings.written now current ⟨key, item, deadline⟩).record now other = _ :=
    record_written hok other
  rw [hwritten, Std.ExtTreeMap.getElem?_insert]
  by_cases hkey : key = other
  · simp [hkey]
  · simp [hkey, h other]

/-- One item of a batch gets the status of a single write exactly if the
shortcut, where it is taken, gives it the right verdict. -/
theorem Overlay.judgement_eq_iff (h : Overlay now (mode.deadline terms) pending store current)
    (key : Bytes) (item : Item) :
    judgement terms mode (current.record now key) item.version =
        planned terms mode store now pending key item ↔
      (item.version ≠ 0 → ∀ earlier, pending[key]? = some earlier →
        mode.verdict (some earlier) item.version =
          judgement terms mode (.ok (rewritten now (mode.deadline terms) earlier))
            item.version) := by
  rw [h key, planned]
  by_cases hzero : item.version = 0
  · have hjudge : ∀ answer, judgement terms mode answer item.version = .error :=
      fun _ => if_pos hzero
    rw [if_pos hzero, hjudge]
    exact ⟨fun _ hne => absurd hzero hne, fun _ => rfl⟩
  · rw [if_neg hzero]
    cases hpending : pending[key]? with
    | none => simp
    | some earlier =>
      constructor
      · intro heq _ version hversion
        cases hversion
        exact heq.symm
      · intro hshortcut
        exact (hshortcut hzero earlier rfl).symm

/-- Written one by one, the items of a batch get the statuses of the batch
exactly if it sees its own writes as they do; then they also leave what the
batch leaves. -/
theorem Overlay.runAll_single (h : Overlay context.now (mode.deadline terms) pending store current)
    (items : List (Bytes × Item)) :
    let statuses := plannedAll terms mode store context.now pending items
    let singles := runAll (items.map (single context terms mode)) current
    (singles.1.map Reply.status = statuses ↔
      SeesItself context.now terms mode pending (items.zip statuses)) ∧
    (singles.1.map Reply.status = statuses →
      singles.2 = (writes (mode.deadline terms) items statuses).foldl
        (Strings.written context.now) current) := by
  induction items generalizing pending current with
  | nil =>
    refine ⟨⟨fun _ before key item status after hsplit => ?_, fun _ => rfl⟩, fun _ => rfl⟩
    cases before <;> cases hsplit
  | cons entry rest ih =>
    obtain ⟨key, item⟩ := entry
    have hhead := h.judgement_eq_iff key item
    simp only [plannedAll, List.map_cons, runAll_cons, run_single, List.zip_cons_cons,
      seesItself_cons, List.cons.injEq, writes_cons]
    rw [← hhead]
    by_cases hagree : judgement terms mode (current.record context.now key) item.version =
        planned terms mode store context.now pending key item
    · rw [hagree]
      by_cases hok : planned terms mode store context.now pending key item = .ok
      · have hnext := ih (h.written (hagree.trans hok))
        simp only [if_pos hok, true_and]
        exact hnext
      · have hnext := ih h
        simp only [if_neg hok, true_and]
        exact hnext
    · simp only [hagree, false_and, iff_self, false_implies, and_self]

/-! ## The comparison -/

/-- Without a demanded version and without a deadline that has passed, a look
at the store finds the earlier item as it was written. -/
theorem seesItself_of_live (hexpected : terms.expected = none)
    (hdeadline : (mode.deadline terms).any (· ≤ now) = false)
    (entries : List ((Bytes × Item) × Status)) :
    SeesItself now terms mode pending entries := by
  intro before key item status after _ hversion earlier _
  have hpermit : ∀ found, terms.permit found = true := by
    intro found
    rw [Terms.permit, hexpected]
  have hjudge : ∀ found, judgement terms mode (.ok found) item.version =
      mode.verdict (found.map Record.version) item.version := by
    intro found
    rw [judgement, if_neg hversion, if_pos (hpermit found)]
  rw [hjudge, rewritten, hdeadline]
  rfl

/-- Only keys of the batch become pending. -/
theorem mem_of_granted {entries : List ((Bytes × Item) × Status)} {version : Version}
    (h : (granted pending entries)[key]? = some version) :
    pending[key]? = some version ∨ key ∈ entries.map (·.1.1) := by
  induction entries generalizing pending with
  | nil => exact .inl h
  | cons entry rest ih =>
    obtain ⟨⟨other, item⟩, status⟩ := entry
    rw [List.map_cons, List.mem_cons]
    by_cases hkey : key = other
    · exact .inr (.inl hkey)
    · rcases ih h with hpending | hrest
      · left
        dsimp only at hpending
        split at hpending
        · simpa [Std.ExtTreeMap.getElem?_insert, Ne.symm hkey] using hpending
        · exact hpending
      · exact .inr (.inr hrest)

/-- Where no key comes twice, no item looks at an earlier one. -/
theorem seesItself_of_nodup {items : List (Bytes × Item)} {statuses : List Status}
    (hkeys : (items.map Prod.fst).Nodup) (hlength : items.length ≤ statuses.length) :
    SeesItself now terms mode ∅ (items.zip statuses) := by
  intro before key item status after hsplit _ earlier hearlier
  rcases mem_of_granted hearlier with hempty | hbefore
  · rw [Std.ExtTreeMap.getElem?_empty] at hempty
    cases hempty
  · have hitems : items = before.map Prod.fst ++ (key, item) :: after.map Prod.fst := by
      rw [← List.map_fst_zip hlength, hsplit, List.map_append, List.map_cons]
    rw [hitems, List.map_append, List.map_cons, List.nodup_append] at hkeys
    have hmem : key ∈ (before.map Prod.fst).map Prod.fst := by
      rw [List.map_map]
      exact hbefore
    exact absurd rfl (hkeys.2.2 key hmem key List.mem_cons_self)

/-- A batch is the sequence of its single writes exactly if it sees its own
writes as they do.  That is so if it demands no version and gives no deadline
that has passed, and also if no key comes twice. -/
theorem mset_eq_sets_iff (context : Context) (store : Store) {items : List (Bytes × Item)}
    (hitems : items ≠ []) (terms : Terms) (mode : WriteMode) :
    ∃ statuses after,
      (Command.mset items terms mode).run context store = (⟨.ok, .statuses statuses⟩, after) ∧
      statuses.length = items.length ∧
      let singles := runAll (items.map (single context terms mode)) store
      let same := singles.1.map Reply.status = statuses ∧ singles.2 = after
      (same ↔ SeesItself context.now terms mode ∅ (items.zip statuses)) ∧
      (terms.expected = none → (mode.deadline terms).any (· ≤ context.now) = false → same) ∧
      ((items.map Prod.fst).Nodup → same) := by
  have hrun : (Command.mset items terms mode).run context store = _ :=
    Command.run_of_reply (by rfl) store
  rw [on_setMany hitems] at hrun
  have hlength : (plannedAll terms mode store context.now ∅ items).length = items.length :=
    length_plannedAll ∅ items
  have hoverlay := Overlay.refl store context.now (mode.deadline terms)
  obtain ⟨hiff, hafter⟩ := hoverlay.runAll_single items
  refine ⟨_, _, hrun, hlength, ?_⟩
  refine ⟨⟨fun h => hiff.mp h.1, fun h => ⟨hiff.mpr h, hafter (hiff.mpr h)⟩⟩, ?_, ?_⟩
  · intro hexpected hdeadline
    have h := hiff.mpr (seesItself_of_live hexpected hdeadline _)
    exact ⟨h, hafter h⟩
  · intro hkeys
    have h := hiff.mpr (seesItself_of_nodup hkeys (Nat.le_of_eq hlength.symm))
    exact ⟨h, hafter h⟩

theorem mset_eq_sets_iff_twice :
    let context : Context := ⟨⟨5000⟩, .absolute⟩
    let items : List (Bytes × Item) := [([107], ⟨[97], 1⟩), ([107], ⟨[98], 2⟩)]
    items ≠ [] ∧
      ((Command.mset items {} {}).run context .empty).2 =
        (runAll (items.map (single context {} {})) .empty).2 := by
  intro context items
  have hitems : items ≠ [] := by decide
  obtain ⟨statuses, after, hrun, _, _, hlive, _⟩ :=
    mset_eq_sets_iff context .empty hitems {} {}
  rw [hrun]
  exact ⟨hitems, (hlive rfl rfl).2.symm⟩

/-- The two ways in which a batch departs from its single writes.  The second
item is written although the key no longer has the version that is demanded; and
it is refused although the first one has expired at once. -/
theorem mset_ne_sets :
    let context : Context := ⟨⟨5000⟩, .absolute⟩
    let twice : List (Bytes × Item) := [([107], ⟨[97], 5⟩), ([107], ⟨[98], 6⟩)]
    let older : List (Bytes × Item) := [([107], ⟨[97], 5⟩), ([107], ⟨[98], 3⟩)]
    let expired : WriteMode := { appliesDeadline := true }
    ((Command.mset twice (.expecting 0) {}).run context .empty).1 =
        ⟨.ok, .statuses [.ok, .ok]⟩ ∧
      (runAll (twice.map (single context (.expecting 0) {})) .empty).1.map Reply.status =
        [.ok, .versionMismatch] ∧
      ((Command.mset older ⟨none, 1⟩ expired).run context .empty).1 =
        ⟨.ok, .statuses [.ok, .versionMismatch]⟩ ∧
      (runAll (older.map (single context ⟨none, 1⟩ expired)) .empty).1.map Reply.status =
        [.ok, .ok] := by
  decide

end Keyspace.Strings
