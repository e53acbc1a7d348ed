import Keyspace.Proofs.Deletion
import Keyspace.Proofs.Faults
import Keyspace.Proofs.Overwrites

/-!
# Batches on a failing store

`mset` and `del` find out about all their keys first and then write them in one
go, up to the first failure, and a failure spoils the status of every item that was
to be written.  This module says how far the statuses can be trusted then.

* Planning.  What a batch grants in spite of faults it would grant without them
  (`Strings.run_planAll`, `Keys.run_judgeAll`).
* Writing.  The writing is done as a whole, or its failure spoils every success
  (`Strings.run_setMany`, `Keys.run_delete`).
* Reports.  So the reports of a batch are accurate if and only if one of them is a
  success or nothing has changed (`Command.reports_accurate_iff`).  They are not on
  a store that fails midway: the items before the failure have been written and
  are reported as failed.
-/

namespace Keyspace

variable {now : Millis} {faulty : FaultyStore} {context : Context} {key : Bytes}
  {version : Version} {item : Item} {terms : Terms} {mode : WriteMode}

/-- Where no key comes twice, the key of an item decides the item and what has come
of it. -/
theorem eq_of_key_eq {β γ : Type} {items : List (Bytes × β)} {results : List γ}
    (hdistinct : (items.map Prod.fst).Nodup) (hlength : results.length = items.length)
    {first second : (Bytes × β) × γ} (hfirst : first ∈ items.zip results)
    (hsecond : second ∈ items.zip results) (hkey : first.1.1 = second.1.1) : first = second := by
  have hnodup : ((items.zip results).map fun pair => pair.1.1).Nodup := by
    have hitems : (items.zip results).map Prod.fst = items :=
      List.map_fst_zip (Nat.le_of_eq hlength.symm)
    rwa [← hitems, List.map_map] at hdistinct
  exact List.inj_on_of_nodup_map hnodup hfirst hsecond hkey

/-! ## Planning -/

namespace Strings

/-- An item is granted in spite of faults only if it would be granted without
them. -/
theorem run_plan (h : faulty.Honest) (now : Millis) (terms : Terms) (mode : WriteMode)
    {pending : Std.ExtTreeMap Bytes Version} (hpending : pending[key]? = none) (item : Item) :
    ∃ status after, (plan terms mode pending key item).run (FaultyStore.perform now) faulty =
        (.ok status, after) ∧ (after.Honest ∧ after.store = faulty.store) ∧
      (status = .ok → judgement terms mode (faulty.store.record now key) item.version = .ok) := by
  rw [plan]
  by_cases hzero : item.version = 0
  · rw [if_pos hzero]
    exact ⟨.error, faulty, rfl, ⟨h, rfl⟩, fun hok => by cases hok⟩
  · rw [if_neg hzero, hpending]
    obtain ⟨answer, after, hrun, hafter, htruth⟩ := h.run_query_record now key
    dsimp only
    refine ⟨_, _, Script.run_settle _ _ _, ?_⟩
    rw [Script.bind_eq, Script.run_bind, checkTerms, Script.bind_eq, Script.run_bind, hrun]
    cases answer with
    | error failure => exact ⟨hafter, fun hok => absurd hok (common_ne_ok.failure failure)⟩
    | ok found =>
      rw [htruth found rfl, judgement, if_neg hzero]
      by_cases hpermit : terms.permit found = true
      · simp only [Except.mapError, if_pos hpermit]
        exact ⟨hafter, id⟩
      · simp only [Except.mapError, if_neg hpermit]
        exact ⟨hafter, fun hok => by cases hok⟩

/-- The items of a batch that are granted in spite of faults would be granted
without them, each by itself. -/
theorem run_planAll (h : faulty.Honest) (now : Millis) (terms : Terms) (mode : WriteMode)
    {items : List (Bytes × Item)} (hdistinct : (items.map Prod.fst).Nodup)
    {pending : Std.ExtTreeMap Bytes Version}
    (hpending : ∀ entry ∈ items, pending[entry.1]? = none) :
    ∃ statuses after,
      (planAll terms mode pending items).run (FaultyStore.perform now) faulty =
        (.ok statuses, after) ∧ (after.Honest ∧ after.store = faulty.store) ∧
      statuses.length = items.length ∧
      ∀ entry status, (entry, status) ∈ items.zip statuses → status = .ok →
        judgement terms mode (faulty.store.record now entry.1) entry.2.version = .ok := by
  induction items generalizing faulty pending with
  | nil => exact ⟨[], faulty, rfl, ⟨h, rfl⟩, rfl, fun _ _ hmem => nomatch hmem⟩
  | cons entry rest ih =>
    obtain ⟨key, item⟩ := entry
    obtain ⟨hfresh, hrest⟩ := List.nodup_cons.mp hdistinct
    obtain ⟨hkey, hothers⟩ := List.forall_mem_cons.mp hpending
    obtain ⟨status, between, hfirst, ⟨hhonest, hstore⟩, hgranted⟩ :=
      run_plan h now terms mode hkey item
    have hunplanned : ∀ other ∈ rest, (if status = .ok then pending.insert key item.version
        else pending)[other.1]? = none := by
      intro other hother
      have hne : key ≠ other.1 := fun hsame => hfresh (List.mem_map.mpr ⟨other, hother, hsame.symm⟩)
      split
      · rw [Std.ExtTreeMap.getElem?_insert, if_neg, hothers other hother]
        rwa [Std.compare_eq_iff_eq]
      · exact hothers other hother
    obtain ⟨statuses, after, hlater, ⟨hhonest', hstore'⟩, hlength, hgranted'⟩ :=
      ih hhonest hrest hunplanned
    rw [hstore] at hstore' hgranted'
    refine ⟨status :: statuses, after, ?_, ⟨hhonest', hstore'⟩, congrArg (· + 1) hlength, ?_⟩
    · rw [planAll, Script.bind_eq, Script.run_bind, hfirst]
      dsimp only
      rw [Script.bind_eq, Script.run_bind, hlater]
      rfl
    · intro other found hmem
      rcases List.mem_cons.mp hmem with hsame | hmem
      · cases hsame
        exact hgranted
      · exact hgranted' other found hmem

end Strings

namespace Keys

/-- What a deletion may find out about a key in spite of faults: a failure, which
dooms nothing, or the true verdict. -/
def Finding (terms : Terms) (now : Millis) (store : Store) (entry : Bytes × Version)
    (found : Verdict) : Prop :=
  (∃ failure : Failure, found = ⟨failure.status, false⟩) ∨
    store.closed = false ∧ found = verdictOn terms now store entry

theorem run_judge (h : faulty.Honest) (now : Millis) (terms : Terms) (entry : Bytes × Version) :
    ∃ found after, (judge entry.1 entry.2 terms).run (FaultyStore.perform now) faulty =
        (.ok found, after) ∧ (after.Honest ∧ after.store = faulty.store) ∧
      Finding terms now faulty.store entry found := by
  obtain ⟨answer, after, hrun, hafter, htruth⟩ := h.run_query_record now entry.1
  rw [judge, Script.bind_eq, Script.run_bind, Script.run_outcome, hrun]
  cases answer with
  | error failure => exact ⟨_, after, rfl, hafter, .inl ⟨failure, rfl⟩⟩
  | ok found =>
    obtain ⟨hopen, hfound⟩ := Store.record_eq_ok.mp (htruth found rfl)
    refine ⟨_, after, rfl, hafter, .inr ⟨hopen, ?_⟩⟩
    rw [verdictOn, hfound]

theorem run_judgeAll (h : faulty.Honest) (now : Millis) (terms : Terms)
    (entries : List (Bytes × Version)) :
    ∃ verdicts after, (entries.mapM fun (key, version) => judge key version terms).run
        (FaultyStore.perform now) faulty = (.ok verdicts, after) ∧
      (after.Honest ∧ after.store = faulty.store) ∧ verdicts.length = entries.length ∧
      ∀ entry found, (entry, found) ∈ entries.zip verdicts →
        Finding terms now faulty.store entry found := by
  refine Script.run_mapM (FaultyStore.perform now) ?_ entries ⟨h, rfl⟩
  rintro entry state ⟨hhonest, hstore⟩
  rw [← hstore]
  exact run_judge hhonest now terms entry

end Keys

/-! ## Writing -/

/-- A failure leaves no success. -/
theorem Status.ne_ok_of_spoiled {failure : Failure} {statuses : List Status} :
    ∀ status ∈ statuses.map (spoiledBy failure), status ≠ .ok := by
  intro _ hmem
  obtain ⟨status, _, rfl⟩ := List.mem_map.mp hmem
  rw [spoiledBy]
  split
  · exact common_ne_ok.failure failure
  · rename_i hstatus
    exact hstatus

namespace Strings

section Distinct

variable {store : Store} {items : List (Bytes × Item)} {statuses : List Status}

/-- Writes under distinct keys rise if each is granted by itself. -/
theorem rising_granted (hdistinct : (items.map Prod.fst).Nodup)
    (hlength : statuses.length = items.length)
    (hgranted : ∀ entry status, (entry, status) ∈ items.zip statuses → status = .ok →
      judgement terms mode (store.record now entry.1) entry.2.version = .ok)
    (deadline : Option Millis) : Rising now store (writes deadline items statuses) := by
  refine ⟨fun write hwrite => ?_, ?_⟩
  · have hadmits := Store.Admits.of_judgement (hgranted _ _ (mem_zip_of_mem_writes hwrite).1 rfl)
    exact ⟨hadmits.ne_zero, nofun, hadmits.newer⟩
  · have hkeys : (items.zip statuses).Pairwise fun a b => a.1.1 ≠ b.1.1 := by
      rw [← List.map_fst_zip (Nat.le_of_eq hlength.symm), List.map_map] at hdistinct
      exact List.pairwise_map.mp hdistinct
    refine List.pairwise_filterMap.mpr (hkeys.imp ?_)
    intro a b hne first hfirst second hsecond hkey
    obtain ⟨_, ⟨⟩⟩ := Option.ite_none_right_eq_some.mp hfirst
    obtain ⟨_, ⟨⟩⟩ := Option.ite_none_right_eq_some.mp hsecond
    exact absurd hkey hne

/-- Distinct items that are granted each by itself are what is kept under their keys
once they are written, and the keys of the others stay as they are. -/
theorem getElem?_foldl_granted (hdistinct : (items.map Prod.fst).Nodup)
    (hlength : statuses.length = items.length)
    (hgranted : ∀ entry status, (entry, status) ∈ items.zip statuses → status = .ok →
      judgement terms mode (store.record now entry.1) entry.2.version = .ok)
    {entry : Bytes × Item} {status : Status} (hmem : (entry, status) ∈ items.zip statuses)
    (deadline : Option Millis) :
    ((writes deadline items statuses).foldl (written now) store).slots[entry.1]? =
      if status = .ok then some ⟨.string entry.2, entry.2.version, deadline⟩
      else store.slots[entry.1]? := by
  have hsame {write : Write} (hwrite : write ∈ writes deadline items statuses)
      (hkey : write.key = entry.1) :
      write = ⟨entry.1, entry.2, deadline⟩ ∧ status = .ok := by
    obtain ⟨hgrant, hdeadline⟩ := mem_zip_of_mem_writes hwrite
    cases eq_of_key_eq hdistinct hlength hgrant hmem hkey
    exact ⟨by rw [← hdeadline], rfl⟩
  split
  · rename_i hok
    have hopen := open_of_judgement (hgranted entry status hmem hok)
    have hwrite : ⟨entry.1, entry.2, deadline⟩ ∈ writes deadline items statuses :=
      List.mem_filterMap.mpr ⟨_, hmem, if_pos hok⟩
    obtain ⟨last, hlast, hkey, _, hslot⟩ :=
      (rising_granted hdistinct hlength hgranted deadline).getElem?_foldl hopen hwrite
    rw [hslot, (hsame hlast hkey).1]
  · rename_i hfailed
    exact getElem?_foldl_written (fun write hwrite hkey => hfailed (hsame hwrite hkey).2) store

end Distinct

/-- A batch reports no success, or it has written all the items that it reports as
successes, and these would be granted without faults. -/
theorem run_setMany (h : faulty.Honest) (now : Millis) (terms : Terms) (mode : WriteMode)
    {items : List (Bytes × Item)} (hitems : items ≠ []) (hdistinct : (items.map Prod.fst).Nodup) :
    ∃ statuses after, (setMany items terms mode).run (FaultyStore.perform now) faulty =
        (.ok statuses, after) ∧ statuses.length = items.length ∧
      ((∀ status ∈ statuses, status ≠ .ok) ∨
        after.store = (writes (mode.deadline terms) items statuses).foldl (written now)
          faulty.store ∧
        ∀ entry status, (entry, status) ∈ items.zip statuses → status = .ok →
          judgement terms mode (faulty.store.record now entry.1) entry.2.version = .ok) := by
  obtain ⟨statuses, between, hplan, ⟨hhonest, hstore⟩, hlength, hgranted⟩ :=
    run_planAll h now terms mode hdistinct fun _ _ => Std.ExtTreeMap.getElem?_empty
  have hsome : requireSome items = .done () := if_neg (by simpa using hitems)
  rw [setMany, hsome, Script.bind_eq, Script.bind, Script.bind_eq, Script.run_bind, hplan]
  dsimp only
  rw [Script.bind_eq, Script.run_bind, Script.run_outcome]
  cases hput : (putAll (writes (mode.deadline terms) items statuses)).run
      (FaultyStore.perform now) between with
  | mk ending after =>
    cases ending with
    | error failure =>
      exact ⟨_, after, rfl, (List.length_map _).trans hlength, .inl Status.ne_ok_of_spoiled⟩
    | ok _ =>
      refine ⟨statuses, after, rfl, hlength, ?_⟩
      cases hclosed : faulty.store.closed with
      | true =>
        refine .inl fun status hstatus hok => ?_
        rw [← List.map_snd_zip (Nat.le_of_eq hlength), List.mem_map] at hstatus
        obtain ⟨pair, hpair, rfl⟩ := hstatus
        have hopen := open_of_judgement (hgranted _ _ hpair hok)
        rw [hclosed] at hopen
        cases hopen
      | false =>
        have hstrict : (putAll (writes (mode.deadline terms) items statuses)).Strict :=
          .forM (fun write => .ask _) _
        have hon := hhonest.on_of_run hstrict hput
        rw [hstore, on_putAll hclosed] at hon
        exact .inr ⟨(congrArg Prod.snd hon).symm, hgranted⟩

end Strings

namespace Keys

/-- A success dooms its key, and otherwise only absent keys are doomed. -/
theorem Finding.doomed {store : Store} {entry : Bytes × Version} {found : Verdict}
    (h : Finding terms now store entry found) :
    if found.status = .ok then found.doomed = true
    else found.doomed = true → store.live? now entry.1 = none := by
  rcases h with ⟨failure, rfl⟩ | ⟨_, rfl⟩
  · rw [if_neg (common_ne_ok.failure failure)]
    exact nofun
  · unfold verdictOn verdict
    cases store.live? now entry.1 with
    | none => exact fun _ => rfl
    | some slot => grind

/-- The keys that a deletion goes on to delete. -/
def condemned (keys : List Bytes) (verdicts : List Verdict) : List Bytes :=
  ((keys.zip verdicts).filter (·.2.doomed)).map Prod.fst

/-- Among distinct keys the verdict on a key alone decides whether it is deleted. -/
theorem mem_condemned_iff {entries : List (Bytes × Version)} {verdicts : List Verdict}
    (hdistinct : (entries.map Prod.fst).Nodup) (hlength : verdicts.length = entries.length)
    {entry : Bytes × Version} {found : Verdict} (hmem : (entry, found) ∈ entries.zip verdicts) :
    entry.1 ∈ condemned (entries.map Prod.fst) verdicts ↔ found.doomed = true := by
  have hzip : (entries.map Prod.fst).zip verdicts =
      (entries.zip verdicts).map fun pair => (pair.1.1, pair.2) := List.zip_map_left
  rw [condemned, hzip, List.mem_map]
  constructor
  · rintro ⟨other, hother, hsame⟩
    obtain ⟨hmem', hdoomed⟩ := List.mem_filter.mp hother
    obtain ⟨another, hanother, rfl⟩ := List.mem_map.mp hmem'
    cases eq_of_key_eq hdistinct hlength hanother hmem hsame
    exact hdoomed
  · intro hdoomed
    exact ⟨_, List.mem_filter.mpr ⟨List.mem_map_of_mem hmem, hdoomed⟩, rfl⟩

/-- A deletion judges its keys, deletes the condemned ones and spoils its statuses if
that fails. -/
theorem run_delete_eq {keys : List Bytes} {versions : List Version}
    (hlength : keys.length = versions.length) {verdicts : List Verdict} {between : FaultyStore}
    (hjudge : ((keys.zip versions).mapM fun (key, version) => judge key version terms).run
      (FaultyStore.perform now) faulty = (.ok verdicts, between)) :
    (delete keys versions terms).run (FaultyStore.perform now) faulty =
      match (deleteAll (condemned keys verdicts)).run (FaultyStore.perform now) between with
      | (.ok _, after) => (.ok (verdicts.map Verdict.status), after)
      | (.error failure, after) =>
        (.ok ((verdicts.map Verdict.status).map (.spoiledBy failure)), after) := by
  rw [delete, if_neg (fun hne => hne hlength), Script.bind_eq, Script.run_bind, hjudge]
  dsimp only
  rw [Script.bind_eq, Script.run_bind, Script.run_outcome, ← condemned]
  rcases (deleteAll (condemned keys verdicts)).run (FaultyStore.perform now) between with
    ⟨_ | _, after⟩ <;> rfl

/-- Every status of a deletion is that of a verdict on its key with the version that is
given for it. -/
theorem exists_verdict {keys : List Bytes} {versions : List Version} {verdicts : List Verdict}
    (hlength : keys.length = versions.length) {key : Bytes} {status : Status}
    (hpair : (key, status) ∈ keys.zip (verdicts.map Verdict.status)) :
    ∃ entry found, (entry, found) ∈ (keys.zip versions).zip verdicts ∧
      entry.1 = key ∧ found.status = status := by
  have hkeys : (keys.zip versions).map Prod.fst = keys := List.map_fst_zip (Nat.le_of_eq hlength)
  rw [← congrArg (List.zip · _) hkeys] at hpair
  change _ ∈ List.zip (List.map _ _) _ at hpair
  rw [List.zip_map, List.mem_map] at hpair
  obtain ⟨⟨entry, found⟩, hmem, hsame⟩ := hpair
  exact ⟨entry, found, hmem, Prod.mk.inj hsame⟩

/-- A deletion reports no success, or it has deleted all the keys that it reports
as successes and of the others only absent ones. -/
theorem run_delete (h : faulty.Honest) (now : Millis) (terms : Terms) {keys : List Bytes}
    (hdistinct : keys.Nodup) {versions : List Version} (hlength : keys.length = versions.length) :
    ∃ statuses after, (delete keys versions terms).run (FaultyStore.perform now) faulty =
        (.ok statuses, after) ∧ statuses.length = keys.length ∧
      ((∀ status ∈ statuses, status ≠ .ok) ∨ ∃ deleted : List Bytes,
        (∀ key, after.store.slots[key]? =
          if key ∈ deleted then none else faulty.store.slots[key]?) ∧
        ∀ key status, (key, status) ∈ keys.zip statuses →
          if status = .ok then key ∈ deleted
          else key ∈ deleted → faulty.store.live? now key = none) := by
  obtain ⟨verdicts, between, hjudge, ⟨hhonest, hstore⟩, hverdicts, hfinds⟩ :=
    run_judgeAll h now terms (keys.zip versions)
  have hkeys : (keys.zip versions).map Prod.fst = keys := List.map_fst_zip (Nat.le_of_eq hlength)
  have hstatuses : (verdicts.map Verdict.status).length = keys.length := by
    rw [List.length_map, hverdicts, ← congrArg List.length hkeys, List.length_map]
  rw [run_delete_eq hlength hjudge]
  cases hdelete : (deleteAll (condemned keys verdicts)).run (FaultyStore.perform now) between with
  | mk ending after =>
    cases ending with
    | error failure =>
      exact ⟨_, after, rfl, (List.length_map _).trans hstatuses, .inl Status.ne_ok_of_spoiled⟩
    | ok _ =>
      refine ⟨_, after, rfl, hstatuses, ?_⟩
      cases hclosed : faulty.store.closed with
      | true =>
        refine .inl fun status hstatus => ?_
        rw [← List.map_snd_zip (Nat.le_of_eq hstatuses), List.mem_map] at hstatus
        obtain ⟨pair, hpair, rfl⟩ := hstatus
        obtain ⟨entry, found, hmem, _, hfound⟩ := exists_verdict hlength hpair
        rw [← hfound]
        rcases hfinds entry found hmem with ⟨failure, rfl⟩ | ⟨hopen, _⟩
        · exact common_ne_ok.failure failure
        · rw [hclosed] at hopen
          cases hopen
      | false =>
        have hstrict : (deleteAll (condemned keys verdicts)).Strict :=
          Script.Strict.mapM (fun key => .ask (.delete key)) _
        have hon := hhonest.on_of_run hstrict hdelete
        obtain ⟨_, _, hon', hslots⟩ := on_deleteAll (hstore ▸ hclosed) (condemned keys verdicts)
        rw [hon] at hon'
        cases hon'
        rw [hstore] at hslots
        refine .inr ⟨condemned keys verdicts, hslots, fun key status hpair => ?_⟩
        obtain ⟨entry, found, hmem, rfl, rfl⟩ := exists_verdict hlength hpair
        have hiff := mem_condemned_iff (hkeys.symm ▸ hdistinct) hverdicts hmem
        rw [hkeys] at hiff
        rw [hiff]
        exact (hfinds entry found hmem).doomed

end Keys

/-! ## Reports -/

/-- What a batch says of one of its keys, and what is kept under the key once its
item has had its effect. -/
structure Report where
  key : Bytes
  status : Status
  applied : Option Slot

/-- Whether a report is accurate: a success has had its effect, and anything else
has had none that could be seen. -/
def Report.Accurate (now : Millis) (before after : Store) (report : Report) : Prop :=
  if report.status = .ok then after.slots[report.key]? = report.applied
  else after.live? now report.key = before.live? now report.key

theorem Report.accurate_of {before after : Store} {report : Report}
    (hdone : report.status = .ok → after.slots[report.key]? = report.applied)
    (hleft : report.status ≠ .ok → after.live? now report.key = before.live? now report.key) :
    report.Accurate now before after := by
  unfold Accurate
  split
  · rename_i hok
    exact hdone hok
  · rename_i hfailed
    exact hleft hfailed

/-- If a batch reports no success or is accurate, then it is accurate exactly if it
reports a success or nothing has changed. -/
theorem accurate_iff {before after : Store} {reports : List Report}
    (hcases : (∀ report ∈ reports, report.status ≠ .ok) ∨
      ∀ report ∈ reports, report.Accurate now before after)
    (hframe : ∀ key, key ∉ reports.map Report.key → after.slots[key]? = before.slots[key]?) :
    (∀ report ∈ reports, report.Accurate now before after) ↔
      (∃ report ∈ reports, report.status = .ok) ∨
        ∀ key, after.live? now key = before.live? now key := by
  constructor
  · intro haccurate
    by_cases hsuccess : ∃ report ∈ reports, report.status = .ok
    · exact .inl hsuccess
    · refine .inr fun key => ?_
      by_cases hkey : key ∈ reports.map Report.key
      · obtain ⟨report, hreport, rfl⟩ := List.mem_map.mp hkey
        have hfailed : report.status ≠ .ok := fun hok => hsuccess ⟨report, hreport, hok⟩
        have hsame := haccurate report hreport
        rwa [Report.Accurate, if_neg hfailed] at hsame
      · rw [Store.live?_eq, hframe key hkey, Store.live?_eq]
  · rintro (⟨success, hmem, hok⟩ | hsame)
    · rcases hcases with hfailed | haccurate
      · exact absurd hok (hfailed success hmem)
      · exact haccurate
    · rcases hcases with hfailed | haccurate
      · intro report hreport
        rw [Report.Accurate, if_neg (hfailed report hreport)]
        exact hsame report.key
      · exact haccurate

namespace Command

/-- The keys of a batch, each with what is kept under it once its item has had its
effect. -/
def outcomes : Command → List (Bytes × Option Slot)
  | mset items terms mode => items.map fun (key, item) =>
    (key, some ⟨.string item, item.version, mode.deadline terms⟩)
  | del keys _ _ => keys.map fun key => (key, none)
  | _ => []

/-- What the reply to a batch says of its keys. -/
def reports (command : Command) (reply : Reply) : List Report :=
  match reply.data with
  | .statuses statuses => (command.outcomes.zip statuses).map fun ((key, applied), status) =>
    ⟨key, status, applied⟩
  | _ => []

/-- Whether a command plans what it writes under many keys and then writes it in
one go. -/
def batches : Command → Bool
  | mset .. | del .. => true
  | _ => false

variable {command : Command}

theorem map_key_reports (hbatch : command.batches = true) {statuses : List Status}
    (hlength : statuses.length = command.keys.length) :
    (command.reports ⟨.ok, .statuses statuses⟩).map Report.key = command.keys := by
  have houtcomes : command.outcomes.map Prod.fst = command.keys := by
    cases command with
    | mset items terms mode => exact List.map_map
    | del keys versions terms => exact List.map_map.trans (List.map_id keys)
    | _ => cases hbatch
  have hle : command.outcomes.length ≤ statuses.length :=
    Nat.le_of_eq (by rw [hlength, ← houtcomes, List.length_map])
  rw [reports, List.map_map, ← houtcomes]
  calc (command.outcomes.zip statuses).map _
    _ = ((command.outcomes.zip statuses).map Prod.fst).map Prod.fst := List.map_map.symm
    _ = command.outcomes.map Prod.fst := by rw [List.map_fst_zip hle]

/-- Whether a batch is refused and changes nothing, or reports no success, or its reports
are accurate. -/
def Accounts (context : Context) (faulty : FaultyStore) (command : Command) : Prop :=
  ((command.runFaulty context faulty).1.status ≠ .ok ∧
      (command.runFaulty context faulty).2.store = faulty.store ∧
      command.reports (command.runFaulty context faulty).1 = []) ∨
    ∃ statuses, (command.runFaulty context faulty).1 = ⟨.ok, .statuses statuses⟩ ∧
      statuses.length = command.keys.length ∧
      ((∀ status ∈ statuses, status ≠ .ok) ∨
        ∀ report ∈ command.reports ⟨.ok, .statuses statuses⟩,
          report.Accurate context.now faulty.store (command.runFaulty context faulty).2.store)

theorem accounts_mset (h : faulty.Honest) (context : Context) {items : List (Bytes × Item)}
    (hdistinct : (items.map Prod.fst).Nodup) (terms : Terms) (mode : WriteMode) :
    (mset items terms mode).Accounts context faulty := by
  have hrun : (mset items terms mode).runFaulty context faulty = _ :=
    runBy_of_reply (by rfl) (FaultyStore.perform context.now) faulty
  by_cases hitems : items = []
  · subst hitems
    exact .inl ⟨nofun, rfl, rfl⟩
  · obtain ⟨statuses, after, hset, hlength, hcases⟩ :=
      Strings.run_setMany h context.now terms mode hitems hdistinct
    rw [Accounts, hrun, hset]
    refine .inr ⟨statuses, rfl, hlength.trans (List.length_map _).symm, hcases.imp_right ?_⟩
    rintro ⟨hwritten, hgranted⟩ report hreport
    dsimp only [reports, outcomes] at hreport
    rw [List.zip_map_left, List.map_map, List.mem_map] at hreport
    obtain ⟨⟨entry, status⟩, hmem, rfl⟩ := hreport
    have hslot := Strings.getElem?_foldl_granted hdistinct hlength hgranted hmem
      (mode.deadline terms)
    rw [← hwritten] at hslot
    refine Report.accurate_of (fun hok : status = .ok => ?_) fun hfailed : status ≠ .ok => ?_
    · exact hslot.trans (if_pos hok)
    · exact congrArg (Slot.live? context.now) (hslot.trans (if_neg hfailed))

theorem accounts_del (h : faulty.Honest) (context : Context) {keys : List Bytes}
    (hdistinct : keys.Nodup) (versions : List Version) (terms : Terms) :
    (del keys versions terms).Accounts context faulty := by
  have hrun : (del keys versions terms).runFaulty context faulty = _ :=
    runBy_of_reply (by rfl) (FaultyStore.perform context.now) faulty
  by_cases hlength : keys.length = versions.length
  · obtain ⟨statuses, after, hdelete, hlength', hcases⟩ :=
      Keys.run_delete h context.now terms hdistinct hlength
    rw [Accounts, hrun, hdelete]
    refine .inr ⟨statuses, rfl, hlength', hcases.imp_right ?_⟩
    rintro ⟨deleted, hslots, hdeleted⟩ report hreport
    dsimp only [reports, outcomes] at hreport
    rw [List.zip_map_left, List.map_map, List.mem_map] at hreport
    obtain ⟨⟨key, status⟩, hmem, rfl⟩ := hreport
    have hkey := hdeleted key status hmem
    refine Report.accurate_of (fun hok : status = .ok => ?_) fun hfailed : status ≠ .ok => ?_
    · rw [if_pos hok] at hkey
      exact (hslots key).trans (if_pos hkey)
    · rw [if_neg hfailed] at hkey
      change after.store.live? context.now key = faulty.store.live? context.now key
      rw [Store.live?_eq, hslots key]
      split
      · rename_i hmem
        exact (hkey hmem).symm
      · rfl
  · have hrefused : Keys.delete keys versions terms = .refuse .error := if_pos hlength
    have hsilent : (del keys versions terms).reports ⟨.error, .statuses []⟩ = [] := by
      dsimp only [reports]
      rw [List.zip_nil_right, List.map_nil]
    rw [Accounts, hrun, hrefused]
    exact .inl ⟨nofun, rfl, hsilent⟩

theorem accounts_of_batches (h : faulty.Honest) (context : Context)
    (hbatch : command.batches = true) (hdistinct : command.keys.Nodup) :
    command.Accounts context faulty := by
  cases command with
  | mset items terms mode => exact accounts_mset h context hdistinct terms mode
  | del keys versions terms => exact accounts_del h context hdistinct versions terms
  | _ => cases hbatch

/-- A batch over distinct keys reports on each of them unless it is refused.  What it
reports as a success has been done, whatever has failed.  All that it reports is
accurate if and only if there is a success among it or nothing has changed. -/
theorem reports_accurate_iff (h : faulty.Honest) (hbatch : command.batches = true)
    (hdistinct : command.keys.Nodup) :
    let run := command.runFaulty context faulty
    let reports := command.reports run.1
    (run.1.status = .ok → reports.map Report.key = command.keys) ∧
      (∀ report ∈ reports, report.status = .ok →
        run.2.store.slots[report.key]? = report.applied) ∧
      ((∀ report ∈ reports, report.Accurate context.now faulty.store run.2.store) ↔
        (∃ report ∈ reports, report.status = .ok) ∨
          ∀ key, run.2.store.live? context.now key = faulty.store.live? context.now key) := by
  intro run reports
  have hall : (run.1.status = .ok → reports.map Report.key = command.keys) ∧
      (∀ key, key ∉ reports.map Report.key →
        run.2.store.slots[key]? = faulty.store.slots[key]?) ∧
      ((∀ report ∈ reports, report.status ≠ .ok) ∨
        ∀ report ∈ reports, report.Accurate context.now faulty.store run.2.store) := by
    rcases accounts_of_batches h context hbatch hdistinct with
      ⟨hrefused, hsame, hsilent⟩ | ⟨statuses, hreply, hlength, hcases⟩
    · have hnone : reports = [] := hsilent
      rw [hnone]
      exact ⟨fun hok => absurd hok hrefused, fun key _ => by rw [hsame], .inl nofun⟩
    · have hreports : reports = command.reports ⟨.ok, .statuses statuses⟩ := by
        rw [← hreply]
      have hkeys := map_key_reports hbatch hlength
      rw [← hreports] at hkeys hcases
      refine ⟨fun _ => hkeys, fun key hkey => ?_, hcases.imp_left fun hfailed report hreport => ?_⟩
      · exact getElem?_runFaulty_of_not_mem (by rintro rfl; cases hbatch) (hkeys ▸ hkey)
      · rw [hreports] at hreport
        obtain ⟨⟨outcome, status⟩, hmem, rfl⟩ := List.mem_map.mp hreport
        exact hfailed status (List.of_mem_zip hmem).2
  obtain ⟨hkeys, hframe, hcases⟩ := hall
  refine ⟨hkeys, fun report hreport hok => ?_, accurate_iff hcases hframe⟩
  rcases hcases with hfailed | haccurate
  · exact absurd hok (hfailed report hreport)
  · have hdone := haccurate report hreport
    rwa [Report.Accurate, if_pos hok] at hdone

/-- The store fails when it is asked for the second of two keys.  The first one is
written and the second one is not, and that is what the batch reports. -/
theorem reports_accurate_iff_asked :
    let context : Context := ⟨⟨5000⟩, .absolute⟩
    let faulty : FaultyStore := ⟨.empty, [⟨.record, .failure .io, 1, 1⟩]⟩
    let run := (mset [([97], ⟨[49], 1⟩), ([98], ⟨[50], 2⟩)] {} {}).runFaulty context faulty
    run.1 = ⟨.ok, .statuses [.ok, .error]⟩ ∧
      ∀ report ∈ (mset [([97], ⟨[49], 1⟩), ([98], ⟨[50], 2⟩)] {} {}).reports run.1,
        report.Accurate context.now faulty.store run.2.store := by
  intro context faulty run
  have hhonest : faulty.Honest := by
    rintro fault (_ | ⟨_, ⟨⟩⟩)
    decide
  have hreply : run.1 = ⟨.ok, .statuses [.ok, .error]⟩ := by decide
  have hsuccess : ∃ report ∈
      (mset [([97], ⟨[49], 1⟩), ([98], ⟨[50], 2⟩)] {} {}).reports run.1, report.status = .ok := by
    rw [hreply]
    exact ⟨_, List.mem_cons_self, rfl⟩
  have hiff := (@reports_accurate_iff faulty context
    (mset [([97], ⟨[49], 1⟩), ([98], ⟨[50], 2⟩)] {} {}) hhonest rfl (by decide)).2.2
  exact ⟨hreply, hiff.mpr (.inl hsuccess)⟩

/-- The store fails at the second of two strings, and at the second of two
deletions.  The first string has been written and the first key has been deleted,
and both are reported as failed. -/
theorem reports_not_accurate :
    let context : Context := ⟨⟨5000⟩, .absolute⟩
    let writing : FaultyStore := ⟨.empty, [⟨.put, .failure .io, 1, 1⟩]⟩
    let written := (mset [([97], ⟨[49], 1⟩), ([98], ⟨[50], 2⟩)] {} {}).runFaulty context writing
    let deleting : FaultyStore := ⟨((mset [([97], ⟨[49], 1⟩), ([98], ⟨[50], 2⟩)] {} {}).run
      context .empty).2, [⟨.delete, .failure .io, 1, 1⟩]⟩
    let deleted := (del [[97], [98]] [1, 2] {}).runFaulty context deleting
    (written.1 = ⟨.ok, .statuses [.error, .error]⟩ ∧
      (writing.store.live? 5 [97]).map Slot.version = none ∧
      (written.2.store.live? 5 [97]).map Slot.version = some 1) ∧
      deleted.1 = ⟨.ok, .statuses [.error, .error]⟩ ∧
      (deleting.store.live? 5 [97]).map Slot.version = some 1 ∧
      (deleted.2.store.live? 5 [97]).map Slot.version = none := by
  decide

end Command

end Keyspace
