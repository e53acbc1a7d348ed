import Keyspace.Proofs.Draining
import Keyspace.Proofs.Finality

/-!
# Deletions one by one

A deletion of several keys looks at all of them before it takes any of them out.
Deletions of one key each see what the ones before have done, so they find a key
that comes twice gone the second time.  Such a key is all that tells the two apart,
and only in what they report: the store that is left is the same
(`Keys.del_eq_dels_iff`).

* The verdict on a key.  `Keys.verdictOn_cases` lists the verdicts, and
  `Keys.verdictOn_without` says what becomes of them when keys are taken out.
* Reports.  `Keys.inTurn` is what the single deletions report, as a function of the
  verdicts that the batch gives.  `Keys.inTurn_eq_iff` and `Keys.count_inTurn` compare
  it with what the batch reports.
* Runs.  `Keys.runAll_single` is the run of the single deletions, from one step to
  the next, and `Keys.liveCount_inTurn` counts the keys that it takes out.
-/

namespace Keyspace

/-- Taking out one more key takes out one more live key if there is one under it. -/
theorem Store.liveCount_without_cons (store : Store) (now : Millis) (gone : List Bytes)
    (key : Bytes) :
    (store.without gone).liveCount now = (store.without (key :: gone)).liveCount now +
      if key ∉ gone ∧ (store.live? now key).isSome then 1 else 0 := by
  have herase : (store.without (key :: gone)).live now =
      ((store.without gone).live now).erase key := by
    refine Std.ExtTreeMap.ext_getElem? fun other => ?_
    rw [Std.ExtTreeMap.getElem?_erase, getElem?_live, getElem?_live, live?_without, live?_without]
    by_cases hother : other = key
    · simp [hother]
    · simp [hother, Ne.symm hother]
  have hcontains : ((store.without gone).live now).contains key = true ↔
      key ∉ gone ∧ (store.live? now key).isSome := by
    rw [← Std.ExtTreeMap.isSome_getElem?_eq_contains, getElem?_live, live?_without]
    by_cases hkey : key ∈ gone <;> simp [hkey]
  rw [liveCount, liveCount, herase, Std.ExtTreeMap.size_erase]
  simp only [← hcontains]
  split
  · rename_i hthere
    have hsize : ((store.without gone).live now).size ≠ 0 := by
      intro hzero
      rw [Std.ExtTreeMap.eq_empty_iff_size_eq_zero.mpr hzero, Std.ExtTreeMap.contains_empty]
        at hthere
      cases hthere
    omega
  · rfl

namespace Keys

variable {terms : Terms} {now : Millis} {store : Store} {key : Bytes}

/-! ## The verdict on a key -/

/-- A key that cannot be seen is reported as absent and goes; one that can is deleted
or stays. -/
theorem verdictOn_cases (terms : Terms) (now : Millis) (store : Store)
    (entry : Bytes × Version) :
    store.live? now entry.1 = none ∧ verdictOn terms now store entry = ⟨.notExist, true⟩ ∨
      (store.live? now entry.1).isSome ∧
        (verdictOn terms now store entry = ⟨.ok, true⟩ ∨
          verdictOn terms now store entry = ⟨.versionMismatch, false⟩) := by
  rw [verdictOn]
  cases store.live? now entry.1 with
  | none => exact .inl ⟨rfl, rfl⟩
  | some slot =>
    refine .inr ⟨rfl, ?_⟩
    rw [Option.map_some, verdict]
    split
    · exact .inr rfl
    · split
      · exact .inr rfl
      · exact .inl rfl

/-- A key that has been taken out is absent; the verdict on any other stays. -/
theorem verdictOn_without (gone : List Bytes) (entry : Bytes × Version) :
    verdictOn terms now (store.without gone) entry =
      if entry.1 ∈ gone then ⟨.notExist, true⟩ else verdictOn terms now store entry := by
  rw [verdictOn, Store.live?_without]
  split <;> rfl

/-- The keys that a batch takes out, the first one first. -/
theorem without_doomed_cons (gone : List Bytes) (entry : Bytes × Version)
    (rest : List (Bytes × Version)) :
    store.without (gone ++ doomed terms now store (entry :: rest)) =
      store.without ((if (verdictOn terms now store entry).doomed then entry.1 :: gone else gone) ++
        doomed terms now store rest) := by
  refine Store.without_congr fun key => ?_
  unfold doomed
  rw [List.filter_cons]
  split
  · simp [or_left_comm]
  · rfl

/-! ## Reports -/

/-- What deletions report that are made one by one, given the verdicts on their keys
before any of them: a key that is gone by then is absent. -/
def inTurn (gone : List Bytes) : List (Bytes × Verdict) → List Status
  | [] => []
  | (key, verdict) :: rest =>
    (if gone.contains key then .notExist else verdict.status) ::
      inTurn (if verdict.doomed then key :: gone else gone) rest

theorem inTurn_cons (gone : List Bytes) (key : Bytes) (verdict : Verdict)
    (rest : List (Bytes × Verdict)) :
    inTurn gone ((key, verdict) :: rest) =
      (if key ∈ gone then .notExist else verdict.status) ::
        inTurn (if verdict.doomed then key :: gone else gone) rest := by
  rw [inTurn]
  simp only [List.contains_iff_mem]

theorem length_inTurn (gone : List Bytes) (found : List (Bytes × Verdict)) :
    (inTurn gone found).length = found.length := by
  induction found generalizing gone with
  | nil => rfl
  | cons entry rest ih => exact congrArg (· + 1) (ih _)

/-- The verdicts are reported as they are if every key that is gone is reported as
absent. -/
theorem inTurn_eq_iff (gone : List Bytes) (found : List (Bytes × Verdict)) :
    found.map (·.2.status) = inTurn gone found ↔
      (∀ entry ∈ found, entry.1 ∈ gone → entry.2.status = .notExist) ∧
        found.Pairwise fun earlier later =>
          earlier.2.doomed = true → earlier.1 = later.1 → later.2.status = .notExist := by
  induction found generalizing gone with
  | nil => simp [inTurn]
  | cons entry rest ih =>
    obtain ⟨key, verdict⟩ := entry
    rw [List.map_cons, inTurn_cons, List.cons.injEq, ih, List.pairwise_cons, List.forall_mem_cons]
    by_cases hdoomed : verdict.doomed = true
    · simp only [hdoomed, if_true]
      grind
    · grind

/-- No more deletions are reported one by one than together, and as many only if no key
is reported as deleted again. -/
theorem count_inTurn (gone : List Bytes) (found : List (Bytes × Verdict)) :
    (inTurn gone found).count .ok ≤ (found.map (·.2.status)).count .ok ∧
      ((found.map (·.2.status)).count .ok = (inTurn gone found).count .ok ↔
        (∀ entry ∈ found, entry.1 ∈ gone → entry.2.status ≠ .ok) ∧
          found.Pairwise fun earlier later =>
            earlier.2.doomed = true → later.2.status = .ok → earlier.1 ≠ later.1) := by
  induction found generalizing gone with
  | nil => simp [inTurn]
  | cons entry rest ih =>
    obtain ⟨key, verdict⟩ := entry
    obtain ⟨hle, heq⟩ := ih (if verdict.doomed then key :: gone else gone)
    rw [List.map_cons, inTurn_cons, List.count_cons, List.count_cons, List.pairwise_cons,
      List.forall_mem_cons]
    by_cases hok : verdict.status = .ok
    · by_cases hkey : key ∈ gone
      · -- the batch counts a key that is reported as absent
        rw [if_pos hkey, hok]
        refine ⟨by simp; omega, iff_of_false ?_ fun h => h.1.1 hkey rfl⟩
        simp
        omega
      · rw [if_neg hkey]
        grind
    · have habsent : ((if key ∈ gone then .notExist else verdict.status) == Status.ok) = false := by
        split
        · rfl
        · exact beq_false_of_ne hok
      rw [habsent, beq_false_of_ne hok]
      grind

/-- The keys that single deletions report as deleted are the live keys that they take
out. -/
theorem liveCount_inTurn (store : Store) (terms : Terms) (now : Millis) (gone : List Bytes)
    (entries : List (Bytes × Version)) :
    (store.without gone).liveCount now =
      (store.without (gone ++ doomed terms now store entries)).liveCount now +
        (inTurn gone (entries.map fun entry => (entry.1, verdictOn terms now store entry))).count
          .ok := by
  induction entries generalizing gone with
  | nil => simp [inTurn, doomed]
  | cons entry rest ih =>
    rw [List.map_cons, inTurn_cons, List.count_cons, without_doomed_cons]
    have hrest := ih (if (verdictOn terms now store entry).doomed then entry.1 :: gone else gone)
    have hfirst : (store.without gone).liveCount now = _ :=
      store.liveCount_without_cons now gone entry.1
    obtain ⟨hhidden, hverdict⟩ | ⟨hlive, hverdict | hverdict⟩ :=
      verdictOn_cases terms now store entry
    · rw [hverdict] at hrest ⊢
      simp [hhidden] at hfirst hrest ⊢
      omega
    · rw [hverdict] at hrest ⊢
      by_cases hkey : entry.1 ∈ gone <;> simp [hlive, hkey] at hfirst hrest ⊢ <;> omega
    · rw [hverdict] at hrest ⊢
      by_cases hkey : entry.1 ∈ gone <;> simp [hkey] at hrest ⊢ <;> omega

/-! ## Runs -/

/-- The deletion of one key, as a step of a history. -/
def single (context : Context) (terms : Terms) (entry : Bytes × Version) : Step :=
  ⟨context, .del [entry.1] [entry.2] terms⟩

/-- The reply to the deletion of one key. -/
def singleReply (status : Status) : Reply :=
  ⟨.ok, .statuses [status]⟩

variable {context : Context}

/-- The deletion of one key from a store that has lost some already. -/
theorem run_single (hconsistent : store.Consistent) (hopen : store.closed = false)
    (gone : List Bytes) (entry : Bytes × Version) :
    (single context terms entry).run (store.without gone) =
      (singleReply (if entry.1 ∈ gone then .notExist
          else (verdictOn terms context.now store entry).status),
        store.without (if (verdictOn terms context.now store entry).doomed
          then entry.1 :: gone else gone)) := by
  have hentry : [entry.1].zip [entry.2] = [entry] := rfl
  have hlength : [entry.1].length = [entry.2].length := rfl
  have hdelete := on_delete_eq context.now (hconsistent.without gone) hopen hlength terms
  have hleft : store.without (gone ++ doomed terms context.now (store.without gone) [entry]) =
      store.without (if (verdictOn terms context.now store entry).doomed
        then entry.1 :: gone else gone) := by
    refine Store.without_congr fun key => ?_
    unfold doomed
    rw [List.filter_cons, verdictOn_without]
    by_cases hkey : entry.1 ∈ gone
    · simp only [if_pos hkey]
      split <;> grind
    · rw [if_neg hkey]
      split <;> simp [or_comm]
  rw [hentry, hconsistent.without_without, hleft, List.map_singleton, verdictOn_without] at hdelete
  rw [Step.run, single, Command.run_of_reply (by rfl)]
  simp only [hdelete]
  split <;> rfl

/-- The deletions of single keys, made in order, leave the store that the batch
leaves. -/
theorem runAll_single (hconsistent : store.Consistent) (hopen : store.closed = false)
    (context : Context) (terms : Terms) (gone : List Bytes) (entries : List (Bytes × Version)) :
    runAll (entries.map (single context terms)) (store.without gone) =
      ((inTurn gone (entries.map fun entry =>
          (entry.1, verdictOn terms context.now store entry))).map singleReply,
        store.without (gone ++ doomed terms context.now store entries)) := by
  induction entries generalizing gone with
  | nil => simp [runAll, inTurn, doomed]
  | cons entry rest ih =>
    rw [List.map_cons, runAll_cons, run_single hconsistent hopen, ih, without_doomed_cons,
      List.map_cons, inTurn_cons, List.map_cons]

/-- A closed store fails every single deletion. -/
theorem runAll_single_closed (hclosed : store.closed = true) (context : Context) (terms : Terms)
    (entries : List (Bytes × Version)) :
    runAll (entries.map (single context terms)) store =
      ((entries.map fun _ => .error).map singleReply, store) := by
  refine Prod.ext ?_ (runAll_closed hclosed _)
  rw [fst_runAll_closed hclosed, List.map_map, List.map_map]
  rfl

/-! ## The comparison -/

variable {entries : List (Bytes × Version)}

/-- The batch and the single deletions report the same if no key comes again after it
has been deleted. -/
theorem statuses_eq_inTurn_iff :
    (entries.map fun entry => (verdictOn terms now store entry).status) =
        inTurn [] (entries.map fun entry => (entry.1, verdictOn terms now store entry)) ↔
      entries.Pairwise fun earlier later =>
        (verdictOn terms now store earlier).status = .ok → earlier.1 ≠ later.1 := by
  have hiff := inTurn_eq_iff []
    (entries.map fun entry => (entry.1, verdictOn terms now store entry))
  rw [List.map_map, List.pairwise_map] at hiff
  refine hiff.trans ?_
  simp only [List.not_mem_nil, false_implies, implies_true, true_and]
  refine List.Pairwise.iff fun earlier later => ?_
  have hearlier := verdictOn_cases terms now store earlier
  have hlater := verdictOn_cases terms now store later
  grind

/-- The batch reports as many deletions as there are if it reports no key twice. -/
theorem count_eq_inTurn_iff :
    (entries.map fun entry => (verdictOn terms now store entry).status).count .ok =
        (inTurn [] (entries.map fun entry => (entry.1, verdictOn terms now store entry))).count
          .ok ↔
      entries.Pairwise fun earlier later =>
        (verdictOn terms now store earlier).status = .ok →
          (verdictOn terms now store later).status = .ok → earlier.1 ≠ later.1 := by
  have hiff := (count_inTurn []
    (entries.map fun entry => (entry.1, verdictOn terms now store entry))).2
  rw [List.map_map, List.pairwise_map] at hiff
  refine hiff.trans ?_
  simp only [List.not_mem_nil, false_implies, implies_true, true_and]
  refine List.Pairwise.iff fun earlier later => ?_
  have hearlier := verdictOn_cases terms now store earlier
  have hlater := verdictOn_cases terms now store later
  grind

/-- A deletion of several keys and the deletions of one key each, made in order, leave
the same store, and the single deletions report as many successes as live keys have
gone.  The batch reports the same exactly if no key comes again after it has been
deleted, and the right number exactly if it does not report a key as deleted twice. -/
theorem del_eq_dels_iff (h : store.Reachable) (context : Context) {keys : List Bytes}
    {versions : List Version} (hlength : keys.length = versions.length) (terms : Terms) :
    ∃ statuses singly after,
      (Command.del keys versions terms).run context store = (⟨.ok, .statuses statuses⟩, after) ∧
      runAll ((keys.zip versions).map (single context terms)) store =
        (singly.map singleReply, after) ∧
      statuses.length = keys.length ∧ singly.length = keys.length ∧
      (statuses = singly ↔ (keys.zip statuses).Pairwise fun earlier later =>
        earlier.2 = .ok → earlier.1 ≠ later.1) ∧
      store.liveCount context.now = after.liveCount context.now + singly.count .ok ∧
      (statuses.count .ok = singly.count .ok ↔ (keys.zip statuses).Pairwise fun earlier later =>
        earlier.2 = .ok → later.2 = .ok → earlier.1 ≠ later.1) := by
  have hrun : (Command.del keys versions terms).run context store = _ :=
    Command.run_of_reply (by rfl) store
  have hzip : (keys.zip versions).length = keys.length := by simp [hlength]
  cases hclosed : store.closed with
  | true =>
    rw [on_delete_closed hclosed hlength] at hrun
    have hsingly := runAll_single_closed hclosed context terms (keys.zip versions)
    have hstatuses : ((keys.zip versions).map fun _ => Status.error) =
        keys.map fun _ => .error := by
      rw [List.map_const', List.map_const', hzip]
    rw [hstatuses] at hsingly
    have hfailed : ∀ entry ∈ keys.zip (keys.map fun _ => Status.error), entry.2 ≠ .ok := by
      rw [zip_map_self]
      simp
    refine ⟨_, _, store, hrun, hsingly, List.length_map _, List.length_map _, ?_, ?_, ?_⟩
    · exact iff_of_true rfl (List.pairwise_of_forall_mem_list fun entry hentry _ _ hok =>
        absurd hok (hfailed entry hentry))
    · rw [List.map_const', List.count_replicate]
      rfl
    · exact iff_of_true rfl (List.pairwise_of_forall_mem_list fun entry hentry _ _ hok =>
        absurd hok (hfailed entry hentry))
  | false =>
    have hconsistent := h.consistent
    rw [on_delete_eq context.now hconsistent hclosed hlength] at hrun
    have hsingly := runAll_single hconsistent hclosed context terms [] (keys.zip versions)
    rw [hconsistent.without_nil, List.nil_append] at hsingly
    have hcount := liveCount_inTurn store terms context.now [] (keys.zip versions)
    rw [hconsistent.without_nil, List.nil_append] at hcount
    refine ⟨_, _, _, hrun, hsingly, ?_, ?_, ?_, hcount, ?_⟩
    · rw [List.length_map, hzip]
    · rw [length_inTurn, List.length_map, hzip]
    · rw [zip_map_zip hlength, List.pairwise_map]
      exact statuses_eq_inTurn_iff
    · rw [zip_map_zip hlength, List.pairwise_map]
      exact count_eq_inTurn_iff

/-- A key that comes three times is deleted once, whatever the batch reports. -/
theorem del_eq_dels_iff_thrice :
    let context : Context := ⟨⟨5000⟩, .absolute⟩
    let store := (Store.empty.perform 0 (.put [107] ⟨[97], 4⟩ none)).2
    let keys : List Bytes := [[107], [108], [107], [107]]
    let versions : List Version := [3, 0, 4, 0]
    store.Reachable ∧ keys.length = versions.length ∧
      ((Command.del keys versions {}).run context store).2 =
        (runAll ((keys.zip versions).map (single context {})) store).2 ∧
      (runAll ((keys.zip versions).map (single context {})) store).1 =
        [.versionMismatch, .notExist, .ok, .notExist].map singleReply := by
  intro context store keys versions
  have hreachable : store.Reachable := Store.Reachable.empty.perform 0 _
  obtain ⟨statuses, singly, after, hrun, hsingly, _⟩ :=
    del_eq_dels_iff hreachable context (show keys.length = versions.length from rfl) {}
  refine ⟨hreachable, rfl, ?_, by decide⟩
  rw [hrun, hsingly]

/-- The way in which a batch departs from its single deletions: it reports a key twice
as deleted, and one more deletion than there is. -/
theorem del_ne_dels :
    let context : Context := ⟨⟨5000⟩, .absolute⟩
    let store := (Store.empty.perform 0 (.put [107] ⟨[97], 1⟩ none)).2
    let keys : List Bytes := [[107], [107]]
    let batch := (Command.del keys [0, 0] {}).run context store
    batch.1 = ⟨.ok, .statuses [.ok, .ok]⟩ ∧
      (runAll ((keys.zip [0, 0]).map (single context {})) store).1 =
        [.ok, .notExist].map singleReply ∧
      store.keptCount = 1 ∧ batch.2.keptCount = 0 := by
  decide

end Keys

end Keyspace
