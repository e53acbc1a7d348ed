import Keyspace.Proofs.Faults

/-!
# Renames on a failing store

A rename takes many calls, and the store may fail at any of them.  What protects
the data is the order of the calls: all that write but the last one name the
target (`run_copy_of_ne`), and the last one removes the source only once the copy
is complete.  So a rename that does not succeed has left every name but the target
as it was, whatever the faults are.

A rename that has no business with its target does not touch that either, as long
as the store tells no lies about it (`run_rename_barred`).
-/

namespace Keyspace

namespace Keys

variable {now : Millis} {source target key : Bytes} {version : Version} {onlyIfAbsent : Bool}

/-- Copying leaves every name but the target as it was, however far it gets. -/
theorem run_copy_of_ne (hkey : key ≠ target) (record : Record) (version : Version)
    (faulty : FaultyStore) :
    ((copy source target record version).run (FaultyStore.perform now) faulty).2.store.slots[key]? =
      faulty.store.slots[key]? := by
  have hcalls : (copy source target record version).Calls fun c =>
      c.reads = true ∨ c.key? = some target := by
    apply calls_copy <;> intros <;> first | exact .inl rfl | exact .inr rfl
  have hstep : ∀ c : Call, c.reads = true ∨ c.key? = some target → ∀ other : FaultyStore,
      other.store.slots[key]? = faulty.store.slots[key]? →
      (other.perform now c).2.store.slots[key]? = faulty.store.slots[key]? := by
    rintro c (hreads | htarget) other hother
    · rw [(other.answers now c).of_reads hreads, hother]
    · have hclose : c ≠ .close := by
        rintro rfl
        cases htarget
      have hne : c.key? ≠ some key := by
        rw [htarget]
        exact fun hsame => hkey (Option.some.inj hsame).symm
      rw [(other.answers now c).getElem?_of_ne hclose hne, hother]
  exact hcalls.preserves hstep rfl

/-- A move that does not succeed leaves every name but the target as it was. -/
theorem run_move_of_ne (hkey : key ≠ target) {record : Record} {faulty : FaultyStore}
    {failure : Failure}
    (hrun : ((move source target record version).run (FaultyStore.perform now) faulty).1 =
      .error failure) :
    ((move source target record version).run (FaultyStore.perform now) faulty).2.store.slots[key]? =
      faulty.store.slots[key]? := by
  have hcopy : ((copy source target record version).run (FaultyStore.perform now)
      faulty).2.store.slots[key]? = faulty.store.slots[key]? := run_copy_of_ne hkey _ _ _
  rw [move, Script.bind_eq, Script.run_bind] at hrun ⊢
  cases hcopied : (copy source target record version).run (FaultyStore.perform now) faulty with
  | mk ending between =>
    rw [hcopied] at hcopy hrun
    cases ending with
    | error reason => exact hcopy
    | ok _ =>
      -- The copy is complete, so it is the last call that fails, and it does nothing then.
      dsimp only at hcopy hrun ⊢
      rw [Script.run_discard_ask] at hrun ⊢
      have hanswers := between.answers now (.delete source)
      cases hdelete : (between.perform now (.delete source)).1 with
      | ok wasThere =>
        rw [hdelete] at hrun
        cases hrun
      | error reason =>
        rw [hdelete] at hanswers
        exact (congrArg (·.slots[key]?) hanswers.of_error).trans hcopy

/-- A rename is refused before it writes anything, or goes on to move its source.
If the store is honest, its target is then absent, or older than the version of the
rename and free to be replaced. -/
theorem run_rename (hne : source ≠ target) (version : Version) (onlyIfAbsent : Bool)
    (now : Millis) (faulty : FaultyStore) :
    (∃ status after, (rename source target version onlyIfAbsent).run (FaultyStore.perform now)
        faulty = (.error status, after) ∧ after.store = faulty.store) ∨
      ∃ record between, between.store = faulty.store ∧
        (rename source target version onlyIfAbsent).run (FaultyStore.perform now) faulty =
          ((move source target record version).mapRefusal Failure.status).run
            (FaultyStore.perform now) between ∧
        version ≠ 0 ∧ faulty.store.Shows now source record ∧
        (faulty.Honest → ∀ slot, faulty.store.live? now target = some slot →
          onlyIfAbsent = false ∧ slot.version < version) := by
  let p (run : Except Status Unit × FaultyStore) : Prop :=
    (∃ status after, run = (.error status, after) ∧ after.store = faulty.store) ∨
      ∃ record between, between.store = faulty.store ∧
        run = ((move source target record version).mapRefusal Failure.status).run
          (FaultyStore.perform now) between ∧
        version ≠ 0 ∧ faulty.store.Shows now source record ∧
        (faulty.Honest → ∀ slot, faulty.store.live? now target = some slot →
          onlyIfAbsent = false ∧ slot.version < version)
  change p _
  have hrefused (status : Status) (after : FaultyStore) (hafter : after.store = faulty.store) :
      p (.error status, after) := .inl ⟨status, after, rfl, hafter⟩
  unfold rename
  by_cases hzero : version = 0
  · rw [requireVersion, if_pos hzero]
    exact hrefused .error faulty rfl
  rw [requireVersion_of_ne hzero]
  refine finds_requireRecord.run_bind hrefused fun record first hfirst hshows hrecord => ?_
  rw [if_neg hne]
  have hreads : (query (.record target)).Finds now first.store fun _ => True :=
    (Script.Asks.query (fun _ => trivial) rfl : Script.Asks (fun _ => True) _).finds
  refine hreads.run_bind (fun status after hafter => hrefused status after (hafter.trans hfirst))
    fun found second hsecond _ hfound => ?_
  split
  · rename_i hverdict
    refine .inr ⟨record, second, hsecond.trans hfirst, rfl, hzero, hshows, fun hhonest old hold => ?_⟩
    have hfirst' : first.Honest := by
      have hrun := hhonest.run now (requireRecord source)
      rwa [hrecord] at hrun
    have hanswer : first.store.record now target = .ok found :=
      record_of_query (hfirst'.on_of_run (.query _) hfound)
    obtain ⟨_, htarget⟩ := Store.record_eq_ok.mp hanswer
    rw [hfirst, hold] at htarget
    subst htarget
    exact ⟨WriteMode.onlyIfAbsent_of_verdict hverdict, WriteMode.lt_of_verdict hverdict⟩
  · exact hrefused _ second (hsecond.trans hfirst)

/-- A rename that does not succeed leaves every name but the target as it was. -/
theorem run_rename_of_ne (hne : source ≠ target) (hkey : key ≠ target) {faulty : FaultyStore}
    {status : Status}
    (hrun : ((rename source target version onlyIfAbsent).run (FaultyStore.perform now) faulty).1 =
      .error status) :
    ((rename source target version onlyIfAbsent).run (FaultyStore.perform now)
      faulty).2.store.slots[key]? = faulty.store.slots[key]? := by
  rcases run_rename hne version onlyIfAbsent now faulty with
    ⟨_, after, hrefused, hafter⟩ | ⟨record, between, hbetween, hmove, _⟩
  · rw [hrefused, hafter]
  · rw [hmove, Script.run_mapRefusal] at hrun ⊢
    rw [← hbetween]
    cases hending : ((move source target record version).run (FaultyStore.perform now)
        between).1 with
    | ok _ =>
      rw [hending] at hrun
      cases hrun
    | error failure => exact run_move_of_ne hkey hending

end Keys

namespace Command

variable {context : Context} {source target : Bytes} {version : Version} {onlyIfAbsent : Bool}
  {faulty : FaultyStore}

/-- A rename that does not succeed loses nothing: every name but the target holds
what it held, live or not, whatever faults are armed and wherever they strike.  If
there is nothing to rename, or no right to replace the target, and the store fails
but does not lie, nothing changes at all. -/
theorem rename_keeps (hne : source ≠ target)
    (hstatus : ((rename source target version onlyIfAbsent).runFaulty context faulty).1.status ≠
      .ok) :
    (∀ key, key ≠ target →
      ((rename source target version onlyIfAbsent).runFaulty context faulty).2.store.slots[key]? =
        faulty.store.slots[key]?) ∧
      (faulty.Honest →
        faulty.store.live? context.now source = none ∨ version = 0 ∨
          (∃ slot, faulty.store.live? context.now target = some slot ∧
            (onlyIfAbsent = true ∨ version ≤ slot.version)) →
        ((rename source target version onlyIfAbsent).runFaulty context faulty).2.store =
          faulty.store) := by
  obtain ⟨⟨reason, hrun⟩, hafter⟩ := refused_of_reply (by rfl) hstatus
  rw [hafter]
  refine ⟨fun key hkey => Keys.run_rename_of_ne hne hkey hrun, fun hhonest hbarred => ?_⟩
  rcases Keys.run_rename hne version onlyIfAbsent context.now faulty with
    ⟨_, after, hrefused, hstore⟩ | ⟨record, _, _, _, hzero, ⟨slot, hsource, _⟩, htarget⟩
  · rw [hrefused, hstore]
  · -- A rename that goes on to move its source is not barred.
    rcases hbarred with hmissing | rfl | ⟨old, hold, hbar⟩
    · rw [hmissing] at hsource
      cases hsource
    · exact absurd rfl hzero
    · obtain ⟨hfree, hlt⟩ := htarget hhonest old hold
      rcases hbar with hbar | hle
      · rw [hfree] at hbar
        cases hbar
      · exact absurd hlt (UInt64.not_lt.mpr hle)

/-- A hash of two fields is to replace a string, and the store fails at the second
field: the hash is complete.  At the version of the string the rename changes
nothing. -/
theorem rename_keeps_midway :
    let context : Context := ⟨⟨9000⟩, .absolute⟩
    let store := (runAll [⟨context, .hmset [107] [([97], ⟨[49], 1⟩), ([98], ⟨[50], 2⟩)] {}⟩,
      ⟨context, .set [108] ⟨[51], 3⟩ {} {}⟩] .empty).2
    let faulty : FaultyStore := ⟨store, [⟨.putField, .failure .io, 1, 1⟩]⟩
    (((rename [107] [108] 4 false).runFaulty context faulty).1.status = .error ∧
      ((rename [107] [108] 4 false).runFaulty context faulty).2.faults = [] ∧
      ((rename [107] [108] 4 false).runFaulty context faulty).2.store.slots[([107] : Bytes)]? =
        faulty.store.slots[([107] : Bytes)]?) ∧
      ((rename [107] [108] 3 false).runFaulty context faulty).1.status = .versionMismatch ∧
      ((rename [107] [108] 3 false).runFaulty context faulty).2.store = faulty.store := by
  intro context store faulty
  have hne : ([107] : Bytes) ≠ [108] := by decide
  have hfails : ((rename [107] [108] 4 false).runFaulty context faulty).1.status = .error := by
    decide
  have hbarred : ((rename [107] [108] 3 false).runFaulty context faulty).1.status =
      .versionMismatch := by decide
  have hhonest : faulty.Honest := by
    rintro fault (_ | ⟨_, ⟨⟩⟩)
    decide
  have hversion : (faulty.store.live? context.now [108]).map Slot.version = some 3 := by decide
  obtain ⟨slot, hslot, hthree⟩ := Option.map_eq_some_iff.mp hversion
  have hkept := (rename_keeps hne (by rw [hfails]; decide)).1 [107] hne
  have hsame := (rename_keeps hne (by rw [hbarred]; decide)).2 hhonest
    (.inr (.inr ⟨slot, hslot, .inr (by rw [hthree]; decide)⟩))
  exact ⟨⟨hfails, by decide, hkept⟩, hbarred, hsame⟩

end Command

end Keyspace
