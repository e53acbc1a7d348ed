import Keyspace.Proofs.Overwrites
import Keyspace.Proofs.Update

/-!
# Stamps

A string, a field and a member are each stamped with the version that wrote them,
and the key has a version besides.  The store does not tie the two together: it
takes a string that is older than the key, and it takes version 0.  This module
shows that the commands do, so that the version of a key can stand for what the
key holds.

There are four groups.

* Values.  `Content.Stamped` says that the stamps in a value are in step with the
  version of its key: a string has that version, and the parts of a collection
  have versions of at most that.  `Content.Stamped.amend` is how a collection
  changes.
* Calls.  A call keeps the stamps in step unless it stamps something with 0 or
  puts a string that is older than its key (`Call.stamped_effect`).
* Commands.  Most commands make no such call, whatever the store answers
  (`Command.regular_calls`).  A command that puts strings makes sure that they are
  newer than what they take the place of, and so does a rename, which stamps its
  target last.
* Histories.  `runAll_stamped` is the induction over the steps, and
  `runAll_versions` says what readers see of it.
-/

namespace Keyspace

/-! ## Values -/

/-- Whether the stamps in a value are in step with the version of its key. -/
structure Content.Stamped (version : Version) (content : Content) : Prop where
  string : ∀ item, content = .string item → item.version = version
  part : ∀ place part, content.part? place = some part →
    part.version ≠ 0 ∧ part.version ≤ version

namespace Content

variable {version later : Version} {content next : Content} {place : Place} {part : Part}

theorem part?_string (item : Item) (place : Place) : (string item).part? place = none := by
  cases place <;> rfl

theorem stamped_string (item : Item) : (string item).Stamped item.version := by
  refine ⟨fun other hother => ?_, fun place part hpart => ?_⟩
  · cases hother
    rfl
  · rw [part?_string] at hpart
    cases hpart

theorem stamped_blank {kind : Kind} (hkind : kind ≠ .string) (version : Version) :
    (blank kind).Stamped version := by
  refine ⟨fun item hitem => ?_, fun place part hpart => ?_⟩
  · cases kind <;> cases hitem
    exact absurd rfl hkind
  · rw [part?_blank] at hpart
    cases hpart

/-- A collection stays in step if it keeps its parts, loses some, or takes up new
ones that are not ahead of the key. -/
theorem Stamped.amend (h : content.Stamped version) (hle : version ≤ later)
    (hkind : next.kind ≠ .string)
    (hparts : ∀ place part, next.part? place = some part →
      content.part? place = some part ∨ part.version ≠ 0 ∧ part.version ≤ later) :
    next.Stamped later := by
  refine ⟨fun item hitem => ?_, fun place part hpart => ?_⟩
  · rw [hitem] at hkind
    exact absurd rfl hkind
  · rcases hparts place part hpart with hold | hnew
    · obtain ⟨hversion, hbelow⟩ := h.part place part hold
      exact ⟨hversion, UInt64.le_trans hbelow hle⟩
    · exact hnew

theorem part?_hash_insert {fields : Fields} {name : Bytes} {item : Item}
    (h : (hash (fields.insert name item)).part? place = some part) :
    (hash fields).part? place = some part ∨ part = .field item := by
  cases place with
  | field other =>
    rw [part?, Std.ExtTreeMap.getElem?_insert] at h
    split at h
    · exact .inr (Option.some.inj h).symm
    · exact .inl h
  | _ => cases h

theorem part?_set_insert {members : Members} {name : Bytes}
    (h : (set (members.insert name version)).part? place = some part) :
    (set members).part? place = some part ∨ part = .member version := by
  cases place with
  | member other =>
    rw [part?, Std.ExtTreeMap.getElem?_insert] at h
    split at h
    · exact .inr (Option.some.inj h).symm
    · exact .inl h
  | _ => cases h

theorem part?_zset_insert {ranking : Ranking} {name : Bytes} {score : Int64}
    (h : (zset (ranking.insert name score version)).part? place = some part) :
    (zset ranking).part? place = some part ∨ part = .score ⟨score, version⟩ := by
  cases place with
  | score other =>
    rw [part?, Ranking.getElem?_insert] at h
    split at h
    · exact .inr (Option.some.inj h).symm
    · exact .inl h
  | _ => cases h

theorem part?_hash_erase {fields : Fields} {name : Bytes}
    (h : (hash (fields.erase name)).part? place = some part) :
    (hash fields).part? place = some part := by
  cases place with
  | field other =>
    rw [part?, Std.ExtTreeMap.getElem?_erase] at h
    split at h
    · cases h
    · exact h
  | _ => cases h

theorem part?_set_erase {members : Members} {name : Bytes}
    (h : (set (members.erase name)).part? place = some part) :
    (set members).part? place = some part := by
  cases place with
  | member other =>
    rw [part?, Std.ExtTreeMap.getElem?_erase] at h
    split at h
    · cases h
    · exact h
  | _ => cases h

theorem part?_zset_erase {ranking : Ranking} {name : Bytes}
    (h : (zset (ranking.erase name)).part? place = some part) :
    (zset ranking).part? place = some part := by
  cases place with
  | score other =>
    rw [part?, Ranking.getElem?_erase] at h
    split at h
    · cases h
    · exact h
  | _ => cases h

theorem part?_zset_foldl_erase {doomed : List Standing} {ranking : Ranking}
    (h : (zset (doomed.foldl (fun rest standing => rest.erase standing.member) ranking)).part?
      place = some part) : (zset ranking).part? place = some part := by
  induction doomed generalizing ranking with
  | nil => exact h
  | cons standing rest ih => exact part?_zset_erase (ih h)

end Content

/-- Whether the stamps under a key are in step with its version, and none is 0. -/
structure Slot.Stamped (slot : Slot) : Prop where
  ne_zero : slot.version ≠ 0
  content : slot.content.Stamped slot.version

namespace Slot

variable {slot next : Slot} {slot? : Option Slot} {item : Item} {version : Version}

theorem stamped_putItem (deadline : Option Millis) (hversion : item.version ≠ 0)
    (hnewer : ∀ slot, slot? = some slot → slot.version ≤ item.version) :
    (putItem item deadline slot?).Stamped := by
  have hsame := version_putItem deadline hnewer
  refine ⟨by rw [hsame]; exact hversion, ?_⟩
  rw [hsame]
  exact Content.stamped_string item

theorem stamped_fresh {content : Content} (hversion : version ≠ 0) (hkind : content.kind ≠ .string)
    (hparts : ∀ place part, content.part? place = some part →
      (Content.blank content.kind).part? place = some part ∨ part.version = version) :
    (fresh content version).Stamped := by
  have hblank : (Content.blank content.kind).Stamped version := Content.stamped_blank hkind version
  refine ⟨hversion, hblank.amend (UInt64.le_refl _) hkind fun place part hpart => ?_⟩
  rcases hparts place part hpart with hold | hnew
  · exact .inl hold
  · rw [hnew]
    exact .inr ⟨hversion, UInt64.le_refl _⟩

namespace Stamped

variable (h : slot.Stamped)
include h

theorem ne_zero_of_le (hle : slot.version ≤ version) : version ≠ 0 := by
  have hne := h.ne_zero
  grind

/-- A slot whose collection takes up a part, and whose version rises to that of
the part. -/
theorem raise {content : Content} (hversion : version ≠ 0) (hkind : content.kind ≠ .string)
    (hparts : ∀ place part, content.part? place = some part →
      slot.content.part? place = some part ∨ part.version = version) :
    (Slot.raise { slot with content } version).Stamped := by
  refine ⟨h.ne_zero_of_le (Version.le_max_left _ _), ?_⟩
  refine h.content.amend (Version.le_max_left _ _) hkind fun place part hpart => ?_
  rcases hparts place part hpart with hold | hnew
  · exact .inl hold
  · rw [hnew]
    exact .inr ⟨hversion, Version.le_max_right _ _⟩

/-- A slot whose collection loses parts; its version may rise. -/
theorem shrink {content : Content} (hlater : slot.version ≤ version)
    (hkind : content.kind ≠ .string)
    (hparts : ∀ place part, content.part? place = some part →
      slot.content.part? place = some part) (deadline : Option Millis) :
    Slot.Stamped ⟨content, version, deadline⟩ :=
  ⟨h.ne_zero_of_le hlater, h.content.amend hlater hkind fun place part hpart =>
    .inl (hparts place part hpart)⟩

theorem reschedule (deadline : Option Millis) (version : Version) :
    (slot.reschedule deadline version).Stamped := by
  have hle : slot.version ≤ max slot.version version := Version.le_max_left _ _
  refine ⟨h.ne_zero_of_le hle, ?_⟩
  unfold Slot.reschedule
  dsimp only
  split
  · rename_i item _
    exact Content.stamped_string ⟨item.value, _⟩
  · rename_i hcontent
    refine h.content.amend hle (fun hkind => ?_) fun place part hpart => .inl hpart
    cases hslot : slot.content with
    | string item => exact hcontent item hslot
    | _ => rw [hslot] at hkind; cases hkind

end Stamped

end Slot

/-! ## Calls -/

/-- What a call makes of a stamped slot is stamped, unless the call stamps
something with 0 or puts a string that is older than the slot. -/
theorem Call.stamped_effect {c : Call} {slot? : Option Slot} {next : Slot}
    (hstamp : c.stamp? ≠ some 0)
    (hput : ∀ key item deadline, c = .put key item deadline →
      ∀ slot, slot? = some slot → slot.version ≤ item.version)
    (hslot : ∀ slot, slot? = some slot → slot.Stamped) (h : c.effect slot? = some next) :
    next.Stamped := by
  have hversion : ∀ version, c.stamp? = some version → version ≠ 0 := by
    rintro version hsame rfl
    exact hstamp hsame
  cases slot? with
  | none =>
    cases c with
    | put key item deadline =>
      cases h
      exact Slot.stamped_putItem deadline (hversion _ rfl) (by rintro _ ⟨⟩)
    | putField key name item =>
      cases h
      refine Slot.stamped_fresh (hversion _ rfl) (by rintro ⟨⟩) fun place part hpart => ?_
      exact (Content.part?_hash_insert hpart).imp_right (congrArg Part.version)
    | addMember key name version =>
      cases h
      refine Slot.stamped_fresh (hversion _ rfl) (by rintro ⟨⟩) fun place part hpart => ?_
      exact (Content.part?_set_insert hpart).imp_right (congrArg Part.version)
    | putScore key name score version =>
      cases h
      refine Slot.stamped_fresh (hversion _ rfl) (by rintro ⟨⟩) fun place part hpart => ?_
      exact (Content.part?_zset_insert hpart).imp_right (congrArg Part.version)
    | dropByScore =>
      rw [effect] at h
      split at h <;> cases h
    | _ => cases h
  | some slot =>
    have hstamped := hslot slot rfl
    cases c with
    | delete => cases h
    | put key item deadline =>
      cases h
      exact Slot.stamped_putItem deadline (hversion _ rfl) (hput key item deadline rfl)
    | setDeadline key deadline version =>
      cases h
      exact hstamped.reschedule deadline version
    | putField key name item =>
      refine Slot.kept_of (by rfl) hstamped (fun fields hfields hnext => ?_) h
      cases hnext
      refine hstamped.raise (hversion _ rfl) (by rintro ⟨⟩) fun place part hpart => ?_
      rw [Slot.hash_eq_ok hfields]
      exact (Content.part?_hash_insert hpart).imp_right (congrArg Part.version)
    | addMember key name version =>
      refine Slot.kept_of (by rfl) hstamped (fun members hmembers hnext => ?_) h
      cases hnext
      refine hstamped.raise (hversion _ rfl) (by rintro ⟨⟩) fun place part hpart => ?_
      rw [Slot.set_eq_ok hmembers]
      exact (Content.part?_set_insert hpart).imp_right (congrArg Part.version)
    | putScore key name score version =>
      refine Slot.kept_of (by rfl) hstamped (fun ranking hranking hnext => ?_) h
      cases hnext
      refine hstamped.raise (hversion _ rfl) (by rintro ⟨⟩) fun place part hpart => ?_
      rw [Slot.zset_eq_ok hranking]
      exact (Content.part?_zset_insert hpart).imp_right (congrArg Part.version)
    | dropField key name version =>
      refine Slot.kept_of (by rfl) hstamped (fun fields hfields hnext => ?_) h
      cases Slot.unlessEmpty_eq_some hnext
      refine hstamped.shrink (Version.le_max_left _ _) (by rintro ⟨⟩) (fun place part hpart => ?_) _
      rw [Slot.hash_eq_ok hfields]
      exact Content.part?_hash_erase hpart
    | dropMember key name version =>
      refine Slot.kept_of (by rfl) hstamped (fun members hmembers hnext => ?_) h
      cases Slot.unlessEmpty_eq_some hnext
      refine hstamped.shrink (Version.le_max_left _ _) (by rintro ⟨⟩) (fun place part hpart => ?_) _
      rw [Slot.set_eq_ok hmembers]
      exact Content.part?_set_erase hpart
    | dropScore key name version =>
      refine Slot.kept_of (by rfl) hstamped (fun ranking hranking hnext => ?_) h
      cases Slot.unlessEmpty_eq_some hnext
      refine hstamped.shrink (Version.le_max_left _ _) (by rintro ⟨⟩) (fun place part hpart => ?_) _
      rw [Slot.zset_eq_ok hranking]
      exact Content.part?_zset_erase hpart
    | dropByScore key low high version =>
      rw [effect] at h
      split at h
      · cases h
        exact hstamped
      · refine Slot.kept_of (by rfl) hstamped (fun ranking hranking hnext => ?_) h
        have hparts : ∀ doomed : List Standing, ∀ place part,
            (Content.zset (doomed.foldl (fun rest standing => rest.erase standing.member)
              ranking)).part? place = some part → slot.content.part? place = some part := by
          intro doomed place part hpart
          rw [Slot.zset_eq_ok hranking]
          exact Content.part?_zset_foldl_erase hpart
        cases Slot.unlessEmpty_eq_some hnext
        split
        · exact hstamped.shrink (UInt64.le_refl _) (by rintro ⟨⟩) (hparts _) _
        · exact hstamped.shrink (Version.le_max_left _ _) (by rintro ⟨⟩) (hparts _) _
    | _ =>
      cases h
      exact hstamped

/-- Whether a call puts no string and stamps nothing with version 0. -/
def Call.regular : Call → Bool
  | .put .. => false
  | c => c.stamp? != some 0

theorem Call.regular_of_grows {c : Call} {version : Version} (hc : c.grows = true)
    (hsame : c.version? = some version) (hversion : version ≠ 0) : c.regular = true := by
  have hne : (some version != some 0) = true := by simpa using hversion
  cases c with
  | putField | addMember | putScore => cases hsame; exact hne
  | _ => cases hc

namespace Store

variable {store : Store} {now : Millis} {c : Call}

/-- Whether everything that is kept is stamped. -/
def Stamped (store : Store) : Prop :=
  ∀ (key : Bytes) (slot : Slot), store.slots[key]? = some slot → slot.Stamped

theorem stamped_empty : Stamped empty := by
  intro key slot hslot
  simp [empty] at hslot

namespace Stamped

theorem perform (h : store.Stamped) (hstamp : c.stamp? ≠ some 0)
    (hput : ∀ key item deadline, c = .put key item deadline →
      ∀ slot, store.live? now key = some slot → slot.version ≤ item.version) :
    (store.perform now c).2.Stamped := by
  refine forall_slot_perform h fun key hkey next hnext => ?_
  refine Call.stamped_effect hstamp ?_ (fun old hold => h key old (live?_eq_some.mp hold).1) hnext
  rintro other item deadline rfl slot hslot
  cases hkey
  exact hput _ item deadline rfl slot hslot

theorem put (h : store.Stamped) {key : Bytes} {item : Item}
    (hversion : item.version ≠ 0)
    (hnewer : ∀ slot, store.live? now key = some slot → slot.version < item.version)
    (deadline : Option Millis) : (store.perform now (.put key item deadline)).2.Stamped := by
  refine h.perform (fun hzero => hversion (Option.some.inj hzero)) ?_
  rintro other offered deadline' hsame slot hslot
  cases hsame
  exact UInt64.le_of_lt (hnewer slot hslot)

theorem perform_regular (h : store.Stamped) (hc : c.regular = true) :
    (store.perform now c).2.Stamped := by
  refine h.perform (fun hzero => ?_) ?_
  · cases c <;> simp_all [Call.regular, Call.stamp?]
  · rintro key item deadline rfl
    cases hc

/-- Rising writes keep the stamps in step. -/
theorem foldl_written {writes : List Write} (h : store.Stamped) (hopen : store.closed = false)
    (hrising : Rising now store writes) :
    (writes.foldl (Strings.written now) store).Stamped := by
  induction writes generalizing store with
  | nil => exact h
  | cons write rest ih =>
    have hadmits := hrising.admits write List.mem_cons_self
    have hwritten : (Strings.written now store write).Stamped :=
      h.put hadmits.ne_zero hadmits.newer write.deadline
    refine ih hwritten ?_ (hrising.written hopen)
    rw [Strings.closed_written, hopen]

end Stamped

end Store

/-- Regular calls keep the stamps in step. -/
theorem Script.Calls.stamped {ε α : Type} {script : Script ε α}
    (hcalls : script.Calls fun c => c.regular = true) {now : Millis} {store : Store}
    (h : store.Stamped) : (script.on now store).2.Stamped :=
  hcalls.preserves_on (fun _ hc _ hstore => hstore.perform_regular hc) h

/-! ## Commands -/

namespace Command

variable {command : Command} {context : Context} {store : Store} {key : Bytes}
  {version : Version}

/-- A command that adds to a collection stamps no part with 0. -/
theorem regular_calls_of_grows (hgrows : command.grows = true) :
    (command.script context).Calls fun c => c.regular = true := by
  cases command with
  | hset key field item terms =>
    exact calls_reply (Hashes.calls_put (by rfl) (by rfl) fun hversion =>
      Call.regular_of_grows rfl rfl hversion) _
  | hmset key values terms =>
    exact calls_reply (Hashes.calls_putMany (by rfl) (fun _ _ => by rfl) fun _ _ hversion =>
      Call.regular_of_grows rfl rfl hversion) _
  | hincrBy key field version delta terms =>
    exact calls_reply (Hashes.calls_add (by rfl) (by rfl) (fun hversion _ =>
      Call.regular_of_grows rfl rfl hversion) delta) _
  | sadd key members terms =>
    exact calls_reply (Sets.calls_addMany (by rfl) (fun _ _ => by rfl) fun _ _ hversion =>
      Call.regular_of_grows rfl rfl hversion) _
  | zadd key items terms =>
    exact calls_reply (Rankings.calls_addMany (by rfl) (fun _ _ => by rfl) fun _ _ hversion =>
      Call.regular_of_grows rfl rfl hversion) _
  | zincrBy key member version delta terms =>
    exact calls_reply (Rankings.calls_add (by rfl) (by rfl) (fun hversion _ =>
      Call.regular_of_grows rfl rfl hversion) delta) _
  | _ => cases hgrows

/-- A command that neither writes strings nor renames stamps nothing with 0. -/
theorem regular_calls (hputs : command.puts? = none)
    (hmset : ∀ items terms mode, command ≠ .mset items terms mode)
    (hrename : ∀ source target version onlyIfAbsent,
      command ≠ .rename source target version onlyIfAbsent) :
    (command.script context).Calls fun c => c.regular = true := by
  cases hgrows : command.grows with
  | true => exact regular_calls_of_grows hgrows
  | false =>
    refine (script_calls context command).mono fun c hc => ?_
    cases command with
    | getSet | set | setEx | setWith | incrBy | decrBy => cases hputs
    | mset => exact absurd rfl (hmset _ _ _)
    | rename => exact absurd rfl (hrename _ _ _ _)
    | hset | hmset | hincrBy | sadd | zadd | zincrBy => cases hgrows
    | _ =>
      simp only [Footprint] at hc
      grind [Call.regular, Call.stamp?]

theorem stamped_of_regular (h : store.Stamped) (hputs : command.puts? = none)
    (hmset : ∀ items terms mode, command ≠ .mset items terms mode)
    (hrename : ∀ source target version onlyIfAbsent,
      command ≠ .rename source target version onlyIfAbsent) :
    (command.run context store).2.Stamped :=
  (regular_calls hputs hmset hrename).stamped h

/-- A command that writes one string writes it over something older. -/
theorem stamped_puts (h : store.Stamped) (hputs : command.puts? = some (key, version)) :
    (command.run context store).2.Stamped := by
  have hcommits := (commits_puts hputs : (command.script context).Commits _ _)
  rw [run_eq]
  cases hclosed : store.closed with
  | true =>
    rcases hcommits.run_eq context.now store with hsame | ⟨c, _, hcall⟩
    · rw [hsame]
      exact h
    · rw [hcall, Store.perform_closed hclosed]
      exact h
  | false =>
    have hcall : ∀ c, (∃ value deadline, c = .put key ⟨value, version⟩ deadline) →
        ∃ answer, (store.perform context.now c).1 = .ok answer := by
      rintro c ⟨value, deadline, rfl⟩
      exact ⟨(), Store.fst_perform_put hclosed _ _ _⟩
    rcases hcommits.run_cases context.now store hcall with
      ⟨reason, _, hrun⟩ | ⟨c, reply, ⟨value, deadline, rfl⟩, hrun⟩
    · rw [hrun]
      exact h
    · have hadmits := admits_of_script hputs hrun
      rw [hrun]
      exact h.put hadmits.ne_zero hadmits.newer deadline

/-- So does a batch of strings. -/
theorem stamped_mset (h : store.Stamped) (items : List (Bytes × Item)) (terms : Terms)
    (mode : WriteMode) : ((mset items terms mode).run context store).2.Stamped := by
  have hrun : (mset items terms mode).run context store = _ := run_of_reply (by rfl) store
  rw [hrun]
  by_cases hitems : items = []
  · subst hitems
    exact h
  · rw [Strings.on_setMany hitems]
    cases hclosed : store.closed with
    | true =>
      rw [Strings.writes_closed hclosed]
      exact h
    | false =>
      have hpending : Strings.PendingNewer context.now store ∅ := .empty _ _
      exact h.foldl_written hclosed (Strings.rising_writes _ items hpending).1

end Command

/-! ## Renames -/

namespace Store.Stamped

variable {store : Store} {now : Millis} {key : Bytes} (h : store.Stamped)
include h

theorem ne_zero_of_part {slot : Slot} (hslot : store.live? now key = some slot) {place : Place}
    {part : Part} (hpart : slot.content.part? place = some part) : part.version ≠ 0 :=
  ((h key slot (live?_eq_some.mp hslot).1).content.part place part hpart).1

theorem ne_zero_of_fields {fields : List (Bytes × Item)}
    (hread : (store.perform now (.fields key)).1 = .ok fields) :
    ∀ entry ∈ fields, entry.2.version ≠ 0 := by
  rintro ⟨name, item⟩ hentry
  rcases view_eq_ok hread with rfl | ⟨slot, hslot, hquestion⟩
  · cases hentry
  · cases hhash : slot.hash with
    | error failure =>
      rw [hhash] at hquestion
      cases hquestion
    | ok map =>
      rw [hhash] at hquestion
      cases hquestion
      have hpart : slot.content.part? (.field name) = some (.field item) := by
        rw [Slot.hash_eq_ok hhash, Content.part?,
          Std.ExtTreeMap.mem_toList_iff_getElem?_eq_some.mp hentry]
        rfl
      exact h.ne_zero_of_part hslot hpart

theorem ne_zero_of_members {members : List (Bytes × Version)}
    (hread : (store.perform now (.members key)).1 = .ok members) :
    ∀ entry ∈ members, entry.2 ≠ 0 := by
  rintro ⟨name, version⟩ hentry
  rcases view_eq_ok hread with rfl | ⟨slot, hslot, hquestion⟩
  · cases hentry
  · cases hset : slot.set with
    | error failure =>
      rw [hset] at hquestion
      cases hquestion
    | ok map =>
      rw [hset] at hquestion
      cases hquestion
      have hpart : slot.content.part? (.member name) = some (.member version) := by
        rw [Slot.set_eq_ok hset, Content.part?,
          Std.ExtTreeMap.mem_toList_iff_getElem?_eq_some.mp hentry]
        rfl
      exact h.ne_zero_of_part hslot hpart

theorem ne_zero_of_entries (hsound : store.Sound) {start stop : UInt64} {entries : List Ranked}
    (hread : (store.perform now (.byRank key start stop)).1 = .ok entries) :
    ∀ entry ∈ entries, entry.version ≠ 0 := by
  intro entry hentry
  rw [Store.perform] at hread
  split at hread
  · cases hread
    cases hentry
  · rcases view_eq_ok hread with rfl | ⟨slot, hslot, hquestion⟩
    · cases hentry
    · cases hzset : slot.zset with
      | error failure =>
        rw [hzset] at hquestion
        cases hquestion
      | ok ranking =>
        rw [hzset] at hquestion
        cases hquestion
        have hcontent := Slot.zset_eq_ok hzset
        have hcoherent : ranking.Coherent :=
          (hsound key slot (live?_eq_some.mp hslot).1).coherent ranking hcontent
        obtain ⟨standing, hstanding, hsame⟩ := List.mem_map.mp hentry
        have hmem : entry ∈ ranking.entries := by
          rw [← hsame]
          exact List.mem_map_of_mem (List.mem_of_mem_drop (List.mem_of_mem_take hstanding))
        have hpart : slot.content.part? (.score entry.member) =
            some (.score ⟨entry.score, entry.version⟩) := by
          rw [hcontent, Content.part?, hcoherent.mem_entries.mp hmem]
          rfl
        exact h.ne_zero_of_part hslot hpart

end Store.Stamped

namespace Keys

variable {store : Store} {now : Millis} {source target : Bytes} {version : Version}

/-- Filling a name part by part stamps nothing with 0 if no part is. -/
theorem regular_refill {ι : Type} {call : ι → Call} {parts : List ι}
    (h : ∀ part ∈ parts, (call part).regular = true) (deadline : Option Millis) :
    ((discard (ask (.delete target)) : Script Failure Unit).bind fun _ =>
      (parts.forM fun part => discard (ask (call part))).bind fun _ =>
        discard (ask (.setDeadline target deadline version))).Calls fun c => c.regular = true := by
  refine .bind (.discard (.ask rfl)) fun _ => ?_
  refine .bind (.forM fun part hpart => .discard (.ask (h part hpart))) fun _ => ?_
  exact .discard (.ask rfl)

/-- A copy over something older keeps the stamps in step. -/
theorem stamped_copy (h : store.Stamped) (hsound : store.Sound) (hversion : version ≠ 0)
    (hlower : ∀ slot, store.live? now target = some slot → slot.version < version)
    (source : Bytes) (record : Record) :
    ((copy source target record version).on now store).2.Stamped := by
  let p (run : Except Failure Unit × Store) : Prop := run.2.Stamped
  have hrefused : ∀ failure, True → p (.error failure, store) := fun _ _ => h
  have hask {c : Call} (hc : c.reads = true) : (ask c).Asks fun _ => True :=
    .ask (fun _ => trivial) hc
  have hanswer {c : Call} {answer : c.Answer}
      (hrun : (ask c).on now store = (.ok answer, store)) :
      (store.perform now c).1 = .ok answer := by
    rw [← Script.on_ask, hrun]
  change p _
  unfold copy
  cases record.kind with
  | string =>
    refine (hask rfl).on_bind hrefused fun item _ => ?_
    rw [Script.on_ask]
    exact h.put hversion hlower record.deadline
  | hash =>
    refine (hask rfl).on_bind hrefused fun fields hfields => ?_
    have hparts := h.ne_zero_of_fields (hanswer hfields)
    exact (regular_refill (fun entry hentry =>
      Call.regular_of_grows rfl rfl (hparts entry hentry)) record.deadline).stamped h
  | set =>
    refine (hask rfl).on_bind hrefused fun members hmembers => ?_
    have hparts := h.ne_zero_of_members (hanswer hmembers)
    exact (regular_refill (fun entry hentry =>
      Call.regular_of_grows rfl rfl (hparts entry hentry)) record.deadline).stamped h
  | zset =>
    refine (hask rfl).on_bind hrefused fun size _ => ?_
    dsimp only
    split
    · exact (regular_refill nofun record.deadline).stamped h
    · refine (hask rfl).on_bind hrefused fun entries hentries => ?_
      have hparts := h.ne_zero_of_entries hsound (hanswer hentries)
      exact (regular_refill (fun entry hentry =>
        Call.regular_of_grows rfl rfl (hparts entry hentry)) record.deadline).stamped h

theorem stamped_move (h : store.Stamped) (hsound : store.Sound) (hversion : version ≠ 0)
    (hlower : ∀ slot, store.live? now target = some slot → slot.version < version)
    (source : Bytes) (record : Record) :
    ((move source target record version).on now store).2.Stamped := by
  have hcopy := stamped_copy h hsound hversion hlower source record
  rw [move, Script.bind_eq, Script.on_bind]
  split
  · rename_i between hrun
    rw [hrun] at hcopy
    rw [Script.on_discard_ask]
    exact hcopy.perform_regular rfl
  · rename_i failure between hrun
    rw [hrun] at hcopy
    exact hcopy

theorem stamped_rename (h : store.Stamped) (hsound : store.Sound) (source target : Bytes)
    (version : Version) (onlyIfAbsent : Bool) :
    ((rename source target version onlyIfAbsent).on now store).2.Stamped := by
  by_cases hne : source = target
  · subst hne
    rw [rename_self]
    exact h
  · rcases on_rename hne version onlyIfAbsent store with
      ⟨status, _, hrun⟩ | ⟨hversion, _, hgranted, slot, _, hrun⟩
    · rw [hrun]
      exact h
    · have hlower : ∀ slot, store.live? now target = some slot → slot.version < version :=
        fun slot hslot => (hgranted slot hslot).2
      rw [hrun, Script.on_mapRefusal]
      exact stamped_move h hsound hversion hlower source slot.record

end Keys

/-! ## Histories -/

/-- Every command keeps the stamps in step. -/
theorem Command.stamped_run {store : Store} (h : store.Stamped) (hsound : store.Sound)
    (context : Context) (command : Command) : (command.run context store).2.Stamped := by
  cases command with
  | getSet | set | setEx | setWith | incrBy | decrBy => exact stamped_puts h rfl
  | mset items terms mode => exact stamped_mset h items terms mode
  | rename source target version onlyIfAbsent =>
    rw [run_rename]
    exact Keys.stamped_rename h hsound source target version onlyIfAbsent
  | _ => exact stamped_of_regular h rfl nofun nofun

theorem runAll_stamped (steps : List Step) {store : Store} (hreachable : store.Reachable)
    (h : store.Stamped) : (runAll steps store).2.Stamped := by
  induction steps generalizing store with
  | nil => exact h
  | cons step rest ih =>
    exact ih (hreachable.run step.context step.command)
      (step.command.stamped_run h hreachable.sound step.context)

theorem Command.run_get {store : Store} {context : Context} {key : Bytes} {slot : Slot}
    {item : Item} (hopen : store.closed = false)
    (hslot : store.live? context.now key = some slot) (hitem : slot.content = .string item) :
    ((get key).run context store).1 = ⟨.ok, .item item⟩ := by
  have hrun : (get key).run context store = _ := run_of_reply (by rfl) store
  have hstring : slot.string = .ok item := by
    rw [Slot.string, hitem]
  have hanswer : store.perform context.now (.get key) = (.ok (some item), store) := by
    rw [Store.perform, Store.view_part hopen hslot hstring none some]
  rw [hrun, Strings.get, Script.bind_eq, Script.on_bind, Script.on_query, hanswer]
  rfl

/-- Whatever runs from the empty store, no version that is stored is ever 0, a
live string is read at the version of its key, and no field or member of a live
collection is ahead of its key. -/
theorem runAll_versions (steps : List Step) :
    let store := (runAll steps .empty).2
    (∀ (key : Bytes) slot, store.slots[key]? = some slot →
      slot.version ≠ 0 ∧ (∀ item, slot.content = .string item → item.version ≠ 0) ∧
      ∀ place part, slot.content.part? place = some part → part.version ≠ 0) ∧
    ∀ (context : Context) key slot, store.live? context.now key = some slot →
      ((Command.keyVersion key).run context store).1 = ⟨.ok, .version slot.version⟩ ∧
      (∀ item, slot.content = .string item →
        ((Command.get key).run context store).1 = ⟨.ok, .item item⟩ ∧
        item.version = slot.version) ∧
      ∀ place part, slot.content.part? place = some part → part.version ≤ slot.version := by
  intro store
  have hreachable : store.Reachable := Store.Reachable.empty.runAll steps
  have hstamped : store.Stamped := runAll_stamped steps .empty Store.stamped_empty
  refine ⟨fun key slot hslot => ?_, fun context key slot hslot => ?_⟩
  · obtain ⟨hversion, hcontent⟩ := hstamped key slot hslot
    refine ⟨hversion, fun item hitem => ?_, fun place part hpart => ?_⟩
    · rw [hcontent.string item hitem]
      exact hversion
    · exact (hcontent.part place part hpart).1
  · have hopen : store.closed = false := hreachable.open_of_live hslot
    obtain ⟨_, hcontent⟩ := hstamped key slot (Store.live?_eq_some.mp hslot).1
    refine ⟨Command.run_keyVersion_iff.mpr ⟨hopen, slot, hslot, rfl⟩, fun item hitem => ?_,
      fun place part hpart => (hcontent.part place part hpart).2⟩
    exact ⟨Command.run_get hopen hslot hitem, hcontent.string item hitem⟩

end Keyspace
