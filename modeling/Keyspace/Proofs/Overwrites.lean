import Keyspace.Proofs.Applied
import Keyspace.Proofs.Expectation

/-!
# Overwrites

A string takes the place of whatever its key holds, version and all.  So the
store would let a string lower the version of its key, and it is for the commands
to see to it that this does not happen.  This module shows that they do: whatever
a string takes the place of is older.

There are four groups.

* Single writes.  `Store.Admits` says what a store must be like for a string to be
  written at a version, and `Command.admits_of_puts` that every command that has
  written a string has found the store like that.
* Batches.  `Rising` says the same of a list of writes: each is newer than what it
  finds in the store, and newer than the writes before it to the same key.
  `rising_writes` is the induction over the plan of a batch.
* The reading of the version.  `Command.run_keyVersion_iff` ties the reply of
  `keyVersion` to the live slot.
* The assembly.  `Command.overwrites` tells from the reply to a command whether a
  string has been written to a key or another key has been renamed to it, and
  `Command.version_rises` says that the version of the key has risen then.
-/

namespace Keyspace

variable {now : Millis} {store : Store} {key : Bytes} {version demanded : Version}
  {expected : Option Version} {terms : Terms}

/-! ## Single writes -/

/-- What a store is like that takes a string under `key` at `version`: the key is
as the caller expects, and it holds nothing as new as the string. -/
structure Store.Admits (now : Millis) (store : Store) (key : Bytes) (expected : Option Version)
    (version : Version) : Prop where
  ne_zero : version ≠ 0
  current : ∀ demanded, expected = some demanded →
    ((store.live? now key).map Slot.version).getD 0 = demanded
  newer : ∀ slot, store.live? now key = some slot → slot.version < version

theorem lt_of_requireNewer {stored : Version} {after : Store}
    (h : (requireNewer (some stored) version).on now store = (.ok (), after)) :
    stored < version := by
  unfold requireNewer at h
  split at h
  · cases h
  · rename_i hle
    exact UInt64.not_le.mp fun hle' => hle (decide_eq_true hle')

namespace Store.Admits

theorem of_record {found : Option Record} (hrecord : store.record now key = .ok found)
    (hpermit : terms.permit found = true) (hversion : version ≠ 0)
    (hnewer : ∀ record, found = some record → record.version < version) :
    store.Admits now key terms.expected version := by
  obtain ⟨_, rfl⟩ := record_eq_ok.mp hrecord
  refine ⟨hversion, fun demanded hdemanded => ?_, fun slot hslot => ?_⟩
  · rw [Terms.permit, hdemanded, Option.map_map] at hpermit
    exact beq_iff_eq.mp hpermit
  · exact hnewer slot.record (by rw [hslot]; rfl)

theorem of_judgement {mode : WriteMode}
    (h : Strings.judgement terms mode (store.record now key) version = .ok) :
    store.Admits now key terms.expected version := by
  cases hrecord : store.record now key with
  | error failure =>
    rw [hrecord] at h
    exact absurd h (Strings.judgement_error_ne failure version)
  | ok found =>
    rw [hrecord] at h
    have hnewer : ∀ record, found = some record → record.version < version :=
      fun record hfound => Strings.lt_of_judgement h hfound
    unfold Strings.judgement at h
    by_cases hversion : version = 0
    · simp [hversion] at h
    · by_cases hpermit : terms.permit found = true
      · exact of_record hrecord hpermit hversion hnewer
      · simp [hversion, hpermit] at h

/-- What is written over an expected version is newer than that. -/
theorem lt_of_expected (h : store.Admits now key (some demanded) version) :
    demanded < version := by
  have hcurrent := h.current demanded rfl
  cases hlive : store.live? now key with
  | none =>
    have hversion := h.ne_zero
    rw [hlive] at hcurrent
    subst hcurrent
    show (0 : Version) < version
    grind
  | some slot =>
    rw [hlive] at hcurrent
    subst hcurrent
    exact h.newer slot hlive

end Store.Admits

namespace Strings

variable {item : Item} {mode : WriteMode} {after : Store}

theorem admits_of_set (hrun : (set key item terms mode).on now store = (.ok (), after)) :
    store.Admits now key terms.expected item.version := by
  rw [on_set] at hrun
  split at hrun
  · rename_i hgranted
    exact .of_judgement hgranted
  · cases hrun

theorem admits_of_store (hrun : (Strings.store key item terms mode).on now store = (.ok (), after))
    (hversion : item.version ≠ 0) : store.Admits now key terms.expected item.version := by
  have hset : set key item terms mode = Strings.store key item terms mode := by
    rw [set, requireVersion_of_ne hversion]
    rfl
  exact admits_of_set (hset ▸ hrun)

theorem admits_of_setFor {context : Context} {seconds : Nat}
    (hrun : (setFor context key item seconds).on now store = (.ok (), after)) :
    store.Admits now key none item.version := by
  obtain ⟨_, hversion, hstore⟩ := Script.Calls.on_bind_eq_ok calls_requireVersion hrun
  exact admits_of_store hstore (ne_zero_of_requireVersion hversion)

theorem admits_of_exchange {old : Item}
    (hrun : (exchange key item terms).on now store = (.ok old, after)) :
    store.Admits now key terms.expected item.version := by
  obtain ⟨_, hversion, hrun⟩ := Script.Calls.on_bind_eq_ok calls_requireVersion hrun
  obtain ⟨old?, _, hrun⟩ := Script.Calls.on_bind_eq_ok (.query (by rfl)) hrun
  obtain ⟨_, between, hstore, _⟩ := Script.on_bind_eq_ok hrun
  exact admits_of_store hstore (ne_zero_of_requireVersion hversion)

theorem admits_of_setWith {context : Context} {tokens : List String}
    (hrun : (setWith context key item terms tokens).on now store = (.ok (), after)) :
    store.Admits now key terms.expected item.version := by
  obtain ⟨_, hversion, hrun⟩ := Script.Calls.on_bind_eq_ok calls_requireVersion hrun
  cases htokens : SetOptions.ofTokens? tokens with
  | none =>
    rw [htokens] at hrun
    cases hrun
  | some options =>
    -- the options give a deadline and a mode; what the caller expects stays as it is
    have hstore : ∀ {expireTime mode},
        (Strings.store key item { terms with expireTime } mode).on now store = (.ok (), after) →
        store.Admits now key terms.expected item.version := by
      intro expireTime mode hstore
      have hadmits := admits_of_store hstore (ne_zero_of_requireVersion hversion)
      exact hadmits
    rw [htokens] at hrun
    dsimp only at hrun
    split at hrun
    · obtain ⟨_, _, hrun⟩ :=
        Script.Calls.on_bind_eq_ok (.discard (calls_requireRecord (by rfl))) hrun
      exact hstore hrun
    · exact hstore hrun

theorem admits_of_add {delta result : Int64}
    (hrun : (add key version delta terms).on now store = (.ok result, after)) :
    store.Admits now key terms.expected version := by
  obtain ⟨_, hversion, hrun⟩ := Script.Calls.on_bind_eq_ok calls_requireVersion hrun
  obtain ⟨found, hkind, hrun⟩ := Script.Calls.on_bind_eq_ok (calls_checkKind (by rfl) .string) hrun
  obtain ⟨_, hnewer, _⟩ := Script.Calls.on_bind_eq_ok (calls_requireNewer _) hrun
  obtain ⟨hrecord, hpermit, _⟩ := record_of_checkKind hkind
  refine .of_record hrecord hpermit (ne_zero_of_requireVersion hversion) ?_
  rintro record rfl
  exact lt_of_requireNewer hnewer

end Strings

namespace Command

variable {context : Context} {command : Command}

/-- A command that has written a string has found the store ready for it. -/
theorem admits_of_script {reply : Reply} {after : Store}
    (hputs : command.puts? = some (key, version))
    (hrun : (command.script context).on context.now store = (.ok reply, after)) :
    store.Admits context.now key command.expected? version := by
  cases command with
  | getSet key item terms =>
    cases hputs
    obtain ⟨_, _, hscript, _⟩ := Script.on_bind_eq_ok hrun
    exact Strings.admits_of_exchange hscript
  | set key item terms mode =>
    cases hputs
    obtain ⟨_, _, hscript, _⟩ := Script.on_bind_eq_ok hrun
    exact Strings.admits_of_set hscript
  | setEx key item seconds =>
    cases hputs
    obtain ⟨_, _, hscript, _⟩ := Script.on_bind_eq_ok hrun
    exact Strings.admits_of_setFor hscript
  | setWith key item terms tokens =>
    cases hputs
    obtain ⟨_, _, hscript, _⟩ := Script.on_bind_eq_ok hrun
    exact Strings.admits_of_setWith hscript
  | incrBy key version delta terms =>
    cases hputs
    obtain ⟨_, _, hscript, _⟩ := Script.on_bind_eq_ok hrun
    exact Strings.admits_of_add hscript
  | decrBy key version delta terms =>
    cases hputs
    obtain ⟨_, _, hscript, _⟩ := Script.on_bind_eq_ok hrun
    obtain ⟨_, _, hadd⟩ := Script.Calls.on_bind_eq_ok (.ofOption _) hscript
    exact Strings.admits_of_add hadd
  | _ => cases hputs

theorem admits_of_puts (hputs : command.puts? = some (key, version))
    (hok : (command.run context store).1.status = .ok) :
    store.Admits context.now key command.expected? version := by
  have hcommits := (commits_puts hputs : (command.script context).Commits _ _)
  rw [run_eq] at hok
  cases hrun : (command.script context).on context.now store with
  | mk ending after =>
    rw [hrun] at hok
    cases ending with
    | error status => exact absurd hok (hcommits.run_error hrun)
    | ok reply => exact admits_of_script hputs hrun

end Command

/-! ## Batches -/

/-- Writes to a store of which each is newer than what it finds there, and newer
than the writes before it to the same key. -/
structure Rising (now : Millis) (store : Store) (writes : List Write) : Prop where
  admits : ∀ write ∈ writes, store.Admits now write.key none write.item.version
  pairwise : writes.Pairwise fun a b => a.key = b.key → a.item.version < b.item.version

theorem Rising.cons {write : Write} {rest : List Write} (h : Rising now store rest)
    (hadmits : store.Admits now write.key none write.item.version)
    (hbelow : ∀ other ∈ rest, write.key = other.key →
      write.item.version < other.item.version) : Rising now store (write :: rest) := by
  refine ⟨fun other hother => ?_, List.pairwise_cons.mpr ⟨hbelow, h.pairwise⟩⟩
  rcases List.mem_cons.mp hother with rfl | hrest
  · exact hadmits
  · exact h.admits other hrest

/-- Once the first of some rising writes has been made, the others still rise. -/
theorem Rising.written {write : Write} {rest : List Write}
    (h : Rising now store (write :: rest)) (hopen : store.closed = false) :
    Rising now (Strings.written now store write) rest := by
  obtain ⟨hbelow, hpairwise⟩ := List.pairwise_cons.mp h.pairwise
  refine ⟨fun other hother => ?_, hpairwise⟩
  have hadmits := h.admits other (List.mem_cons_of_mem write hother)
  refine ⟨hadmits.ne_zero, nofun, fun slot hslot => ?_⟩
  rw [Strings.written, Store.live?_perform hopen (by simp)] at hslot
  split at hslot
  · rename_i hkey
    have hversion : (Slot.putItem write.item write.deadline
        (store.live? now other.key)).version = write.item.version := by
      refine Slot.version_putItem write.deadline fun old hold => UInt64.le_of_lt ?_
      refine (h.admits write List.mem_cons_self).newer old ?_
      rw [Option.some.inj hkey]
      exact hold
    obtain ⟨heffect, _⟩ := Slot.live?_eq_some.mp hslot
    cases heffect
    rw [hversion]
    exact hbelow other hother (Option.some.inj hkey)
  · exact hadmits.newer slot hslot

/-- A string that is newer than what it takes the place of is all that is kept under
its key. -/
theorem Store.Admits.getElem?_written {write : Write} (hopen : store.closed = false)
    (h : store.Admits now write.key expected write.item.version) :
    (Strings.written now store write).slots[write.key]? =
      some ⟨.string write.item, write.item.version, write.deadline⟩ := by
  have hput : (Strings.written now store write).slots[write.key]? =
      some (Slot.putItem write.item write.deadline (store.live? now write.key)) :=
    getElem?_revise_self hopen
  have hversion : (Slot.putItem write.item write.deadline
      (store.live? now write.key)).version = write.item.version :=
    Slot.version_putItem write.deadline fun old hold => UInt64.le_of_lt (h.newer old hold)
  rw [hput, ← hversion]
  rfl

/-- Under the key of any of some rising writes stands the last of those to that
key. -/
theorem Rising.getElem?_foldl {writes : List Write} (h : Rising now store writes)
    (hopen : store.closed = false) {write : Write} (hwrite : write ∈ writes) :
    ∃ last ∈ writes, last.key = write.key ∧ write.item.version ≤ last.item.version ∧
      (writes.foldl (Strings.written now) store).slots[write.key]? =
        some ⟨.string last.item, last.item.version, last.deadline⟩ := by
  induction writes generalizing store write with
  | nil => cases hwrite
  | cons first rest ih =>
    have hopen' : (Strings.written now store first).closed = false := by
      rw [Strings.closed_written, hopen]
    have hlater {other : Write} (hother : other ∈ rest) := ih (h.written hopen) hopen' hother
    rcases List.mem_cons.mp hwrite with rfl | hrest
    · by_cases hagain : ∃ other ∈ rest, other.key = write.key
      · obtain ⟨other, hother, hsame⟩ := hagain
        obtain ⟨last, hlast, hkey, hle, hslot⟩ := hlater hother
        have hlt := (List.pairwise_cons.mp h.pairwise).1 other hother hsame.symm
        rw [hsame] at hkey hslot
        exact ⟨last, List.mem_cons_of_mem write hlast, hkey,
          UInt64.le_trans (UInt64.le_of_lt hlt) hle, hslot⟩
      · have hnever : ∀ other ∈ rest, other.key ≠ write.key :=
          fun other hother hsame => hagain ⟨other, hother, hsame⟩
        refine ⟨write, List.mem_cons_self, rfl, UInt64.le_refl _, ?_⟩
        rw [List.foldl_cons, Strings.getElem?_foldl_written hnever]
        exact (h.admits write List.mem_cons_self).getElem?_written hopen
    · obtain ⟨last, hlast, hfound⟩ := hlater hrest
      exact ⟨last, List.mem_cons_of_mem first hlast, hfound⟩

namespace Strings

variable {mode : WriteMode} {pending : Std.ExtTreeMap Bytes Version}

/-- Whether the pending versions are above what is there. -/
def PendingNewer (now : Millis) (store : Store) (pending : Std.ExtTreeMap Bytes Version) : Prop :=
  ∀ key version, pending[key]? = some version →
    ∀ slot, store.live? now key = some slot → slot.version < version

theorem PendingNewer.empty (now : Millis) (store : Store) : PendingNewer now store ∅ := by
  intro key version hpending
  rw [Std.ExtTreeMap.getElem?_empty] at hpending
  cases hpending

theorem PendingNewer.insert (h : PendingNewer now store pending)
    (hnewer : ∀ slot, store.live? now key = some slot → slot.version < version) :
    PendingNewer now store (pending.insert key version) := by
  intro other earlier hearlier slot hslot
  by_cases hother : key = other
  · subst hother
    rw [Std.ExtTreeMap.getElem?_insert_self] at hearlier
    cases hearlier
    exact hnewer slot hslot
  · refine h other earlier ?_ slot hslot
    simpa [Std.ExtTreeMap.getElem?_insert, hother] using hearlier

/-- A granted item is newer than what is pending under its key and than what is
there. -/
theorem newer_of_planned {item : Item} (hpending : PendingNewer now store pending)
    (h : planned terms mode store now pending key item = .ok) :
    store.Admits now key none item.version ∧
      ∀ earlier, pending[key]? = some earlier → earlier < item.version := by
  unfold planned at h
  split at h
  · cases h
  · rename_i hversion
    cases hearlier : pending[key]? with
    | none =>
      rw [hearlier] at h
      have hadmits : store.Admits now key terms.expected item.version := .of_judgement h
      exact ⟨⟨hversion, nofun, hadmits.newer⟩, nofun⟩
    | some earlier =>
      rw [hearlier] at h
      have hlt : earlier < item.version := WriteMode.lt_of_verdict h
      refine ⟨⟨hversion, nofun, fun slot hslot => ?_⟩, fun _ hsame => Option.some.inj hsame ▸ hlt⟩
      exact UInt64.lt_trans (hpending key earlier hearlier slot hslot) hlt

/-- The writes of a batch rise, and they rise above what is pending. -/
theorem rising_writes (deadline : Option Millis) (items : List (Bytes × Item))
    (hpending : PendingNewer now store pending) :
    Rising now store (writes deadline items (plannedAll terms mode store now pending items)) ∧
      ∀ write ∈ writes deadline items (plannedAll terms mode store now pending items),
        ∀ earlier, pending[write.key]? = some earlier → earlier < write.item.version := by
  induction items generalizing pending with
  | nil => exact ⟨⟨nofun, .nil⟩, nofun⟩
  | cons entry rest ih =>
    obtain ⟨key, item⟩ := entry
    rw [plannedAll, writes_cons]
    by_cases hok : planned terms mode store now pending key item = .ok
    · obtain ⟨hadmits, habove⟩ := newer_of_planned hpending hok
      obtain ⟨hrising, hrest⟩ := ih (hpending.insert hadmits.newer)
      -- a later write to the key of the item finds the item pending
      have hlater : ∀ write ∈ writes deadline rest (plannedAll terms mode store now
          (pending.insert key item.version) rest), key = write.key →
          item.version < write.item.version := by
        intro write hwrite hsame
        refine hrest write hwrite item.version ?_
        rw [← hsame, Std.ExtTreeMap.getElem?_insert_self]
      rw [if_pos hok, if_pos hok]
      refine ⟨hrising.cons hadmits hlater, fun write hwrite earlier hearlier => ?_⟩
      rcases List.mem_cons.mp hwrite with rfl | hwrite
      · exact habove earlier hearlier
      · by_cases hsame : key = write.key
        · exact UInt64.lt_trans (habove earlier (hsame ▸ hearlier)) (hlater write hwrite hsame)
        · refine hrest write hwrite earlier ?_
          simpa [Std.ExtTreeMap.getElem?_insert, hsame] using hearlier
    · rw [if_neg hok, if_neg hok]
      exact ih hpending

/-- Writes that are all newer leave the key of any of them newer. -/
theorem bound_foldl_written (hopen : store.closed = false) {writes : List Write}
    (hnewer : ∀ write ∈ writes, write.key = key → version < write.item.version)
    (h : store.Bound now key (version < ·) ∨ ∃ write ∈ writes, write.key = key) :
    (writes.foldl (written now) store).Bound now key (version < ·) := by
  induction writes generalizing store with
  | nil =>
    rcases h with hbound | ⟨write, hwrite, _⟩
    · exact hbound
    · cases hwrite
  | cons write rest ih =>
    have hopen' : (written now store write).closed = false := by
      rw [closed_written, hopen]
    refine ih hopen' (fun other hother => hnewer other (List.mem_cons_of_mem write hother)) ?_
    by_cases hkey : write.key = key
    · have hfloor : (written now store write).Floor now key write.item.version :=
        Store.Floor.of_raises (c := .put write.key write.item write.deadline) rfl
          (congrArg some hkey) rfl (perform_put hopen write)
      left
      intro slot hslot
      exact UInt64.lt_of_lt_of_le (hnewer write List.mem_cons_self hkey) (hfloor slot hslot)
    · rcases h with hbound | ⟨other, hother, hsame⟩
      · have hne : (Call.put write.key write.item write.deadline).key? ≠ some key :=
          fun hsame => hkey (Option.some.inj hsame)
        exact .inl (hbound.perform (fun hsame => absurd hsame hne) fun hsame => absurd hsame hne)
      · rcases List.mem_cons.mp hother with rfl | hrest
        · exact absurd hsame hkey
        · exact .inr ⟨other, hrest, hsame⟩

end Strings

/-! ## The reading of the version -/

namespace Command

variable {context : Context} {command : Command} {reply : Reply} {old new : Version}

/-- The reply to a question for the version of a key is that of its live slot. -/
theorem run_keyVersion_iff :
    ((keyVersion key).run context store).1 = ⟨.ok, .version version⟩ ↔
      store.closed = false ∧
        ∃ slot, store.live? context.now key = some slot ∧ slot.version = version := by
  have hrun : (keyVersion key).run context store = _ := run_of_reply (by rfl) store
  rw [hrun, Keys.version, Script.bind_eq, Script.on_bind, on_requireRecord]
  cases hclosed : store.closed with
  | true =>
    rw [Store.record_closed hclosed]
    simp [Failure.status]
  | false =>
    rw [Store.record_open hclosed]
    cases store.live? context.now key with
    | none => simp
    | some slot => simp [Slot.record]

/-! ## The assembly -/

/-- Whether a reply reports that a string has been written to a key, or that
another key has been renamed to it. -/
def overwrites (command : Command) (reply : Reply) (key : Bytes) : Bool :=
  match command, reply with
  | mset items _ _, ⟨.ok, .statuses statuses⟩ =>
    (items.zip statuses).any fun ((target, _), status) => target = key ∧ status = .ok
  | rename source target _ _, ⟨.ok, _⟩ => source ≠ target ∧ target = key
  | command, ⟨.ok, _⟩ => command.puts?.any fun (target, _) => target = key
  | _, _ => false

/-- The three ways in which a key is overwritten. -/
theorem overwrites_cases (h : command.overwrites reply key = true) :
    reply.status = .ok ∧
      ((∃ version, command.puts? = some (key, version)) ∨
        (∃ items terms mode statuses item, command = .mset items terms mode ∧
          reply.data = .statuses statuses ∧ ((key, item), .ok) ∈ items.zip statuses) ∨
        ∃ source version onlyIfAbsent, source ≠ key ∧
          command = .rename source key version onlyIfAbsent) := by
  unfold overwrites at h
  split at h
  · rename_i items terms mode statuses
    obtain ⟨⟨⟨target, item⟩, status⟩, hentry, hsame⟩ := List.any_eq_true.mp h
    obtain ⟨rfl, rfl⟩ := of_decide_eq_true hsame
    exact ⟨rfl, .inr (.inl ⟨items, terms, mode, statuses, item, rfl, rfl, hentry⟩)⟩
  · rename_i source target version onlyIfAbsent data
    obtain ⟨hne, rfl⟩ := of_decide_eq_true h
    exact ⟨rfl, .inr (.inr ⟨source, version, onlyIfAbsent, hne, rfl⟩)⟩
  · obtain ⟨⟨target, version⟩, hputs, hsame⟩ := (Option.any_eq_true _ _).mp h
    obtain rfl := of_decide_eq_true hsame
    exact ⟨rfl, .inl ⟨version, hputs⟩⟩
  · cases h

/-- A command that has overwritten a key leaves it newer than it was. -/
theorem bound_of_overwrites (hopen : store.closed = false) {slot : Slot}
    (hslot : store.live? context.now key = some slot)
    (h : command.overwrites (command.run context store).1 key = true) :
    (command.run context store).2.Bound context.now key (slot.version < ·) := by
  obtain ⟨hok, ⟨version, hputs⟩ | ⟨items, terms, mode, statuses, item, rfl, hdata, hentry⟩ |
    ⟨source, version, onlyIfAbsent, hne, rfl⟩⟩ := overwrites_cases h
  · have hfloor : (command.run context store).2.Floor context.now key version := by
      refine floor_of_commits (commits_puts hputs) ?_ hok
      rintro c ⟨value, deadline, rfl⟩
      exact ⟨rfl, rfl, rfl⟩
    have hnewer : slot.version < version := (admits_of_puts hputs hok).newer slot hslot
    intro next hnext
    exact UInt64.lt_of_lt_of_le hnewer (hfloor next hnext)
  · have hitems : items ≠ [] := by
      rintro rfl
      cases hentry
    have hrun : (mset items terms mode).run context store = _ := run_of_reply (by rfl) store
    rw [Strings.on_setMany hitems] at hrun
    rw [hrun] at hdata ⊢
    cases hdata
    have hrising : Rising context.now store (Strings.writes (mode.deadline terms) items
        (Strings.plannedAll terms mode store context.now ∅ items)) :=
      (Strings.rising_writes _ items (Strings.PendingNewer.empty context.now store)).1
    refine Strings.bound_foldl_written hopen (fun write hwrite hkey => ?_) (.inr ?_)
    · exact (hrising.admits write hwrite).newer slot (hkey ▸ hslot)
    · exact ⟨⟨key, item, mode.deadline terms⟩, List.mem_filterMap.mpr ⟨_, hentry, rfl⟩, rfl⟩
  · rcases Keys.rename_target hne version onlyIfAbsent store with
      ⟨status, hstatus, hrefused⟩ | ⟨hlower, hfloor⟩
    · have hrun : (rename source key version onlyIfAbsent).run context store = _ :=
        run_of_reply (by rfl) store
      rw [hrun, hrefused] at hok
      exact absurd hok hstatus
    · intro next hnext
      rw [run_rename] at hnext
      exact UInt64.lt_of_lt_of_le (hlower slot hslot) (hfloor next hnext)

/-- While a key lives its version does not fall, whatever command runs, and it
rises when a string is written to the key or another key is renamed to it. -/
theorem version_rises (hbefore : ((keyVersion key).run context store).1 = ⟨.ok, .version old⟩)
    (hafter : ((keyVersion key).run context (command.run context store).2).1 =
      ⟨.ok, .version new⟩) :
    old ≤ new ∧ (command.overwrites (command.run context store).1 key = true → old < new) := by
  obtain ⟨hopen, slot, hslot, rfl⟩ := run_keyVersion_iff.mp hbefore
  obtain ⟨_, next, hnext, rfl⟩ := run_keyVersion_iff.mp hafter
  exact ⟨version_le_run hslot hnext, fun h => bound_of_overwrites hopen hslot h next hnext⟩

/-- A hash with an old field takes the place of a newer string. -/
theorem version_rises_rename :
    let context : Context := ⟨⟨5000⟩, .absolute⟩
    let store := (runAll [⟨context, .set [97] ⟨[49], 5⟩ {} {}⟩,
      ⟨context, .hset [98] [102] ⟨[50], 2⟩ {}⟩] .empty).2
    let after := ((rename [98] [97] 6 false).run context store).2
    ((keyVersion [97]).run context store).1 = ⟨.ok, .version 5⟩ ∧
      ((keyVersion [97]).run context after).1 = ⟨.ok, .version 6⟩ ∧ (5 : Version) < 6 := by
  intro context store after
  have hbefore : ((keyVersion [97]).run context store).1 = ⟨.ok, .version 5⟩ := by decide
  have hafter : ((keyVersion [97]).run context after).1 = ⟨.ok, .version 6⟩ := by decide
  exact ⟨hbefore, hafter, (version_rises hbefore hafter).2 (by decide)⟩

/-- A rename of a key to itself succeeds and leaves the key as it is, at the version
that it has. -/
theorem version_stays :
    (¬ ∀ (store : Store) (context : Context) (source target : Bytes) (onlyIfAbsent : Bool)
        (version old new : Version), store.Reachable →
      ((keyVersion target).run context store).1 = ⟨.ok, .version old⟩ →
      ((rename source target version onlyIfAbsent).run context store).1.status = .ok →
      ((keyVersion target).run context
        ((rename source target version onlyIfAbsent).run context store).2).1 =
          ⟨.ok, .version new⟩ → old < new) ∧
    let context : Context := ⟨⟨5000⟩, .absolute⟩
    let store := ((set [107] ⟨[97], 5⟩ {} {}).run context .empty).2
    let renamed := (rename [107] [107] 9 false).run context store
    renamed.1 = ⟨.ok, .nothing⟩ ∧
      ((keyVersion [107]).run context store).1 = ⟨.ok, .version 5⟩ ∧
      ((keyVersion [107]).run context renamed.2).1 = ⟨.ok, .version 5⟩ := by
  refine ⟨fun h => ?_, by decide⟩
  have hlt := h ((set [107] ⟨[97], 5⟩ {} {}).run ⟨⟨5000⟩, .absolute⟩ .empty).2
    ⟨⟨5000⟩, .absolute⟩ [107] [107] false 9 5 5 (Store.Reachable.empty.run _ _) (by decide)
    (by decide) (by decide)
  exact absurd hlt (by decide)

end Command

end Keyspace
