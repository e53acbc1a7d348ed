import Keyspace.Proofs.Settled

/-!
# Counters

A counter is counted at a version, and it remembers the version.  Whoever counts at
the same version again is refused, so nothing is counted twice.

There are three groups.

* Scripts.  `Script.Spent` says of a script that it is refused once it has
  succeeded.
* Strings.  `Strings.Added` is all that a success tells.  Counting keeps the deadline of
  the counter, so the counter is there when the next one asks for it
  (`Strings.of_add`).
* Fields and members.  The two are counted behind the same checks.  A success tells
  what these have found (`ready_of_admitted`, `of_read`) and that the sum has been
  written (`of_write`), and at a part that is as new as the count they lead to a refusal
  (`Store.Ready.on_count_stale`).
-/

namespace Keyspace

variable {α : Type} {now : Millis} {store after : Store} {key name : Bytes} {kind : Kind}
  {version : Version} {terms : Terms} {delta result : Int64}

/-! ## Scripts -/

/-- Whether a script that has succeeded is refused if it runs again at the same moment,
because what it finds is too new. -/
def Script.Spent (now : Millis) (store : Store) (script : Script Status α) : Prop :=
  ∀ result after, script.on now store = (.ok result, after) →
    script.on now after = (.error .versionMismatch, after)

theorem Script.Spent.map {β : Type} {script : Script Status α} (h : script.Spent now store)
    (f : α → β) : (script.bind fun result => done (f result)).Spent now store := by
  intro _ after hrun
  obtain ⟨result, between, hscript, hdone⟩ := Script.on_bind_eq_ok hrun
  cases hdone
  exact Script.on_bind_error (h result after hscript) _

theorem newer_of_requireNewer {stored : Option Version}
    (h : (requireNewer stored version).on now store = (.ok (), after)) :
    stored.any (version ≤ ·) = false := by
  unfold requireNewer at h
  split at h
  · cases h
  · rename_i hnewer
    exact Bool.eq_false_iff.mpr hnewer

theorem value_of_ofOption {reason : Status} {value? : Option α} {value : α}
    (h : (Script.ofOption reason value?).on now store = (.ok value, after)) :
    value? = some value := by
  cases value? with
  | none => cases h
  | some found =>
    cases h
    rfl

theorem requireNewer_of_le {stored : Option Version} (h : stored.any (version ≤ ·) = true) :
    requireNewer stored version = .refuse .versionMismatch :=
  if_pos h

/-! ## Strings -/

namespace Strings

/-- What a count that has succeeded has found and done: the version is new, the counter
is absent or a number, and the sum is written with the deadline that the counter had. -/
structure Added (now : Millis) (store : Store) (key : Bytes) (version : Version)
    (delta result : Int64) (after : Store) : Prop where
  ne_zero : version ≠ 0
  isOpen : store.closed = false
  kind : ∀ slot ∈ store.live? now key, slot.content.kind = .string
  newer : ((store.live? now key).map Slot.version).any (version ≤ ·) = false
  sum : ∃ item? current, store.perform now (.get key) = (.ok item?, store) ∧
    item?.elim (some 0) (fun item => Decimal.int64? item.value) = some current ∧
    addWithin current delta = some result
  put : store.perform now (.put key ⟨Decimal.ofInt result.toInt, version⟩
    ((store.live? now key).bind Slot.deadline)) = (.ok (), after)

theorem added (h : (add key version delta terms).on now store = (.ok result, after)) :
    Added now store key version delta result after := by
  obtain ⟨_, hversion, h⟩ := Script.Calls.on_bind_eq_ok calls_requireVersion h
  obtain ⟨found, hkind, h⟩ := Script.Calls.on_bind_eq_ok (calls_checkKind (by rfl) .string) h
  obtain ⟨_, hnewer, h⟩ := Script.Calls.on_bind_eq_ok (calls_requireNewer _) h
  obtain ⟨item?, hget, h⟩ := Script.Calls.on_bind_eq_ok (.query (by rfl)) h
  obtain ⟨hrecord, _, hall⟩ := record_of_checkKind hkind
  obtain ⟨hopen, hfound⟩ := Store.record_eq_ok.mp hrecord
  have hstring : ∀ slot ∈ store.live? now key, slot.content.kind = .string := by
    intro slot hslot
    rw [← hfound, Option.mem_def.mp hslot] at hall
    exact of_decide_eq_true hall
  have hfresh := newer_of_requireNewer hnewer
  have hdeadline : found.bind Record.deadline = (store.live? now key).bind Slot.deadline := by
    rw [← hfound, Option.bind_map]
    rfl
  rw [← hfound, Option.map_map] at hfresh
  have hrest : ∀ current, (do
      let next ← Script.ofOption .overflow (addWithin current delta)
      query (.put key ⟨Decimal.ofInt next.toInt, version⟩ (found.bind Record.deadline))
      return next : Script Status Int64).on now store = (.ok result, after) →
      addWithin current delta = some result ∧ store.perform now (.put key
        ⟨Decimal.ofInt result.toInt, version⟩ (found.bind Record.deadline)) = (.ok (), after) := by
    intro current h
    obtain ⟨next, hnext, h⟩ := Script.Calls.on_bind_eq_ok (.ofOption _) h
    obtain ⟨_, between, hquery, hdone⟩ := Script.on_bind_eq_ok h
    cases hdone
    exact ⟨value_of_ofOption hnext, Script.on_query_eq_ok hquery⟩
  have hcurrent : ∃ current, item?.elim (some 0) (fun item => Decimal.int64? item.value) =
      some current ∧ addWithin current delta = some result ∧ store.perform now (.put key
        ⟨Decimal.ofInt result.toInt, version⟩ (found.bind Record.deadline)) = (.ok (), after) := by
    cases item? with
    | none =>
      obtain ⟨current, hzero, h⟩ := Script.Calls.on_bind_eq_ok (.done _) h
      cases hzero
      exact ⟨0, rfl, hrest 0 h⟩
    | some item =>
      obtain ⟨current, hnumber, h⟩ := Script.Calls.on_bind_eq_ok (.ofOption _) h
      exact ⟨current, value_of_ofOption hnumber, hrest current h⟩
  obtain ⟨current, hnumber, hsum, hput⟩ := hcurrent
  rw [hdeadline] at hput
  exact ⟨ne_zero_of_requireVersion hversion, hopen, hstring, hfresh,
    ⟨item?, current, Script.on_query_eq_ok hget, hnumber, hsum⟩, hput⟩

/-- A counter that has been counted at a version is live at that version. -/
theorem of_add (h : (add key version delta terms).on now store = (.ok result, after)) :
    version ≠ 0 ∧ after.closed = false ∧ ∃ slot, after.live? now key = some slot ∧
      slot.content.kind = .string ∧ version ≤ slot.version := by
  obtain ⟨hversion, hopen, _, _, _, hput⟩ := added h
  -- the deadline is that of a live slot, so it has not passed
  have hlasts : ((store.live? now key).bind Slot.deadline).any (· ≤ now) = false := by
    cases hslot : store.live? now key with
    | none => rfl
    | some slot => exact (Store.live?_eq_some.mp hslot).2
  have hlive : (store.perform now (.put key ⟨Decimal.ofInt result.toInt, version⟩
      ((store.live? now key).bind Slot.deadline))).2.live? now key = _ :=
    Store.live?_perform_self hopen rfl
  have hclosed : (store.perform now (.put key ⟨Decimal.ofInt result.toInt, version⟩
      ((store.live? now key).bind Slot.deadline))).2.closed = store.closed :=
    Store.closed_perform (by simp)
  rw [hput] at hlive hclosed
  refine ⟨hversion, hclosed.trans hopen, _,
    hlive.trans (Slot.live?_eq_some.mpr ⟨rfl, hlasts⟩), rfl, ?_⟩
  cases store.live? now key with
  | none => exact UInt64.le_refl _
  | some slot => exact Version.le_max_left _ _

/-- A counter that is at a version refuses to be counted at it. -/
theorem on_add_stale (hversion : version ≠ 0) (hopen : store.closed = false) {slot : Slot}
    (hslot : store.live? now key = some slot) (hkind : slot.content.kind = .string)
    (hle : version ≤ slot.version) (delta : Int64) :
    (add key version delta terms).on now store = (.error .versionMismatch, store) := by
  have hheld : ∀ found ∈ store.live? now key, found.content.kind = .string := by
    rw [hslot]
    rintro _ ⟨⟩
    exact hkind
  rw [add, requireVersion_of_ne hversion]
  show ((checkKind key terms .string).bind _).on now store = _
  rw [Script.on_bind, on_checkKind_of_kind terms hopen hheld, hslot]
  cases terms.permit ((some slot).map Slot.record) with
  | false => rfl
  | true =>
    have hstale : (((some slot).map Slot.record).map Record.version).any (version ≤ ·) = true :=
      decide_eq_true hle
    simp only [if_true]
    rw [requireNewer_of_le hstale]
    rfl

theorem spent_add (key : Bytes) (version : Version) (delta : Int64) (terms : Terms) :
    (add key version delta terms).Spent now store := by
  intro result after h
  obtain ⟨hversion, hopen, slot, hslot, hkind, hle⟩ := of_add h
  exact on_add_stale hversion hopen hslot hkind hle delta

theorem spent_subtract (key : Bytes) (version : Version) (delta : Int64) (terms : Terms) :
    (subtract key version delta terms).Spent now store := by
  unfold subtract
  cases negWithin delta with
  | none => exact nofun
  | some delta => exact spent_add key version delta terms

end Strings

/-! ## Fields and members -/

/-- What has been admitted to a key has a version, and the key takes it. -/
theorem ready_of_admitted (hsound : store.Sound) {rest : Script Status α} {result : α}
    (h : ((requireVersion version).bind fun _ =>
      (discard (checkKind key terms kind)).bind fun _ => rest).on now store = (.ok result, after)) :
    version ≠ 0 ∧ store.Ready now key kind := by
  obtain ⟨_, hversion, h⟩ := Script.Calls.on_bind_eq_ok calls_requireVersion h
  obtain ⟨_, hcheck, _⟩ := Script.Calls.on_bind_eq_ok (.discard (calls_checkKind (by rfl) kind)) h
  obtain ⟨_, hkind, _⟩ := Script.Calls.on_bind_eq_ok (calls_checkKind (by rfl) kind) hcheck
  exact ⟨ne_zero_of_requireVersion hversion, ready_of_checkKind hsound hkind⟩

/-- A count that is not newer than the part that it reads is refused. -/
theorem Store.Ready.on_count_stale (h : store.Ready now key kind) (hkind : kind ≠ .string)
    (hversion : version ≠ 0) {read : Call} {answer : read.Answer}
    (hread : store.perform now read = (.ok answer, store))
    (stored : read.Answer → Option Version) (hstale : (stored answer).any (version ≤ ·) = true)
    (rest : read.Answer → Script Status α) :
    ((requireVersion version).bind fun _ => (discard (checkKind key terms kind)).bind fun _ =>
      (query read).bind fun found => (requireNewer (stored found) version).bind fun _ =>
        rest found).on now store = (.error .versionMismatch, store) := by
  have hheld : ∀ slot ∈ store.live? now key, slot.content.kind = kind :=
    fun slot hslot => (h.takes slot hslot).kind_eq hkind
  rw [requireVersion_of_ne hversion]
  show ((discard (checkKind key terms kind)).bind _).on now store = _
  rw [Script.discard_eq, Script.on_bind, Script.on_bind, on_checkKind_of_kind terms h.isOpen hheld]
  cases terms.permit ((store.live? now key).map Slot.record) with
  | false => rfl
  | true =>
    simp only [if_true]
    show ((query read).bind _).on now store = _
    rw [Script.on_bind, Script.on_query, hread]
    show ((requireNewer (stored answer) version).bind _).on now store = _
    rw [requireNewer_of_le hstale]
    rfl

/-- A count that goes on has found the part older. -/
theorem of_read {read : Call} (hread : read.reads = true) {stamp : read.Answer → Option Version}
    {rest : read.Answer → Script Status α} {result : α}
    (h : ((requireVersion version).bind fun _ => (discard (checkKind key terms kind)).bind fun _ =>
      (query read).bind fun stored => (requireNewer (stamp stored) version).bind fun _ =>
        rest stored).on now store = (.ok result, after)) :
    ∃ stored, store.perform now read = (.ok stored, store) ∧
      (stamp stored).any (version ≤ ·) = false ∧
      (rest stored).on now store = (.ok result, after) := by
  obtain ⟨_, _, h⟩ := Script.Calls.on_bind_eq_ok calls_requireVersion h
  obtain ⟨_, _, h⟩ := Script.Calls.on_bind_eq_ok (.discard (calls_checkKind (by rfl) kind)) h
  obtain ⟨stored, hquery, h⟩ := Script.Calls.on_bind_eq_ok (.query hread) h
  obtain ⟨_, hnewer, h⟩ := Script.Calls.on_bind_eq_ok (calls_requireNewer _) h
  exact ⟨stored, Script.on_query_eq_ok hquery, newer_of_requireNewer hnewer, h⟩

/-- A count that has gone to its end has written the sum. -/
theorem of_write {number : Int64} {write : Int64 → Call}
    (h : ((Script.ofOption .overflow (addWithin number delta)).bind fun next =>
      (discard (query (write next))).bind fun _ => .done next).on now store =
        (.ok result, after)) :
    addWithin number delta = some result ∧ (store.perform now (write result)).2 = after := by
  obtain ⟨next, hnext, h⟩ := Script.Calls.on_bind_eq_ok (.ofOption _) h
  obtain ⟨_, between, hdiscard, hdone⟩ := Script.on_bind_eq_ok h
  obtain ⟨_, _, hwrite, hunit⟩ := Script.on_bind_eq_ok hdiscard
  cases hdone
  cases hunit
  exact ⟨value_of_ofOption hnext, congrArg Prod.snd (Script.on_query_eq_ok hwrite)⟩

/-- A part that has been written keeps its key ready, and it is as new as the write. -/
theorem Store.Ready.of_call {update : Update} (h : store.Ready now key kind)
    (hkind : update.kind = kind) (hstring : kind ≠ .string) {answer : (update.call key).Answer}
    (hcall : store.perform now (update.call key) = (.ok answer, after)) :
    after.Ready now key kind ∧ update.stale (after.live? now key) = true := by
  have hafter : (store.perform now (update.call key)).2 = after := by rw [hcall]
  subst hkind
  rw [← hafter]
  exact ⟨Update.ready_call hstring h, Update.stale_call hstring h⟩

theorem Hashes.spent_add (hsound : store.Sound) (key name : Bytes) (version : Version)
    (delta : Int64) (terms : Terms) : (add key name version delta terms).Spent now store := by
  intro result after h
  have hcommits : (add key name version delta terms).Commits
      (fun c => ∃ value, c = (Update.field name ⟨value, version⟩ {}).call key) (· ≠ .ok) :=
    commits_add (fun value => ⟨value, rfl⟩) delta
  obtain ⟨hversion, hbefore⟩ := ready_of_admitted hsound h
  obtain ⟨_, answer, ⟨value, rfl⟩, hput⟩ := hcommits.run_ok h
  obtain ⟨hready, hstale⟩ := hbefore.of_call rfl (by decide) hput
  obtain ⟨stored, hread, hfound⟩ := answer_field hready.isOpen hready.takes name
  rw [Update.stale_eq (.field name ⟨value, version⟩ {}) hfound] at hstale
  exact hready.on_count_stale (by decide) hversion hread (Option.map Item.version) hstale _

theorem Rankings.spent_add (hsound : store.Sound) (key member : Bytes) (version : Version)
    (delta : Int64) (terms : Terms) : (add key member version delta terms).Spent now store := by
  intro result after h
  have hcommits : (add key member version delta terms).Commits
      (fun c => ∃ score, c = (Update.score ⟨member, score, version⟩ {}).call key) (· ≠ .ok) :=
    commits_add (fun score => ⟨score, rfl⟩) delta
  obtain ⟨hversion, hbefore⟩ := ready_of_admitted hsound h
  obtain ⟨_, answer, ⟨score, rfl⟩, hput⟩ := hcommits.run_ok h
  obtain ⟨hready, hstale⟩ := hbefore.of_call rfl (by decide) hput
  obtain ⟨stored, hread, hfound⟩ := answer_mark hready.isOpen hready.takes member
  rw [Update.stale_eq (.score ⟨member, score, version⟩ {}) hfound] at hstale
  exact hready.on_count_stale (by decide) hversion hread (Option.map Mark.version) hstale _

end Keyspace
