import Keyspace.Proofs.Closing
import Keyspace.Proofs.Interruption

/-!
# Commands after the store is closed

Once the store is closed no command succeeds and none shows data.  A closed store
does answer some calls, those for a range with its ends in the wrong order, and a
command may take an empty answer for an empty key; so it matters that every command
makes a call that fails before it makes any other.

There are four groups.

* Flaws.  `Command.flaw?` is the status under which a command is refused for its
  arguments alone.  It makes no call then (`Command.script_of_flaw`).
* Failing scripts.  `Script.Fails` says that a script is refused with `error`.  A
  composed script fails if its first part does (`Script.Fails.bind`), and so does
  every script of a command that starts with a call.
* Replies.  `Command.denial` is the reply of a closed store, and `Command.run_closed`
  says so of every command.
* Histories.  `Step.Denied` says what can be seen of such a reply, and
  `runAll_finalized` that all replies after a successful `finalize` are such.
-/

namespace Keyspace

/-! ## Flaws -/

namespace Command

variable {status : Status} {context : Context} {command : Command}

/-- Whether a pair of bounds stands for two scores. -/
def readsBounds (min max : String) : Bool :=
  (scoreBound? min).isSome && (scoreBound? max).isSome

/-- The status under which a command is refused for its arguments, if they are not
as they have to be: no version that is 0, no batch that is empty, no options, bounds
or amount without a meaning. -/
def flaw? : Command → Option Status
  | getSet _ item _ | set _ item _ _ | setEx _ item _ | hset _ _ item _ =>
    if item.version = 0 then some .error else none
  | setWith _ item _ tokens =>
    if item.version = 0 then some .error
    else if (SetOptions.ofTokens? tokens).isNone then some .wrongArgCount
    else none
  | incrBy _ version _ _ | hincrBy _ _ version _ _ | spop _ version _ | zincrBy _ _ version _ _
  | zremRangeByRank _ _ _ version _ | rename _ _ version _ =>
    if version = 0 then some .error else none
  | decrBy _ version delta _ =>
    if delta = Int64.minValue then some .overflow
    else if version = 0 then some .error
    else none
  | mset items _ _ => if items.isEmpty then some .wrongArgCount else none
  | mget keys => if keys.isEmpty then some .wrongArgCount else none
  | hmset _ values _ => if values.isEmpty then some .wrongArgCount else none
  | hmget _ fields => if fields.isEmpty then some .wrongArgCount else none
  | hdel _ fields _ => if fields.isEmpty then some .wrongArgCount else none
  | sadd _ members _ | srem _ members _ | zrem _ members _ =>
    if members.isEmpty then some .wrongArgCount else none
  | zadd _ items _ => if items.isEmpty then some .wrongArgCount else none
  | zcount _ min max | zrangeByScore _ min max _ _ =>
    if readsBounds min max then none else some .notANumber
  | zremRangeByScore _ min max version _ =>
    if version = 0 then some .error
    else if readsBounds min max then none
    else some .notANumber
  | del keys versions _ => if keys.length = versions.length then none else some .error
  | _ => none

theorem bounds_of_not_readsBounds {min max : String} (h : readsBounds min max = false) :
    Rankings.bounds min max = .refuse .notANumber := by
  unfold readsBounds at h
  unfold Rankings.bounds
  cases hmin : scoreBound? min with
  | none => rfl
  | some low =>
    cases hmax : scoreBound? max with
    | none => rfl
    | some high => simp [hmin, hmax] at h

theorem bounds_of_readsBounds {min max : String} (h : readsBounds min max = true) :
    ∃ low high, Rankings.bounds min max = .done (low, high) := by
  unfold readsBounds at h
  unfold Rankings.bounds
  cases hmin : scoreBound? min with
  | none => simp [hmin] at h
  | some low =>
    cases hmax : scoreBound? max with
    | none => simp [hmax] at h
    | some high => exact ⟨low, high, rfl⟩

theorem reply_refuse {α : Type} {script : Script Status α} (h : script = .refuse status)
    (data : α → Data) : reply script data = .refuse status := by
  rw [h]
  rfl

/-- A script that demands a version ends there if it is 0. -/
theorem refuse_of_version {α : Type} {version : Version} (h : version = 0)
    (rest : Unit → Script Status α) : (requireVersion version).bind rest = .refuse .error := by
  rw [requireVersion, if_pos h]
  rfl

/-- A script that demands a batch ends there if it is empty. -/
theorem refuse_of_batch {α β : Type} {batch : List β} (h : batch.isEmpty = true)
    (rest : Unit → Script Status α) :
    (requireSome batch).bind rest = .refuse .wrongArgCount := by
  rw [requireSome, if_pos h]
  rfl

/-- A command with a flaw is refused for it and makes no call. -/
theorem script_of_flaw (h : command.flaw? = some status) :
    command.script context = .refuse status := by
  cases command with
  | getSet | set | setEx | hset | incrBy | hincrBy | spop | zincrBy | rename =>
    obtain ⟨hzero, ⟨⟩⟩ := Option.ite_none_right_eq_some.mp h
    exact reply_refuse (refuse_of_version hzero _) _
  | zremRangeByRank key start stop version terms =>
    obtain ⟨hzero, ⟨⟩⟩ := Option.ite_none_right_eq_some.mp h
    have hscript : Rankings.dropByRank key start stop version terms = .refuse .error :=
      refuse_of_version hzero _
    rw [script, hscript]
    rfl
  | mset | mget | hmset | hdel | sadd | srem | zadd | zrem =>
    obtain ⟨hempty, ⟨⟩⟩ := Option.ite_none_right_eq_some.mp h
    exact reply_refuse (refuse_of_batch hempty _) _
  | hmget =>
    obtain ⟨hempty, ⟨⟩⟩ := Option.ite_none_right_eq_some.mp h
    exact refuse_of_batch hempty _
  | setWith key item terms tokens =>
    rw [flaw?] at h
    split at h
    · rename_i hzero
      cases h
      exact reply_refuse (refuse_of_version hzero _) _
    · rename_i hversion
      obtain ⟨htokens, ⟨⟩⟩ := Option.ite_none_right_eq_some.mp h
      refine reply_refuse ?_ _
      rw [Strings.setWith, requireVersion_of_ne hversion, Option.isNone_iff_eq_none.mp htokens]
      rfl
  | decrBy key version delta terms =>
    rw [flaw?] at h
    refine reply_refuse ?_ _
    rw [Strings.subtract, negWithin]
    split at h
    · rename_i hleast
      cases h
      rw [if_pos hleast]
      rfl
    · rename_i hother
      obtain ⟨hzero, ⟨⟩⟩ := Option.ite_none_right_eq_some.mp h
      rw [if_neg hother]
      exact refuse_of_version hzero _
  | zcount | zrangeByScore =>
    rw [flaw?] at h
    obtain ⟨hbounds, ⟨⟩⟩ := Option.ite_none_left_eq_some.mp h
    refine reply_refuse ?_ _
    simp only [Rankings.count, Rankings.byScore,
      bounds_of_not_readsBounds (Bool.eq_false_iff.mpr hbounds)]
    rfl
  | zremRangeByScore key min max version terms =>
    rw [flaw?] at h
    refine reply_refuse ?_ _
    split at h
    · rename_i hzero
      cases h
      exact refuse_of_version hzero _
    · rename_i hversion
      obtain ⟨hbounds, ⟨⟩⟩ := Option.ite_none_left_eq_some.mp h
      rw [Rankings.dropByScore, requireVersion_of_ne hversion,
        bounds_of_not_readsBounds (Bool.eq_false_iff.mpr hbounds)]
      rfl
  | del =>
    obtain ⟨hlength, ⟨⟩⟩ := Option.ite_none_left_eq_some.mp h
    exact reply_refuse (if_pos hlength) _
  | _ => cases h

end Command

/-! ## Failing scripts -/

/-- Whether a script is refused with `error` and changes nothing. -/
def Script.Fails {α : Type} (now : Millis) (store : Store) (script : Script Status α) : Prop :=
  script.on now store = (.error .error, store)

/-- A composed script fails if its first part does. -/
theorem Script.Fails.bind {α β : Type} {now : Millis} {store : Store} {script : Script Status α}
    (h : script.Fails now store) (rest : α → Script Status β) :
    (script.bind rest).Fails now store :=
  on_bind_error h rest

/-- A script that demands a version fails, whatever the version is, if the rest of
it fails. -/
theorem fails_of_version {α : Type} {now : Millis} {store : Store} {version : Version}
    {rest : Unit → Script Status α} (hrest : (rest ()).Fails now store) :
    ((requireVersion version).bind rest).Fails now store := by
  by_cases hzero : version = 0
  · rw [Command.refuse_of_version hzero]
    rfl
  · rw [requireVersion_of_ne hzero]
    exact hrest

/-- A script that demands a batch fails if there is one and the rest of it fails. -/
theorem fails_of_batch {α β : Type} {now : Millis} {store : Store} {batch : List β}
    {rest : Unit → Script Status α} (hbatch : batch.isEmpty = false)
    (hrest : (rest ()).Fails now store) :
    ((requireSome batch).bind rest).Fails now store := by
  rw [requireSome, if_neg (Bool.eq_false_iff.mp hbatch)]
  exact hrest

section Closed

variable {now : Millis} {store : Store} {key : Bytes} {terms : Terms} {kind : Kind}
  {version : Version} (hclosed : store.closed = true)

include hclosed

/-- A closed store fails every call that looks at it. -/
theorem fails_query {c : Call} (hc : c.inverted = false) : (query c).Fails now store := by
  rw [Script.Fails, Script.on_query, Store.perform_closed hclosed,
    Store.fst_perform_closed hclosed hc]
  rfl

theorem fails_checkKind : (checkKind key terms kind).Fails now store :=
  ((fails_query hclosed rfl).bind _).bind _

theorem fails_checkCurrent : (checkCurrent key terms kind version).Fails now store :=
  ((fails_checkKind hclosed).bind _).bind _

theorem fails_requireRecord : (requireRecord key).Fails now store :=
  (fails_query hclosed rfl).bind _

theorem fails_requireKind : (requireKind key kind).Fails now store :=
  (fails_requireRecord hclosed).bind _

theorem Strings.fails_store {item : Item} {mode : WriteMode} :
    (Strings.store key item terms mode).Fails now store :=
  ((fails_query hclosed rfl).bind _).bind _

theorem Strings.fails_add (delta : Int64) : (add key version delta terms).Fails now store :=
  fails_of_version ((fails_checkKind hclosed).bind _)

/-- A closed store fails to read any key of a batch. -/
theorem Strings.fails_getAll {keys : List Bytes} (hkeys : keys ≠ []) :
    ((getAll keys).mapRefusal Failure.status).Fails now store := by
  cases keys with
  | nil => exact absurd rfl hkeys
  | cons key rest =>
    have hget : (store.perform now (.get key)).1 = .error .closed :=
      Store.fst_perform_closed hclosed rfl
    rw [Script.Fails, Script.on_mapRefusal, getAll, List.mapM_cons, Script.bind_eq,
      Script.on_bind, Script.on_call, hget, Store.perform_closed hclosed]
    rfl

namespace Command

variable {context : Context} {command : Command}

/-- A command without a flaw fails at its first call to a closed store. -/
theorem fails_script (hflaw : command.flaw? = none) (hbatch : command.batches = false)
    (hfetch : ∀ instant limit, command ≠ .fetchExpired instant limit) :
    (command.script context).Fails now store := by
  cases command with
  | mset | del => cases hbatch
  | fetchExpired instant limit => exact absurd rfl (hfetch instant limit)
  | get | hget | hexists | hlen | hgetall | hkeys | hvals | scard | sismember | zcard | zscore
  | zrank => exact ((fails_query hclosed rfl).bind _).bind _
  | finalize => exact (fails_query hclosed rfl).bind _
  | smembers | zrange => exact (((fails_requireKind hclosed).bind _).bind _).bind _
  | keyExists | keyType | keyVersion | pttl =>
    exact ((fails_requireRecord hclosed).bind _).bind _
  | ttl => exact (((fails_requireRecord hclosed).bind _).bind _).bind _
  | expire => exact ((((fails_requireRecord hclosed).bind _).bind _).bind _).bind _
  | persist => exact (((fails_requireRecord hclosed).bind _).bind _).bind _
  | set | setEx => exact (fails_of_version (Strings.fails_store hclosed)).bind _
  | getSet => exact (fails_of_version ((fails_query hclosed rfl).bind _)).bind _
  | setWith key item terms tokens =>
    have hversion : item.version ≠ 0 := fun hzero => by simp [flaw?, hzero] at hflaw
    refine Script.Fails.bind ?_ _
    rw [Strings.setWith, requireVersion_of_ne hversion]
    cases htokens : SetOptions.ofTokens? tokens with
    | none => simp [flaw?, hversion, htokens] at hflaw
    | some options =>
      change Script.Fails now store (if options.presence = .present then _ else _)
      split
      · exact ((fails_requireRecord hclosed).bind _).bind _
      · exact Strings.fails_store hclosed
  | incrBy => exact (Strings.fails_add hclosed _).bind _
  | decrBy key version delta terms =>
    have hdelta : delta ≠ Int64.minValue := fun hleast => by simp [flaw?, hleast] at hflaw
    have hneg : negWithin delta = some (-delta) := if_neg hdelta
    refine Script.Fails.bind ?_ _
    rw [Strings.subtract, hneg]
    exact Strings.fails_add hclosed _
  | hset => exact (fails_of_version (((fails_checkKind hclosed).bind _).bind _)).bind _
  | hincrBy | zincrBy =>
    exact (fails_of_version (((fails_checkKind hclosed).bind _).bind _)).bind _
  | spop => exact (fails_of_version (((fails_checkCurrent hclosed).bind _).bind _)).bind _
  | zremRangeByRank =>
    exact (fails_of_version (((fails_checkCurrent hclosed).bind _).bind _)).bind _
  | rename => exact (fails_of_version ((fails_requireRecord hclosed).bind _)).bind _
  | hmget =>
    exact fails_of_batch (by simpa [flaw?] using hflaw)
      (((fails_requireKind hclosed).bind _).bind _)
  | hmset | sadd | zadd =>
    exact (fails_of_batch (by simpa [flaw?] using hflaw)
      (((fails_checkKind hclosed).bind _).bind _)).bind _
  | hdel | srem | zrem =>
    exact (fails_of_batch (by simpa [flaw?] using hflaw)
      ((((fails_checkKind hclosed).bind _).bind _).bind _)).bind _
  | mget keys =>
    exact (fails_of_batch (by simpa [flaw?] using hflaw)
      ((Strings.fails_getAll hclosed (by simpa [flaw?] using hflaw)).bind _)).bind _
  | zcount key min max =>
    have hreads : readsBounds min max = true := by simpa [flaw?] using hflaw
    obtain ⟨low, high, hbounds⟩ := bounds_of_readsBounds hreads
    refine Script.Fails.bind ?_ _
    rw [Rankings.count, hbounds]
    exact ((fails_requireKind hclosed).bind _).bind _
  | zrangeByScore key min max withScores reverse =>
    have hreads : readsBounds min max = true := by simpa [flaw?] using hflaw
    obtain ⟨low, high, hbounds⟩ := bounds_of_readsBounds hreads
    refine Script.Fails.bind ?_ _
    rw [Rankings.byScore, hbounds]
    exact ((fails_requireKind hclosed).bind _).bind _
  | zremRangeByScore key min max version terms =>
    have hversion : version ≠ 0 := fun hzero => by simp [flaw?, hzero] at hflaw
    have hreads : readsBounds min max = true := by simpa [flaw?, hversion] using hflaw
    obtain ⟨low, high, hbounds⟩ := bounds_of_readsBounds hreads
    refine Script.Fails.bind ?_ _
    rw [Rankings.dropByScore, requireVersion_of_ne hversion, hbounds]
    exact ((fails_checkCurrent hclosed).bind _).bind _

end Command

/-- A closed store grants no item of a batch. -/
theorem Strings.plannedAll_closed {mode : WriteMode} (items : List (Bytes × Item)) :
    plannedAll terms mode store now ∅ items = items.map fun _ => .error := by
  induction items with
  | nil => rfl
  | cons entry rest ih =>
    obtain ⟨key, item⟩ := entry
    have hplanned : planned terms mode store now ∅ key item = .error := by
      rw [planned, Std.ExtTreeMap.getElem?_empty, Store.record_closed hclosed, judgement]
      split <;> rfl
    rw [plannedAll, hplanned, if_neg (by decide), ih]
    rfl

/-- A closed store writes nothing of a batch. -/
theorem Strings.on_setMany_closed {mode : WriteMode} {items : List (Bytes × Item)}
    (hitems : items ≠ []) :
    (setMany items terms mode).on now store = (.ok (items.map fun _ => .error), store) := by
  rw [on_setMany hitems, writes_closed hclosed, plannedAll_closed hclosed]
  rfl

/-- A closed store tells of no key whether it may be deleted. -/
theorem Keys.on_judgeAll_closed (entries : List (Bytes × Version)) :
    (entries.mapM fun (key, version) => judge key version terms).on now store =
      (.ok (entries.map fun _ => ⟨.error, false⟩), store) := by
  refine Script.on_mapM_eq_map (fun entry => ?_) entries
  change (judge entry.1 entry.2 terms).on now store = (.ok ⟨.error, false⟩, store)
  rw [judge, Script.bind_eq, Script.on_bind, Script.on_outcome,
    fails_query (c := .record entry.1) hclosed rfl]
  rfl

/-- A closed store deletes nothing. -/
theorem Keys.on_delete_closed {keys : List Bytes} {versions : List Version}
    (hlength : keys.length = versions.length) :
    (delete keys versions terms).on now store = (.ok (keys.map fun _ => .error), store) := by
  have hdoomed : (keys.zip ((keys.zip versions).map fun _ => (⟨.error, false⟩ : Verdict))).filter
      (·.2.doomed) = [] := by
    refine List.filter_eq_nil_iff.mpr fun entry hentry => ?_
    obtain ⟨_, _, hverdict⟩ := List.mem_map.mp (List.of_mem_zip hentry).2
    simp [← hverdict]
  have hstatuses : ((keys.zip versions).map fun _ => Status.error) = keys.map fun _ => .error := by
    simp [List.map_const', hlength]
  rw [delete, if_neg (fun h => h hlength), Script.bind_eq,
    Script.on_bind_ok (on_judgeAll_closed hclosed _)]
  dsimp only
  rw [hdoomed, ← hstatuses, List.map_map]
  rfl

end Closed

/-! ## Replies -/

namespace Command

variable {context : Context} {command : Command} {store : Store}

theorem run_of_fails (h : (command.script context).Fails context.now store) :
    command.run context store = (⟨.error, command.blank .error⟩, store) := by
  rw [run_eq, h]
  rfl

/-- What a closed store replies to a command without a flaw. -/
def failure : Command → Reply
  | mset items _ _ => ⟨.ok, .statuses (items.map fun _ => .error)⟩
  | del keys _ _ => ⟨.ok, .statuses (keys.map fun _ => .error)⟩
  | fetchExpired .. => ⟨.error, .failure .closed⟩
  | command => ⟨.error, command.blank .error⟩

theorem run_closed_of_flawless (hclosed : store.closed = true) (hflaw : command.flaw? = none) :
    command.run context store = (command.failure, store) := by
  have hfails : command.batches = false →
      (∀ instant limit, command ≠ .fetchExpired instant limit) →
      command.run context store = (⟨.error, command.blank .error⟩, store) :=
    fun hbatch hfetch => run_of_fails (fails_script hclosed hflaw hbatch hfetch)
  cases command with
  | mset items terms mode =>
    have hitems : items ≠ [] := by simpa [flaw?] using hflaw
    rw [run_of_reply (by rfl), Strings.on_setMany_closed hclosed hitems]
    rfl
  | del keys versions terms =>
    have hlength : keys.length = versions.length := by simpa [flaw?] using hflaw
    rw [run_of_reply (by rfl), Keys.on_delete_closed hclosed hlength]
    rfl
  | fetchExpired instant limit =>
    have hexpired : (Keys.expired instant limit).on context.now store = (.error .closed, store) := by
      rw [Keys.expired, Script.on_ask]
      exact Prod.ext (Store.fst_perform_closed hclosed rfl) (Store.perform_closed hclosed _)
    rw [run_eq, script, Script.bind_eq, Script.on_bind, Script.on_outcome, hexpired]
    rfl
  | _ => exact hfails rfl (by rintro _ _ ⟨⟩)

/-- What a closed store replies to a command. -/
def denial (command : Command) : Reply :=
  match command.flaw? with
  | some status => ⟨status, command.blank status⟩
  | none => command.failure

/-- An open store is emptied and closed. -/
theorem run_finalize (hopen : store.closed = false) :
    finalize.run context store = (⟨.ok, .nothing⟩, ⟨∅, ∅, true⟩) := by
  rw [run_of_reply (by rfl), Keys.finalize, Script.on_query, Store.perform, Store.close, hopen]
  rfl

/-- A closed store denies every command and stays as it is. -/
theorem run_closed (hclosed : store.closed = true) (context : Context) (command : Command) :
    command.run context store = (command.denial, store) := by
  cases hflaw : command.flaw? with
  | none => rw [denial, hflaw, run_closed_of_flawless hclosed hflaw]
  | some status =>
    rw [run_eq, script_of_flaw hflaw, denial, hflaw]
    rfl

end Command

/-! ## Histories -/

/-- Whether data shows nothing of a store: it is empty, 0 or the marker for "no
value", and every status in it is an error. -/
def Data.Bare : Data → Prop
  | .nothing => True
  | .item shown => shown = .empty
  | .items shown => ∀ one ∈ shown, one = .empty
  | .statuses reported => ∀ status ∈ reported, status = .error
  | .fieldStatuses reported => ∀ entry ∈ reported, entry.2 = .error
  | .number value => value = 0
  | .count value => value = 0
  | .fields shown => shown = []
  | .names shown => shown = []
  | .placed shown => shown = []
  | .kind shown => shown = none
  | .version shown => shown = 0
  | .failure reason => reason = .closed

namespace Command

variable {command : Command} {status : Status}

theorem status_of_flaw (h : command.flaw? = some status) :
    status = .error ∨ status ∈ [.wrongArgCount, .notANumber, .overflow] := by
  cases command <;> simp only [flaw?] at h <;> grind

theorem bare_blank (h : status = .error ∨ command.flaw? = some status) :
    (command.blank status).Bare := by
  cases command <;> simp only [blank, Data.Bare] <;> simp only [flaw?] at h <;> grind

/-- Only a request for several fields is denied with markers; every other list of
items is empty. -/
theorem items_of_denial {items : List Item} (h : command.denial.data = .items items) :
    items = [] ∨ ∃ key fields, command = .hmget key fields := by
  have hblank : ∀ status, command.blank status = .items items →
      items = [] ∨ ∃ key fields, command = .hmget key fields := by
    intro status h
    cases command <;> simp only [blank] at h <;> grind
  rw [denial] at h
  split at h
  · exact hblank _ h
  · unfold failure at h
    split at h
    · cases h
    · cases h
    · cases h
    · exact hblank _ h

end Command

/-- What can be seen of the reply of a closed store.  The command reports an error,
or it has been refused for its arguments and has made no call; a batch of writes or
deletions reports an error for each of its items.  No data is shown. -/
structure Step.Denied (step : Step) (reply : Reply) : Prop where
  status : reply.status = .error ∨
    (reply.status ∈ [.wrongArgCount, .notANumber, .overflow] ∧
      step.command.flaw? = some reply.status ∧
      step.command.script step.context = .refuse reply.status) ∨
    (step.command.batches = true ∧
      reply = ⟨.ok, .statuses (step.command.keys.map fun _ => .error)⟩)
  bare : reply.data.Bare
  items : ∀ items, reply.data = .items items →
    items = [] ∨ ∃ key fields, step.command = .hmget key fields
  fetch : ∀ instant limit, step.command = .fetchExpired instant limit →
    reply = ⟨.error, .failure .closed⟩

theorem Step.denied_denial (step : Step) : step.Denied step.command.denial := by
  obtain ⟨context, command⟩ := step
  refine ⟨?_, ?_, fun items => Command.items_of_denial, ?_⟩
  · rw [Command.denial]
    cases hflaw : command.flaw? with
    | some status =>
      rcases Command.status_of_flaw hflaw with herror | hmem
      · exact .inl herror
      · exact .inr (.inl ⟨hmem, rfl, Command.script_of_flaw hflaw⟩)
    | none =>
      cases command with
      | mset | del =>
        exact .inr (.inr ⟨rfl, by simp [Command.failure, Command.keys, Function.comp_def]⟩)
      | _ => exact .inl rfl
  · rw [Command.denial]
    cases hflaw : command.flaw? with
    | some status => exact Command.bare_blank (.inr hflaw)
    | none =>
      have hblank : (command.blank .error).Bare := Command.bare_blank (.inl rfl)
      cases command with
      | mset | del => simp [Command.failure, Data.Bare]
      | fetchExpired => rfl
      | _ => exact hblank
  · rintro instant limit rfl
    rfl

/-- The replies of a closed store. -/
theorem fst_runAll_closed {store : Store} (hclosed : store.closed = true) (steps : List Step) :
    (runAll steps store).1 = steps.map fun step => step.command.denial := by
  induction steps with
  | nil => rfl
  | cons step rest ih =>
    have hstep : step.run store = (step.command.denial, store) :=
      Command.run_closed hclosed step.context step.command
    rw [runAll_cons, hstep, ih]
    rfl

/-- Once `finalize` has succeeded no command does and none shows data, whatever runs and
when; and the store stays empty. -/
theorem runAll_finalized {store : Store} {context : Context}
    (h : (Command.finalize.run context store).1.status = .ok) (steps : List Step) :
    let closed := (Command.finalize.run context store).2
    (runAll steps closed).2 = closed ∧ closed.slots = ∅ ∧ closed.agenda = ∅ ∧
      (runAll steps closed).1.length = steps.length ∧
      ∀ step reply, (step, reply) ∈ steps.zip (runAll steps closed).1 → step.Denied reply := by
  intro closed
  have hfinal : closed = ⟨∅, ∅, true⟩ := by
    cases hclosed : store.closed with
    | true =>
      rw [Command.run_closed hclosed] at h
      cases h
    | false => exact congrArg Prod.snd (Command.run_finalize hclosed)
  have hclosed : closed.closed = true := by rw [hfinal]
  have hreplies := fst_runAll_closed hclosed steps
  refine ⟨runAll_closed hclosed steps, by rw [hfinal], by rw [hfinal], ?_, ?_⟩
  · rw [hreplies, List.length_map]
  · intro step reply hmem
    rw [hreplies, zip_map_self] at hmem
    obtain ⟨other, _, hsame⟩ := List.mem_map.mp hmem
    cases hsame
    exact step.denied_denial

/-- After `finalize` a range with its ends in the wrong order is an error although the
closed store answers such calls, and so is each deletion of a batch; the amount that
cannot be negated is refused as ever. -/
theorem runAll_finalized_mixed :
    let context : Context := ⟨⟨9000⟩, .absolute⟩
    let store := ((Store.empty.perform 0 (.putScore [122] [97] 10 1)).2.perform 0
      (.put [107] ⟨[49], 2⟩ none)).2
    let steps : List Step := [⟨context, .zrange [122] 1 0 true false⟩,
      ⟨context, .del [[107], [107]] [0, 9] {}⟩, ⟨context, .decrBy [107] 3 Int64.minValue {}⟩,
      ⟨context, .hmget [107] [[97], [98]]⟩, ⟨context, .fetchExpired 9 1⟩]
    let closed := (Command.finalize.run context store).2
    (Command.finalize.run context store).1.status = .ok ∧
      (runAll steps closed).1 = [⟨.error, .placed []⟩, ⟨.ok, .statuses [.error, .error]⟩,
        ⟨.overflow, .number 0⟩, ⟨.error, .items [.empty, .empty]⟩,
        ⟨.error, .failure .closed⟩] ∧
      (runAll steps closed).2 = closed ∧ closed.slots = ∅ ∧
      ∀ step reply, (step, reply) ∈ steps.zip (runAll steps closed).1 → step.Denied reply := by
  intro context store steps closed
  have hstatus : (Command.finalize.run context store).1.status = .ok := by decide
  obtain ⟨hsame, hslots, _, _, hdenied⟩ := runAll_finalized hstatus steps
  exact ⟨hstatus, by decide, hsame, hslots, hdenied⟩

end Keyspace
