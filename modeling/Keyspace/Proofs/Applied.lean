import Keyspace.Proofs.Versions

/-!
# Applied versions

The reply to a command tells which parts of the command have been applied: a
single write is applied if the status is `ok`, an item of a batch if its own
status reports a change, and a removal by rank if it has removed anything.
`Command.applied` lists the versions of those parts, and
`Command.floor_of_applied` says that the key, if it is still live, has at least
each of them.
-/

namespace Keyspace

namespace Script

variable {ε α β ι : Type} {now : Millis} {key : Bytes} {version : Version} {store after : Store}

/-- A success after some reading comes from what follows. -/
theorem Asks.on_bind_eq_ok {Q : ε → Prop} {script : Script ε α} {rest : α → Script ε β}
    {result : β} (h : script.Asks Q)
    (hrun : (script.bind rest).on now store = (.ok result, after)) :
    ∃ value, (rest value).on now store = (.ok result, after) := by
  rcases h.run_cases now store with ⟨value, hscript⟩ | ⟨reason, _, hscript⟩
  · exact ⟨value, (on_bind_ok hscript rest).symm.trans hrun⟩
  · rw [on_bind_error hscript] at hrun
    cases hrun

/-- A key stands through a script whose calls keep it live. -/
theorem Calls.stands {script : Script ε α} (h : script.Calls fun c => c.reads ∨ c.grows)
    (hstands : store.Stands now key version) :
    (script.on now store).2.Stands now key version := by
  have hstep : ∀ c : Call, c.reads ∨ c.grows → ∀ store : Store,
      store.Stands now key version → (store.perform now c).2.Stands now key version := by
    intro c hc store hstore
    have hclose : c ≠ .close := by
      rintro rfl
      rcases hc with hc | hc <;> cases hc
    have hkeeps : c.Keeps now := by
      rcases hc with hc | hc
      · exact Call.keeps_of_reads hc now
      · exact Call.keeps_of_grows hc now
    exact hstore.perform hclose fun _ => hkeeps
  exact preserves_on hstep h hstands

/-- A floor survives a script that makes no key anew. -/
theorem Calls.floor {script : Script ε α} (h : script.Calls fun c => c.stamp? = none)
    (hfloor : store.Floor now key version) : (script.on now store).2.Floor now key version := by
  have hstep : ∀ c : Call, c.stamp? = none → ∀ store : Store,
      store.Floor now key version → (store.perform now c).2.Floor now key version := by
    intro c hc store hstore
    apply hstore.perform
    intro _ stamp hstamp
    rw [hc] at hstamp
    cases hstamp
  exact preserves_on hstep h hfloor

end Script

/-- The versions of the items of a batch that report a change. -/
def changed {ι : Type} (version : ι → Version) (items : List ι) (statuses : List Status) :
    List Version :=
  (items.zip statuses).filterMap fun (item, status) =>
    if status.changes then some (version item) else none

theorem mem_changed {ι : Type} {version : ι → Version} {items : List ι} {statuses : List Status}
    {applied : Version} (h : applied ∈ changed version items statuses) :
    ∃ item status, (item, status) ∈ items.zip statuses ∧ status.changes = true ∧
      version item = applied := by
  obtain ⟨⟨item, status⟩, hpair, hversion⟩ := List.mem_filterMap.mp h
  dsimp only at hversion
  split at hversion
  · rename_i hstatus
    cases hversion
    exact ⟨item, status, hpair, hstatus, rfl⟩
  · cases hversion

namespace Command

variable {context : Context} {command : Command} {store after : Store} {key : Bytes}
  {version : Version}

/-- The versions of the parts of a command that its reply reports as applied. -/
def applied (command : Command) (reply : Reply) : List Version :=
  match command, reply with
  | getSet _ item _, ⟨.ok, _⟩ | set _ item _ _, ⟨.ok, _⟩ | setEx _ item _, ⟨.ok, _⟩
  | setWith _ item _ _, ⟨.ok, _⟩ | hset _ _ item _, ⟨.ok, _⟩ => [item.version]
  | incrBy _ version _ _, ⟨.ok, _⟩ | decrBy _ version _ _, ⟨.ok, _⟩
  | hincrBy _ _ version _ _, ⟨.ok, _⟩ | spop _ version _, ⟨.ok, _⟩
  | zincrBy _ _ version _ _, ⟨.ok, _⟩ => [version]
  | zremRangeByScore _ _ _ version _, ⟨.ok, .count removed⟩
  | zremRangeByRank _ _ _ version _, ⟨.ok, .count removed⟩ =>
    if removed = 0 then [] else [version]
  | hmset _ values _, ⟨.ok, .fieldStatuses statuses⟩ =>
    changed (fun value => value.2.version) values (statuses.map Prod.snd)
  | hdel _ fields _, ⟨.ok, .fieldStatuses statuses⟩ =>
    changed Prod.snd fields (statuses.map Prod.snd)
  | sadd _ members _, ⟨.ok, .statuses statuses⟩ | srem _ members _, ⟨.ok, .statuses statuses⟩
  | zrem _ members _, ⟨.ok, .statuses statuses⟩ => changed Item.version members statuses
  | zadd _ items _, ⟨.ok, .statuses statuses⟩ => changed Scored.version items statuses
  | _, _ => []

theorem applied_eq_nil {reply : Reply} (h : reply.status ≠ .ok) : command.applied reply = [] := by
  obtain ⟨status, data⟩ := reply
  cases status with
  | ok => exact absurd rfl h
  | _ => cases command <;> rfl

theorem status_of_applied {reply : Reply} (h : version ∈ command.applied reply) :
    reply.status = .ok := by
  by_cases hok : reply.status = .ok
  · exact hok
  · rw [applied_eq_nil hok] at h
    cases h

/-- A command that makes one writing call leaves the key at its version, if that
call raises the key to it. -/
theorem floor_of_commits {P : Call → Prop}
    (hcommits : (command.script context).Commits P (· ≠ .ok))
    (hcall : ∀ c, P c → c.raises = true ∧ c.key? = some key ∧ c.version? = some version)
    (hok : (command.run context store).1.status = .ok) :
    (command.run context store).2.Floor context.now key version := by
  rw [run_eq] at hok ⊢
  cases hrun : (command.script context).on context.now store with
  | mk ending after =>
    rw [hrun] at hok
    cases ending with
    | ok reply =>
      obtain ⟨c, answer, hc, hperform⟩ := hcommits.run_ok hrun
      obtain ⟨hraises, hkey, hversion⟩ := hcall c hc
      exact Store.Floor.of_raises hraises hkey hversion hperform
    | error status => exact absurd hok (hcommits.run_error hrun)

/-! ## Batches -/

section Batch

variable {ι α β : Type} {now : Millis} {items : List ι} {check : Script Status β}
  {step : ι → Script Status α}

/-- A batch is refused as a whole by its checks, or all its items have their
turn. -/
theorem batch_cases (hcheck : check.Asks (· ≠ .ok))
    (htotal : ∀ item store, ∃ result after, (step item).on now store = (.ok result, after))
    (store : Store) :
    let script : Script Status (List α) :=
      (requireSome items).bind fun _ => (discard check).bind fun _ => items.mapM step
    (∃ status, status ≠ .ok ∧ script.on now store = (.error status, store)) ∨
      ∃ found results after, check.on now store = (.ok found, store) ∧
        (items.mapM step).on now store = (.ok results, after) ∧
        script.on now store = (.ok results, after) := by
  intro script
  have hsome : (requireSome items).Asks (· ≠ .ok) := asks_requireSome (by decide) items
  rcases hsome.run_cases now store with ⟨_, hfirst⟩ | ⟨status, hstatus, hfirst⟩
  · rcases hcheck.run_cases now store with ⟨found, hsecond⟩ | ⟨status, hstatus, hsecond⟩
    · obtain ⟨results, after, hloop⟩ := Script.on_mapM_total htotal items store
      refine .inr ⟨found, results, after, hsecond, hloop, ?_⟩
      rw [Script.on_bind_ok hfirst, Script.on_bind_ok (Script.on_bind_ok hsecond _), hloop]
    · left
      refine ⟨status, hstatus, ?_⟩
      rw [Script.on_bind_ok hfirst, Script.discard_eq,
        Script.on_bind_error (Script.on_bind_error hsecond _)]
  · exact .inl ⟨status, hstatus, Script.on_bind_error hfirst _⟩

/-- What holds of an item that reports a change, and is kept by the other items,
holds at the end of the batch. -/
theorem of_changed {inv : Version → Store → Prop} {status : α → Status} {version : ι → Version}
    (hstep : ∀ item ∈ items, ∀ before result between,
      (step item).on now before = (.ok result, between) → (status result).changes = true →
      inv (version item) between)
    (hkeep : ∀ version, ∀ item ∈ items, ∀ before, inv version before →
      inv version ((step item).on now before).2)
    {results : List α} (hloop : (items.mapM step).on now store = (.ok results, after))
    {applied : Version} (happlied : applied ∈ changed version items (results.map status)) :
    inv applied after := by
  obtain ⟨item, _, hpair, hchanges, rfl⟩ := mem_changed happlied
  rw [List.zip_map_right, List.mem_map] at hpair
  obtain ⟨⟨item, result⟩, hpair, heq⟩ := hpair
  cases heq
  have hall := Script.on_mapM_eq_ok hstep
    (fun item _ other hother before => hkeep (version item) other hother before) hloop
  exact hall (item, result) hpair hchanges

/-- What the reply to a batch reports as applied comes from its loop. -/
theorem exists_loop {command : Command} {data : List α → Data}
    (hscript : command.script context = reply ((requireSome items).bind fun _ =>
      (discard check).bind fun _ => items.mapM step) data)
    (hcheck : check.Asks (· ≠ .ok))
    (htotal : ∀ item store, ∃ result after,
      (step item).on context.now store = (.ok result, after))
    {store : Store} (happlied : version ∈ command.applied (command.run context store).1) :
    ∃ results, (items.mapM step).on context.now store =
        (.ok results, (command.run context store).2) ∧
      (command.run context store).1 = ⟨.ok, data results⟩ := by
  have hrun := run_of_reply hscript store
  rcases batch_cases hcheck htotal store with
    ⟨status, hstatus, hbatch⟩ | ⟨_, results, after, _, hloop, hbatch⟩
  · rw [hbatch] at hrun
    rw [hrun, applied_eq_nil hstatus] at happlied
    cases happlied
  · rw [hbatch] at hrun
    exact ⟨results, by rw [hrun, hloop], by rw [hrun]⟩

/-- In a batch that adds to a collection, an item that reports a change leaves
the key standing at its version, and the key stands to the end. -/
theorem floor_of_adding {command : Command} {data : List α → Data} {status : α → Status}
    {itemVersion : ι → Version}
    (hscript : command.script context = reply ((requireSome items).bind fun _ =>
      (discard check).bind fun _ => items.mapM step) data)
    (hcheck : check.Asks (· ≠ .ok))
    (htotal : ∀ item store, ∃ result after,
      (step item).on context.now store = (.ok result, after))
    (hdata : ∀ results, command.applied ⟨.ok, data results⟩ =
      changed itemVersion items (results.map status))
    (hcalls : ∀ item, (step item).Calls fun c => c.reads ∨ c.grows)
    (hstep : ∀ item before result between,
      (step item).on context.now before = (.ok result, between) → (status result).changes = true →
      ∃ c answer, c.grows = true ∧ c.key? = some key ∧ c.version? = some (itemVersion item) ∧
        before.perform context.now c = (.ok answer, between))
    (happlied : version ∈ command.applied (command.run context store).1) :
    (command.run context store).2.Floor context.now key version := by
  obtain ⟨results, hloop, hreply⟩ := exists_loop hscript hcheck htotal happlied
  rw [hreply, hdata] at happlied
  have hstands : (command.run context store).2.Stands context.now key version := by
    apply of_changed _ _ hloop happlied
    · intro item _ before result between hrun hchanges
      obtain ⟨c, answer, hgrows, hkey, hversion, hperform⟩ :=
        hstep item before result between hrun hchanges
      exact Store.Stands.of_grows hgrows hkey hversion hperform
    · intro version item _ before hbefore
      exact (hcalls item).stands hbefore
  exact hstands.floor

/-- In a batch that removes from a collection, an item that reports a change
leaves a floor under the key, and no item makes the key anew. -/
theorem floor_of_dropping {command : Command} {data : List α → Data} {status : α → Status}
    {itemVersion : ι → Version}
    (hscript : command.script context = reply ((requireSome items).bind fun _ =>
      (discard check).bind fun _ => items.mapM step) data)
    (hcheck : check.Asks (· ≠ .ok))
    (htotal : ∀ item store, ∃ result after,
      (step item).on context.now store = (.ok result, after))
    (hdata : ∀ results, command.applied ⟨.ok, data results⟩ =
      changed itemVersion items (results.map status))
    (hcalls : ∀ item, (step item).Calls fun c => c.stamp? = none)
    (hstep : ∀ item before result between,
      (step item).on context.now before = (.ok result, between) → (status result).changes = true →
      ∃ c answer, c.raises = true ∧ c.key? = some key ∧ c.version? = some (itemVersion item) ∧
        before.perform context.now c = (.ok answer, between))
    (happlied : version ∈ command.applied (command.run context store).1) :
    (command.run context store).2.Floor context.now key version := by
  obtain ⟨results, hloop, hreply⟩ := exists_loop hscript hcheck htotal happlied
  rw [hreply, hdata] at happlied
  apply of_changed _ _ hloop happlied
  · intro item _ before result between hrun hchanges
    obtain ⟨c, answer, hraises, hkey, hversion, hperform⟩ :=
      hstep item before result between hrun hchanges
    exact Store.Floor.of_raises hraises hkey hversion hperform
  · intro version item _ before hbefore
    exact (hcalls item).floor hbefore

end Batch

section Collections

variable {terms : Terms} {members : List Item}

theorem floor_hmset {values : List (Bytes × Item)}
    (happlied : version ∈
      (hmset key values terms).applied ((hmset key values terms).run context store).1) :
    ((hmset key values terms).run context store).2.Floor context.now key version := by
  have hdata : ∀ results, (hmset key values terms).applied ⟨.ok, .fieldStatuses results⟩ =
      changed (fun value => value.2.version) values (results.map Prod.snd) := fun _ => rfl
  refine floor_of_adding (by rfl) (asks_checkKind common_ne_ok .hash)
    (fun value store => ⟨_, _, Script.on_bind_ok (Script.on_settle _) _⟩) hdata
    (fun value => ?_) (fun value before result between hrun hchanges => ?_) happlied
  · exact .bind (Hashes.calls_putOne (.inl rfl) fun _ => .inr rfl) fun _ => .done _
  · obtain ⟨status, _, hput, hdone⟩ := Script.on_bind_eq_ok hrun
    cases hdone
    obtain ⟨answer, hperform⟩ := Hashes.putOne_changes hput hchanges
    exact ⟨_, answer, rfl, rfl, rfl, hperform⟩

theorem floor_hdel {fields : List (Bytes × Version)}
    (happlied : version ∈
      (hdel key fields terms).applied ((hdel key fields terms).run context store).1) :
    ((hdel key fields terms).run context store).2.Floor context.now key version := by
  have hdata : ∀ results, (hdel key fields terms).applied ⟨.ok, .fieldStatuses results⟩ =
      changed Prod.snd fields (results.map Prod.snd) := fun _ => rfl
  refine floor_of_dropping (by rfl) (asks_checkExisting common_ne_ok (by decide) .hash)
    (fun field store => ⟨_, _, Script.on_bind_ok (Script.on_settle _) _⟩) hdata
    (fun field => ?_) (fun field before result between hrun hchanges => ?_) happlied
  · exact .bind (Hashes.calls_dropOne rfl rfl) fun _ => .done _
  · obtain ⟨status, _, hdrop, hdone⟩ := Script.on_bind_eq_ok hrun
    cases hdone
    obtain ⟨answer, hperform⟩ := Hashes.dropOne_changes hdrop hchanges
    exact ⟨_, answer, rfl, rfl, rfl, hperform⟩

theorem floor_sadd
    (happlied : version ∈
      (sadd key members terms).applied ((sadd key members terms).run context store).1) :
    ((sadd key members terms).run context store).2.Floor context.now key version := by
  refine floor_of_adding (by rfl) (asks_checkKind common_ne_ok .set)
    (fun item store => ⟨_, _, Script.on_settle _⟩) (fun results => by rw [List.map_id]; rfl)
    (fun item => Sets.calls_addOne (.inl rfl) fun _ => .inr rfl) ?_ happlied
  intro item before result between hrun hchanges
  obtain ⟨answer, hperform⟩ := Sets.addOne_changes hrun hchanges
  exact ⟨_, answer, rfl, rfl, rfl, hperform⟩

theorem floor_srem
    (happlied : version ∈
      (srem key members terms).applied ((srem key members terms).run context store).1) :
    ((srem key members terms).run context store).2.Floor context.now key version := by
  refine floor_of_dropping (by rfl) (asks_checkExisting common_ne_ok (by decide) .set)
    (fun item store => ⟨_, _, Script.on_settle _⟩) (fun results => by rw [List.map_id]; rfl)
    (fun item => Sets.calls_dropOne rfl rfl) ?_ happlied
  intro item before result between hrun hchanges
  obtain ⟨answer, hperform⟩ := Sets.dropOne_changes hrun hchanges
  exact ⟨_, answer, rfl, rfl, rfl, hperform⟩

theorem floor_zadd {items : List Scored}
    (happlied : version ∈
      (zadd key items terms).applied ((zadd key items terms).run context store).1) :
    ((zadd key items terms).run context store).2.Floor context.now key version := by
  refine floor_of_adding (by rfl) (asks_checkKind common_ne_ok .zset)
    (fun item store => ⟨_, _, Script.on_settle _⟩) (fun results => by rw [List.map_id]; rfl)
    (fun item => Rankings.calls_addOne (.inl rfl) fun _ => .inr rfl) ?_ happlied
  intro item before result between hrun hchanges
  obtain ⟨answer, hperform⟩ := Rankings.addOne_changes hrun hchanges
  exact ⟨_, answer, rfl, rfl, rfl, hperform⟩

theorem floor_zrem
    (happlied : version ∈
      (zrem key members terms).applied ((zrem key members terms).run context store).1) :
    ((zrem key members terms).run context store).2.Floor context.now key version := by
  refine floor_of_dropping (by rfl) (asks_checkExisting common_ne_ok (by decide) .zset)
    (fun item store => ⟨_, _, Script.on_settle _⟩) (fun results => by rw [List.map_id]; rfl)
    (fun item => Rankings.calls_dropOne rfl rfl) ?_ happlied
  intro item before result between hrun hchanges
  obtain ⟨answer, hperform⟩ := Rankings.dropOne_changes hrun hchanges
  exact ⟨_, answer, rfl, rfl, rfl, hperform⟩

end Collections

end Command

/-! ## Ranges -/

namespace Rankings

variable {now : Millis} {key : Bytes} {version : Version} {terms : Terms} {before after : Store}
  {removed : Nat} {result : Status × Nat}

/-- A removal by score that removes something leaves a floor under the key. -/
theorem floor_dropByScore {min max : String}
    (hrun : (dropByScore key min max version terms).on now before = (.ok removed, after))
    (hremoved : removed ≠ 0) : after.Floor now key version := by
  have hbounds : (bounds min max).Asks (· ≠ .ok) := by
    refine .bind (.ofOption (by decide) _) fun _ => ?_
    exact .bind (.ofOption (by decide) _) fun _ => .done _
  have hcheck : (checkCurrent key terms .zset version).Asks (· ≠ .ok) :=
    asks_checkCurrent common_ne_ok (by decide) .zset
  have hversion : (requireVersion version).Asks (· ≠ .ok) :=
    asks_requireVersion common_ne_ok.error
  obtain ⟨_, hrun⟩ := hversion.on_bind_eq_ok hrun
  obtain ⟨⟨low, high⟩, hrun⟩ := hbounds.on_bind_eq_ok hrun
  obtain ⟨_, hrun⟩ := hcheck.discard.on_bind_eq_ok hrun
  obtain ⟨count, between, hquery, hrun⟩ := Script.on_bind_eq_ok hrun
  split at hrun
  · cases hrun
  · cases hrun
    exact Store.Floor.of_dropByScore (Script.on_query_eq_ok hquery) hremoved

/-- A removal one by one leaves a floor under the key as soon as it has removed
something. -/
theorem floor_dropEach {entries : List Ranked} {count : Nat}
    (hrun : (dropEach key version count entries).on now before = (.ok result, after))
    (hcount : count ≠ 0 → before.Floor now key version) (hremoved : result.2 ≠ 0) :
    after.Floor now key version := by
  induction entries generalizing count before with
  | nil =>
    cases hrun
    exact hcount hremoved
  | cons entry rest ih =>
    obtain ⟨ending, between, hquery, hrun⟩ := Script.on_bind_eq_ok hrun
    rw [Script.on_outcome, Script.on_query] at hquery
    cases hperform : before.perform now (.dropScore key entry.member version) with
    | mk answer between' =>
      rw [hperform] at hquery
      cases answer with
      | error failure =>
        cases hquery
        cases hrun
        have hfloor : (before.perform now (.dropScore key entry.member version)).2.Floor now key
            version := (hcount hremoved).perform fun _ stamp hstamp => by cases hstamp
        rw [hperform] at hfloor
        exact hfloor
      | ok wasThere =>
        cases hquery
        exact ih hrun fun _ => Store.Floor.of_raises rfl rfl rfl hperform

theorem floor_dropByRank {start stop : Int}
    (hrun : (dropByRank key start stop version terms).on now before = (.ok result, after))
    (hremoved : result.2 ≠ 0) : after.Floor now key version := by
  have hcheck : (checkCurrent key terms .zset version).Asks (· ≠ .ok) :=
    asks_checkCurrent common_ne_ok (by decide) .zset
  have hversion : (requireVersion version).Asks (· ≠ .ok) :=
    asks_requireVersion common_ne_ok.error
  obtain ⟨_, hrun⟩ := hversion.on_bind_eq_ok hrun
  obtain ⟨_, hrun⟩ := hcheck.discard.on_bind_eq_ok hrun
  obtain ⟨size, between, _, hrun⟩ := Script.on_bind_eq_ok hrun
  obtain ⟨⟨first, last⟩, between, _, hrun⟩ := Script.on_bind_eq_ok hrun
  obtain ⟨doomed, between, _, hrun⟩ := Script.on_bind_eq_ok hrun
  exact floor_dropEach hrun (fun h => absurd rfl h) hremoved

end Rankings

namespace Command

variable {context : Context} {command : Command} {store : Store} {key : Bytes} {version : Version}

theorem floor_zremRangeByScore {min max : String} {written : Version} {terms : Terms}
    (happlied : version ∈ (zremRangeByScore key min max written terms).applied
      ((zremRangeByScore key min max written terms).run context store).1) :
    ((zremRangeByScore key min max written terms).run context store).2.Floor context.now key
      version := by
  have hrun : (zremRangeByScore key min max written terms).run context store = _ :=
    run_of_reply (by rfl) store
  cases hscript : (Rankings.dropByScore key min max written terms).on context.now store with
  | mk ending after =>
    rw [hscript] at hrun
    rw [hrun] at happlied ⊢
    cases ending with
    | ok removed =>
      obtain ⟨hremoved, rfl⟩ : removed ≠ 0 ∧ version = written := by
        simpa [applied] using happlied
      exact Rankings.floor_dropByScore hscript hremoved
    | error status => cases status <;> cases happlied

theorem floor_zremRangeByRank {start stop : Int} {written : Version} {terms : Terms}
    (happlied : version ∈ (zremRangeByRank key start stop written terms).applied
      ((zremRangeByRank key start stop written terms).run context store).1) :
    ((zremRangeByRank key start stop written terms).run context store).2.Floor context.now key
      version := by
  have hrun := run_eq context (zremRangeByRank key start stop written terms) store
  rw [script, Script.bind_eq, Script.on_bind] at hrun
  cases hscript : (Rankings.dropByRank key start stop written terms).on context.now store with
  | mk ending after =>
    rw [hscript] at hrun
    rw [hrun] at happlied ⊢
    cases ending with
    | ok result =>
      obtain ⟨status, removed⟩ := result
      obtain ⟨hremoved, rfl⟩ : removed ≠ 0 ∧ version = written := by
        cases status with
        | ok => simpa [applied, conclude] using happlied
        | _ => cases happlied
      exact Rankings.floor_dropByRank hscript hremoved
    | error status => cases status <;> cases happlied

/-- A command on one key that reports a part as applied leaves the key, if it is
live, with at least the version of that part. -/
theorem floor_of_applied (hkeys : command.keys = [key])
    (happlied : version ∈ command.applied (command.run context store).1) :
    (command.run context store).2.Floor context.now key version := by
  have hok := status_of_applied happlied
  cases hreply : (command.run context store).1 with
  | mk status data =>
  rw [hreply] at hok happlied
  subst hok
  have hcommits : ∀ {P : Call → Prop} {written : Version},
      (command.script context).Commits P (· ≠ .ok) → version ∈ [written] →
      (∀ c, P c → c.raises = true ∧ c.key? = some key ∧ c.version? = some written) →
      (command.run context store).2.Floor context.now key version := by
    intro P written hcommits hmem hcall
    cases List.mem_singleton.mp hmem
    exact floor_of_commits hcommits hcall (congrArg Reply.status hreply)
  have hputs : ∀ written, command.puts? = some (key, written) → version ∈ [written] →
      (command.run context store).2.Floor context.now key version := by
    intro written hputs hmem
    refine hcommits (commits_puts hputs) hmem ?_
    rintro c ⟨value, deadline, rfl⟩
    exact ⟨rfl, rfl, rfl⟩
  cases command with
  | getSet | set | setEx | setWith | incrBy | decrBy =>
    cases hkeys
    exact hputs _ rfl happlied
  | hset key field item terms =>
    cases hkeys
    refine hcommits (commits_reply (Hashes.commits_put rfl) _) happlied ?_
    rintro c rfl
    exact ⟨rfl, rfl, rfl⟩
  | hincrBy key field version delta terms =>
    cases hkeys
    refine hcommits (P := fun c => ∃ value, c = .putField key field ⟨value, version⟩)
      (commits_reply (Hashes.commits_add (fun value => ⟨value, rfl⟩) delta) _) happlied ?_
    rintro c ⟨value, rfl⟩
    exact ⟨rfl, rfl, rfl⟩
  | spop key version terms =>
    cases hkeys
    refine hcommits (P := fun c => ∃ member, c = .dropMember key member version)
      (commits_reply (Sets.commits_pop fun member => ⟨member, rfl⟩) _) happlied ?_
    rintro c ⟨member, rfl⟩
    exact ⟨rfl, rfl, rfl⟩
  | zincrBy key member version delta terms =>
    cases hkeys
    refine hcommits (P := fun c => ∃ score, c = .putScore key member score version)
      (commits_reply (Rankings.commits_add (fun score => ⟨score, rfl⟩) delta) _) happlied ?_
    rintro c ⟨score, rfl⟩
    exact ⟨rfl, rfl, rfl⟩
  | hmset => cases hkeys; exact floor_hmset (hreply ▸ happlied)
  | hdel => cases hkeys; exact floor_hdel (hreply ▸ happlied)
  | sadd => cases hkeys; exact floor_sadd (hreply ▸ happlied)
  | srem => cases hkeys; exact floor_srem (hreply ▸ happlied)
  | zadd => cases hkeys; exact floor_zadd (hreply ▸ happlied)
  | zrem => cases hkeys; exact floor_zrem (hreply ▸ happlied)
  | zremRangeByScore => cases hkeys; exact floor_zremRangeByScore (hreply ▸ happlied)
  | zremRangeByRank => cases hkeys; exact floor_zremRangeByRank (hreply ▸ happlied)
  | _ => cases happlied

end Command

end Keyspace
