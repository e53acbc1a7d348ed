import Keyspace.Command
import Keyspace.Proofs.Script

/-!
# Footprints

The footprint of a command is the set of calls that it may make.  It names the
keys, fields and members, and the versions that writing calls carry.
`Command.script_calls` says that no command leaves its footprint, whatever the
store answers.

With it, a fact about every command needs no more than the fact about every
call: the frame rule `Command.getElem?_run_of_not_mem` is one case.
-/

namespace Keyspace

variable {ε α : Type} {P : Call → Prop} {context : Context} {key field member : Bytes}
  {version : Version} {terms : Terms}

/-! ## Admission -/

theorem calls_requireVersion : (requireVersion version).Calls P := by
  unfold requireVersion
  split <;> constructor

/-- A script that demands a version goes on with one other than 0. -/
theorem calls_bind_requireVersion {rest : Unit → Script Status α}
    (hrest : version ≠ 0 → (rest ()).Calls P) : ((requireVersion version).bind rest).Calls P := by
  unfold requireVersion
  split
  · exact .refuse _
  · rename_i hversion
    exact hrest hversion

theorem calls_requireSome (batch : List α) : (requireSome batch).Calls P := by
  unfold requireSome
  split <;> constructor

theorem calls_requireNewer (stored : Option Version) :
    (requireNewer stored version).Calls P := by
  unfold requireNewer
  split <;> constructor

theorem calls_requireCurrent (stored : Version) :
    (requireCurrent stored version).Calls P := by
  unfold requireCurrent
  split <;> constructor

theorem calls_checkTerms (hrecord : P (.record key)) : (checkTerms key terms).Calls P := by
  refine .bind (.query hrecord) fun found => ?_
  split <;> constructor

theorem calls_checkKind (hrecord : P (.record key)) (kind : Kind) :
    (checkKind key terms kind).Calls P := by
  refine .bind (calls_checkTerms hrecord) fun found => ?_
  split <;> constructor

theorem calls_checkExisting (hrecord : P (.record key)) (kind : Kind) :
    (checkExisting key terms kind).Calls P := by
  refine .bind (calls_checkKind hrecord kind) fun found => ?_
  cases found <;> constructor

theorem calls_checkCurrent (hrecord : P (.record key)) (kind : Kind) :
    (checkCurrent key terms kind version).Calls P := by
  refine .bind (calls_checkExisting hrecord kind) fun record => ?_
  exact .bind (calls_requireCurrent record.version) fun _ => .done _

theorem calls_requireRecord (hrecord : P (.record key)) : (requireRecord key).Calls P := by
  refine .bind (.query hrecord) fun found => ?_
  cases found <;> constructor

theorem calls_requireKind (hrecord : P (.record key)) (kind : Kind) :
    (requireKind key kind).Calls P := by
  refine .bind (calls_requireRecord hrecord) fun record => ?_
  split <;> constructor

theorem calls_countOf {count : Script Status Nat} (hcount : count.Calls P) :
    (countOf count).Calls P := by
  refine .bind hcount fun n => ?_
  split <;> constructor

/-! ## Strings -/

namespace Strings

variable {item : Item} {mode : WriteMode}

theorem calls_store (hrecord : P (.record key))
    (hput : P (.put key item (mode.deadline terms))) :
    (store key item terms mode).Calls P := by
  refine .bind (calls_checkTerms hrecord) fun found => ?_
  split
  · exact .query hput
  · constructor

theorem calls_set (hrecord : P (.record key))
    (hput : P (.put key item (mode.deadline terms))) :
    (set key item terms mode).Calls P :=
  .bind calls_requireVersion fun _ => calls_store hrecord hput

theorem calls_setFor (hrecord : P (.record key))
    (hput : ∀ deadline, P (.put key item deadline)) (seconds : Nat) :
    (setFor context key item seconds).Calls P :=
  .bind calls_requireVersion fun _ => calls_store hrecord (hput _)

theorem calls_setWith (hrecord : P (.record key))
    (hput : ∀ deadline, P (.put key item deadline)) (tokens : List String) :
    (setWith context key item terms tokens).Calls P := by
  refine .bind calls_requireVersion fun _ => ?_
  cases SetOptions.ofTokens? tokens with
  | none => exact .refuse _
  | some options =>
    dsimp only
    split
    · refine .bind (.discard (calls_requireRecord hrecord)) fun _ => ?_
      exact calls_store hrecord (hput _)
    · exact calls_store hrecord (hput _)

theorem calls_get (hget : P (.get key)) : (get key).Calls P :=
  .bind (.query hget) fun item? => .ofOption item?

theorem calls_exchange (hrecord : P (.record key)) (hget : P (.get key))
    (hput : P (.put key item none)) : (exchange key item terms).Calls P := by
  refine .bind calls_requireVersion fun _ => .bind (.query hget) fun old => ?_
  exact .bind (calls_store hrecord hput) fun _ => .done _

theorem calls_add (hrecord : P (.record key)) (hget : P (.get key))
    (hput : ∀ value deadline, P (.put key ⟨value, version⟩ deadline)) (delta : Int64) :
    (add key version delta terms).Calls P := by
  refine .bind calls_requireVersion fun _ => ?_
  refine .bind (calls_checkKind hrecord .string) fun found => ?_
  refine .bind (calls_requireNewer _) fun _ => .bind (.query hget) fun item? => ?_
  have hrest : ∀ current, (do
      let next ← Script.ofOption .overflow (addWithin current delta)
      query (.put key ⟨Decimal.ofInt next.toInt, version⟩ (found.bind Record.deadline))
      return next : Script Status Int64).Calls P :=
    fun current => .bind (.ofOption _) fun next => .bind (.query (hput _ _)) fun _ => .done _
  cases item? with
  | none => exact .bind (.done _) hrest
  | some item => exact .bind (.ofOption _) hrest

theorem calls_subtract (hrecord : P (.record key)) (hget : P (.get key))
    (hput : ∀ value deadline, P (.put key ⟨value, version⟩ deadline)) (delta : Int64) :
    (subtract key version delta terms).Calls P :=
  .bind (.ofOption _) fun delta => calls_add hrecord hget hput delta

theorem calls_plan (hrecord : P (.record key)) (pending : Std.ExtTreeMap Bytes Version) :
    (plan terms mode pending key item).Calls P := by
  unfold plan
  split
  · constructor
  · split
    · constructor
    · exact .settle (.bind (calls_checkTerms hrecord) fun found => .done _)

theorem calls_planAll {items : List (Bytes × Item)}
    (hrecord : ∀ entry ∈ items, P (.record entry.1)) (pending : Std.ExtTreeMap Bytes Version) :
    (planAll terms mode pending items).Calls P := by
  induction items generalizing pending with
  | nil => exact .done _
  | cons entry rest ih =>
    refine .bind (calls_plan (hrecord entry List.mem_cons_self) pending) fun status => ?_
    refine .bind (ih (fun other hother => hrecord other (List.mem_cons_of_mem entry hother)) _) ?_
    exact fun statuses => .done _

/-- A batch writes the items that it has granted. -/
theorem mem_zip_of_mem_writes {deadline : Option Millis} {items : List (Bytes × Item)}
    {statuses : List Status} {write : Write} (h : write ∈ writes deadline items statuses) :
    ((write.key, write.item), .ok) ∈ items.zip statuses ∧ write.deadline = deadline := by
  obtain ⟨⟨⟨key, item⟩, status⟩, hentry, hwrite⟩ := List.mem_filterMap.mp h
  dsimp only at hwrite
  split at hwrite
  · rename_i hok
    cases hok
    cases hwrite
    exact ⟨hentry, rfl⟩
  · cases hwrite

theorem calls_setMany {items : List (Bytes × Item)}
    (hrecord : ∀ entry ∈ items, P (.record entry.1))
    (hput : ∀ entry ∈ items, P (.put entry.1 entry.2 (mode.deadline terms))) :
    (setMany items terms mode).Calls P := by
  refine .bind (calls_requireSome items) fun _ => .bind (calls_planAll hrecord ∅) fun statuses => ?_
  refine .bind (.outcome (.forM fun write hwrite => .ask ?_)) fun ending => ?_
  · obtain ⟨hentry, hdeadline⟩ := mem_zip_of_mem_writes hwrite
    rw [hdeadline]
    exact hput _ (List.of_mem_zip hentry).1
  · cases ending <;> constructor

theorem calls_getMany {keys : List Bytes} (hget : ∀ key ∈ keys, P (.get key)) :
    (getMany keys).Calls P := by
  refine .bind (calls_requireSome keys) fun _ => ?_
  refine .bind (.mapRefusal (.mapM fun key hkey => .call (hget key hkey) ?_)) fun _ => .done _
  rintro (failure | item?)
  · cases failure <;> constructor
  · constructor

end Strings

/-! ## Hashes -/

namespace Hashes

variable {item : Item}

theorem calls_store (hfield : P (.field key field)) (hput : P (.putField key field item)) :
    (store key field item).Calls P := by
  refine .bind (.query hfield) fun stored => .bind (calls_requireNewer _) fun _ => ?_
  exact .bind (.query hput) fun _ => .done _

theorem calls_put (hrecord : P (.record key)) (hfield : P (.field key field))
    (hput : item.version ≠ 0 → P (.putField key field item)) :
    (put key field item terms).Calls P := by
  refine calls_bind_requireVersion fun hversion => ?_
  refine .bind (.discard (calls_checkKind hrecord .hash)) fun _ => ?_
  exact calls_store hfield (hput hversion)

theorem calls_get (hfield : P (.field key field)) : (get key field).Calls P :=
  .bind (.query hfield) fun item? => .ofOption item?

theorem calls_putOne (hfield : P (.field key field))
    (hput : item.version ≠ 0 → P (.putField key field item)) :
    (putOne key field item).Calls P := by
  refine .settle (calls_bind_requireVersion fun hversion => ?_)
  exact .bind (calls_store hfield (hput hversion)) fun _ => .done _

theorem calls_putMany {values : List (Bytes × Item)} (hrecord : P (.record key))
    (hfield : ∀ entry ∈ values, P (.field key entry.1))
    (hput : ∀ entry ∈ values, entry.2.version ≠ 0 → P (.putField key entry.1 entry.2)) :
    (putMany key values terms).Calls P := by
  refine .bind (calls_requireSome values) fun _ => ?_
  refine .bind (.discard (calls_checkKind hrecord .hash)) fun _ => ?_
  refine .mapM fun entry hentry => ?_
  exact .bind (calls_putOne (hfield entry hentry) (hput entry hentry)) fun _ => .done _

theorem calls_getMany {fields : List Bytes} (hfield : ∀ field ∈ fields, P (.field key field)) :
    (getMany key fields).Calls P :=
  .mapM fun field hmem => .bind (.query (hfield field hmem)) fun _ => .done _

theorem calls_dropOne (hfield : P (.field key field)) (hdrop : P (.dropField key field version)) :
    (dropOne key field version).Calls P := by
  refine .settle (.bind calls_requireVersion fun _ => .bind (calls_get hfield) fun stored => ?_)
  refine .bind (calls_requireCurrent _) fun _ => ?_
  exact .bind (.discard (.query hdrop)) fun _ => .done _

theorem calls_dropMany {fields : List (Bytes × Version)} (hrecord : P (.record key))
    (hfield : ∀ entry ∈ fields, P (.field key entry.1))
    (hdrop : ∀ entry ∈ fields, P (.dropField key entry.1 entry.2)) :
    (dropMany key fields terms).Calls P := by
  refine .bind (calls_requireSome fields) fun _ => ?_
  refine .bind (.discard (calls_checkExisting hrecord .hash)) fun _ => ?_
  refine .mapM fun entry hentry => ?_
  exact .bind (calls_dropOne (hfield entry hentry) (hdrop entry hentry)) fun _ => .done _

theorem calls_add (hrecord : P (.record key)) (hfield : P (.field key field))
    (hput : version ≠ 0 → ∀ value, P (.putField key field ⟨value, version⟩)) (delta : Int64) :
    (add key field version delta terms).Calls P := by
  refine calls_bind_requireVersion fun hversion => ?_
  refine .bind (.discard (calls_checkKind hrecord .hash)) fun _ => ?_
  refine .bind (.query hfield) fun stored => .bind (calls_requireNewer _) fun _ => ?_
  have hrest : ∀ current, (do
      let next ← Script.ofOption .overflow (addWithin current delta)
      discard (query (.putField key field ⟨Decimal.ofInt next.toInt, version⟩))
      return next : Script Status Int64).Calls P := by
    intro current
    refine .bind (.ofOption _) fun next => ?_
    exact .bind (.discard (.query (hput hversion _))) fun _ => .done _
  cases stored with
  | none => exact .bind (.done _) hrest
  | some item => exact .bind (.ofOption _) hrest

theorem calls_size (hcount : P (.fieldCount key)) : (size key).Calls P :=
  calls_countOf (.query hcount)

theorem calls_toList (hfields : P (.fields key)) : (toList key).Calls P := by
  refine .bind (.query hfields) fun fields => ?_
  split <;> constructor

end Hashes

/-! ## Sets -/

namespace Sets

variable {item : Item}

theorem calls_addOne (hmember : P (.member key item.value))
    (hadd : item.version ≠ 0 → P (.addMember key item.value item.version)) :
    (addOne key item).Calls P := by
  refine .settle (calls_bind_requireVersion fun hversion => .bind (.query hmember) fun stored => ?_)
  refine .bind (calls_requireNewer _) fun _ => ?_
  exact .bind (.query (hadd hversion)) fun _ => .done _

theorem calls_addMany {members : List Item} (hrecord : P (.record key))
    (hmember : ∀ item ∈ members, P (.member key item.value))
    (hadd : ∀ item ∈ members, item.version ≠ 0 → P (.addMember key item.value item.version)) :
    (addMany key members terms).Calls P := by
  refine .bind (calls_requireSome members) fun _ => ?_
  refine .bind (.discard (calls_checkKind hrecord .set)) fun _ => ?_
  exact .mapM fun item hitem => calls_addOne (hmember item hitem) (hadd item hitem)

theorem calls_dropOne (hmember : P (.member key item.value))
    (hdrop : P (.dropMember key item.value item.version)) : (dropOne key item).Calls P := by
  refine .settle (.bind calls_requireVersion fun _ => .bind (.query hmember) fun stored? => ?_)
  refine .bind (.ofOption _) fun stored => .bind (calls_requireCurrent _) fun _ => ?_
  exact .bind (.discard (.query hdrop)) fun _ => .done _

theorem calls_dropMany {members : List Item} (hrecord : P (.record key))
    (hmember : ∀ item ∈ members, P (.member key item.value))
    (hdrop : ∀ item ∈ members, P (.dropMember key item.value item.version)) :
    (dropMany key members terms).Calls P := by
  refine .bind (calls_requireSome members) fun _ => ?_
  refine .bind (.discard (calls_checkExisting hrecord .set)) fun _ => ?_
  exact .mapM fun item hitem => calls_dropOne (hmember item hitem) (hdrop item hitem)

theorem calls_toList (hrecord : P (.record key)) (hmembers : P (.members key)) :
    (toList key).Calls P := by
  refine .bind (.discard (calls_requireKind hrecord .set)) fun _ => ?_
  exact .bind (.query hmembers) fun _ => .done _

theorem calls_size (hcount : P (.memberCount key)) : (size key).Calls P :=
  calls_countOf (.query hcount)

theorem calls_contains (hmember : P (.member key member)) : (contains key member).Calls P := by
  refine .bind (.query hmember) fun stored? => ?_
  exact .bind (.ofOption stored?) fun _ => .done _

theorem calls_pop (hrecord : P (.record key)) (hmembers : P (.members key))
    (hdrop : ∀ member, P (.dropMember key member version)) :
    (pop context key version terms).Calls P := by
  refine .bind calls_requireVersion fun _ => ?_
  refine .bind (.discard (calls_checkCurrent hrecord .set)) fun _ => ?_
  refine .bind (.query hmembers) fun members => .bind (.ofOption _) fun picked => ?_
  exact .bind (.discard (.query (hdrop _))) fun _ => .done _

end Sets

/-! ## Sorted sets -/

namespace Rankings

variable {start stop : Int} {min max : String} {reverse : Bool}

theorem calls_addOne {item : Scored} (hmark : P (.mark key item.member))
    (hput : item.version ≠ 0 → P (.putScore key item.member item.score item.version)) :
    (addOne key item).Calls P := by
  refine .settle (calls_bind_requireVersion fun hversion => .bind (.query hmark) fun stored => ?_)
  refine .bind (calls_requireNewer _) fun _ => ?_
  exact .bind (.query (hput hversion)) fun _ => .done _

theorem calls_addMany {items : List Scored} (hrecord : P (.record key))
    (hmark : ∀ item ∈ items, P (.mark key item.member))
    (hput : ∀ item ∈ items, item.version ≠ 0 →
      P (.putScore key item.member item.score item.version)) :
    (addMany key items terms).Calls P := by
  refine .bind (calls_requireSome items) fun _ => ?_
  refine .bind (.discard (calls_checkKind hrecord .zset)) fun _ => ?_
  exact .mapM fun item hitem => calls_addOne (hmark item hitem) (hput item hitem)

theorem calls_dropOne {item : Item} (hmark : P (.mark key item.value))
    (hdrop : P (.dropScore key item.value item.version)) : (dropOne key item).Calls P := by
  refine .settle (.bind calls_requireVersion fun _ => .bind (.query hmark) fun stored? => ?_)
  refine .bind (.ofOption _) fun stored => .bind (calls_requireCurrent _) fun _ => ?_
  exact .bind (.discard (.query hdrop)) fun _ => .done _

theorem calls_dropMany {members : List Item} (hrecord : P (.record key))
    (hmark : ∀ item ∈ members, P (.mark key item.value))
    (hdrop : ∀ item ∈ members, P (.dropScore key item.value item.version)) :
    (dropMany key members terms).Calls P := by
  refine .bind (calls_requireSome members) fun _ => ?_
  refine .bind (.discard (calls_checkExisting hrecord .zset)) fun _ => ?_
  exact .mapM fun item hitem => calls_dropOne (hmark item hitem) (hdrop item hitem)

theorem calls_add (hrecord : P (.record key)) (hmark : P (.mark key member))
    (hput : version ≠ 0 → ∀ score, P (.putScore key member score version)) (delta : Int64) :
    (add key member version delta terms).Calls P := by
  refine calls_bind_requireVersion fun hversion => ?_
  refine .bind (.discard (calls_checkKind hrecord .zset)) fun _ => ?_
  refine .bind (.query hmark) fun stored => .bind (calls_requireNewer _) fun _ => ?_
  refine .bind (.ofOption _) fun next => ?_
  exact .bind (.discard (.query (hput hversion _))) fun _ => .done _

theorem calls_size (hcount : P (.rankedCount key)) : (size key).Calls P :=
  calls_countOf (.query hcount)

theorem calls_score (hmark : P (.mark key member)) : (score key member).Calls P := by
  refine .bind (.query hmark) fun mark? => ?_
  exact .bind (.ofOption mark?) fun _ => .done _

theorem calls_bounds : (bounds min max).Calls P := by
  refine Script.Calls.bind (Script.Calls.ofOption _) fun low => ?_
  exact Script.Calls.bind (Script.Calls.ofOption _) fun high => .done _

theorem calls_count (hrecord : P (.record key))
    (hcount : ∀ min max, P (.countByScore key min max)) : (count key min max).Calls P := by
  refine Script.Calls.bind calls_bounds ?_
  rintro ⟨low, high⟩
  refine .bind (.discard (calls_requireKind hrecord .zset)) fun _ => ?_
  exact .query (hcount low high)

theorem calls_byRank (hrecord : P (.record key)) (hcount : P (.rankedCount key))
    (hrange : ∀ start stop, P (.byRank key start stop)) :
    (byRank key start stop reverse).Calls P := by
  refine .bind (.discard (calls_requireKind hrecord .zset)) fun _ => ?_
  refine .bind (.query hcount) fun size => .bind (.ofOption _) ?_
  rintro ⟨first, last⟩
  cases reverse with
  | false => exact .bind (.query (hrange _ _)) fun members => .done _
  | true => exact .bind (.query (hrange _ _)) fun members => .done _

theorem calls_byScore (hrecord : P (.record key))
    (hrange : ∀ min max, P (.byScore key min max)) :
    (byScore key min max reverse).Calls P := by
  refine Script.Calls.bind calls_bounds ?_
  rintro ⟨low, high⟩
  refine .bind (.discard (calls_requireKind hrecord .zset)) fun _ => ?_
  refine .bind (.query (hrange low high)) fun members => ?_
  split <;> constructor

theorem calls_dropByScore (hrecord : P (.record key))
    (hdrop : ∀ min max, P (.dropByScore key min max version)) :
    (dropByScore key min max version terms).Calls P := by
  refine .bind calls_requireVersion fun _ => ?_
  refine Script.Calls.bind calls_bounds ?_
  rintro ⟨low, high⟩
  refine .bind (.discard (calls_checkCurrent hrecord .zset)) fun _ => ?_
  refine .bind (.query (hdrop low high)) fun removed => ?_
  split <;> constructor

theorem calls_dropEach (hdrop : ∀ member, P (.dropScore key member version)) (removed : Nat)
    (doomed : List Ranked) : (dropEach key version removed doomed).Calls P := by
  induction doomed generalizing removed with
  | nil => exact .done _
  | cons entry rest ih =>
    refine .bind (.outcome (.query (hdrop _))) fun ending => ?_
    cases ending with
    | error status => exact .done _
    | ok wasThere => exact ih _

theorem calls_dropByRank (hrecord : P (.record key)) (hcount : P (.rankedCount key))
    (hrange : ∀ start stop, P (.byRank key start stop))
    (hdrop : ∀ member, P (.dropScore key member version)) :
    (dropByRank key start stop version terms).Calls P := by
  refine .bind calls_requireVersion fun _ => ?_
  refine .bind (.discard (calls_checkCurrent hrecord .zset)) fun _ => ?_
  refine .bind (.query hcount) fun size => .bind (.ofOption _) ?_
  rintro ⟨first, last⟩
  exact .bind (.query (hrange _ _)) fun doomed => calls_dropEach hdrop 0 doomed

theorem calls_rank (hrank : P (.rank key member)) (hcount : P (.rankedCount key)) :
    (rank key member reverse).Calls P := by
  refine .bind (.query hrank) fun rank? => .bind (.ofOption rank?) fun rank => ?_
  split
  · exact .bind (.query hcount) fun _ => .done _
  · constructor

end Rankings

/-! ## Keys -/

namespace Keys

variable {source target : Bytes}

theorem calls_judge (hrecord : P (.record key)) : (judge key version terms).Calls P := by
  refine .bind (.outcome (.query hrecord)) fun found => ?_
  cases found <;> constructor

theorem calls_delete {keys : List Bytes} (hrecord : ∀ key ∈ keys, P (.record key))
    (hdelete : ∀ key ∈ keys, P (.delete key)) (versions : List Version) :
    (delete keys versions terms).Calls P := by
  unfold delete
  split
  · constructor
  · refine .bind (.mapM fun entry hentry => calls_judge (hrecord _ (List.of_mem_zip hentry).1))
      fun verdicts => ?_
    refine .bind (.outcome (.mapM fun key hkey => .ask (hdelete _ ?_))) fun ending => ?_
    · obtain ⟨entry, hentry, rfl⟩ := List.mem_map.mp hkey
      exact (List.of_mem_zip (List.mem_filter.mp hentry).1).1
    · cases ending <;> constructor

theorem calls_requireChangeable (hrecord : P (.record key)) :
    (requireChangeable key version).Calls P := by
  refine .bind (calls_requireRecord hrecord) fun record => ?_
  split <;> constructor

theorem calls_reschedule {deadline : Option Millis}
    (hset : P (.setDeadline key deadline version)) :
    (reschedule key deadline version).Calls P := by
  refine .bind (.query hset) fun done => ?_
  split <;> constructor

theorem calls_expire (hrecord : P (.record key))
    (hset : ∀ deadline, P (.setDeadline key deadline version)) (ttl : Nat) (unit : TtlUnit) :
    (expire context key ttl unit version).Calls P := by
  refine .bind (.discard (calls_requireChangeable hrecord)) fun _ => ?_
  exact calls_reschedule (hset _)

theorem calls_persist (hrecord : P (.record key)) (hset : P (.setDeadline key none version)) :
    (persist key version).Calls P := by
  refine .bind (calls_requireChangeable hrecord) fun record => ?_
  split
  · constructor
  · exact calls_reschedule hset

theorem calls_millisLeft (hrecord : P (.record key)) : (millisLeft context key).Calls P := by
  refine .bind (calls_requireRecord hrecord) fun record => ?_
  exact .bind (.ofOption _) fun _ => .done _

theorem calls_copy {record : Record} (hget : P (.get source)) (hfields : P (.fields source))
    (hmembers : P (.members source)) (hcount : P (.rankedCount source))
    (hrange : ∀ start stop, P (.byRank source start stop)) (hdelete : P (.delete target))
    (hput : ∀ value deadline, P (.put target ⟨value, version⟩ deadline))
    (hfield : ∀ field item, P (.putField target field item))
    (hmember : ∀ member version, P (.addMember target member version))
    (hscore : ∀ member score version, P (.putScore target member score version))
    (hset : ∀ deadline, P (.setDeadline target deadline version)) :
    (copy source target record version).Calls P := by
  have hfinish : (discard (ask (.setDeadline target record.deadline version)) :
      Script Failure Unit).Calls P := .bind (.ask (hset _)) fun _ => .done _
  have hclear : (discard (ask (.delete target)) : Script Failure Unit).Calls P :=
    .bind (.ask hdelete) fun _ => .done _
  unfold copy
  cases record.kind with
  | string => exact .bind (.ask hget) fun item => .ask (hput _ _)
  | hash =>
    refine .bind (.ask hfields) fun fields => .bind hclear fun _ => ?_
    exact .bind (.forM fun entry _ => .bind (.ask (hfield _ _)) fun _ => .done _) fun _ => hfinish
  | set =>
    refine .bind (.ask hmembers) fun members => .bind hclear fun _ => ?_
    exact .bind (.forM fun entry _ => .bind (.ask (hmember _ _)) fun _ => .done _) fun _ => hfinish
  | zset =>
    refine .bind (.ask hcount) fun size => ?_
    have hrest : ∀ entries : List Ranked, (do
        discard (ask (.delete target))
        entries.forM fun entry =>
          discard (ask (.putScore target entry.member entry.score entry.version))
        discard (ask (.setDeadline target record.deadline version)) :
        Script Failure Unit).Calls P := by
      refine fun entries => .bind hclear fun _ => .bind (.forM fun entry _ => ?_) fun _ => hfinish
      exact .bind (.ask (hscore _ _ _)) fun _ => .done _
    dsimp only
    split
    · exact .bind (.done _) hrest
    · exact .bind (.ask (hrange _ _)) hrest

theorem calls_rename (hrecord : P (.record source)) (hfound : P (.record target))
    (hget : P (.get source)) (hfields : P (.fields source)) (hmembers : P (.members source))
    (hcount : P (.rankedCount source)) (hrange : ∀ start stop, P (.byRank source start stop))
    (hclear : P (.delete target)) (hdelete : P (.delete source))
    (hput : ∀ value deadline, P (.put target ⟨value, version⟩ deadline))
    (hfield : ∀ field item, P (.putField target field item))
    (hmember : ∀ member version, P (.addMember target member version))
    (hscore : ∀ member score version, P (.putScore target member score version))
    (hset : ∀ deadline, P (.setDeadline target deadline version)) (onlyIfAbsent : Bool) :
    (rename source target version onlyIfAbsent).Calls P := by
  refine .bind calls_requireVersion fun _ => .bind (calls_requireRecord hrecord) fun record => ?_
  split
  · constructor
  · refine .bind (.query hfound) fun found => ?_
    split
    · refine .mapRefusal (.bind ?_ fun _ => .discard (.ask hdelete))
      exact calls_copy hget hfields hmembers hcount hrange hclear hput hfield hmember hscore hset
    · constructor

end Keys

/-! ## Commands -/

namespace Command

/-- The calls that a command may make. -/
def Footprint : Command → Call → Prop
  | get key, c => c = .get key
  | getSet key item _, c => c = .get key ∨ c = .record key ∨ c = .put key item none
  | set key item terms mode, c => c = .record key ∨ c = .put key item (mode.deadline terms)
  | setEx key item _, c | setWith key item _ _, c =>
    c = .record key ∨ ∃ deadline, c = .put key item deadline
  | incrBy key version _ _, c | decrBy key version _ _, c =>
    c = .record key ∨ c = .get key ∨ ∃ value deadline, c = .put key ⟨value, version⟩ deadline
  | mset items terms mode, c =>
    ∃ entry ∈ items, c = .record entry.1 ∨ c = .put entry.1 entry.2 (mode.deadline terms)
  | mget keys, c => ∃ key ∈ keys, c = .get key
  | hset key field item _, c =>
    c = .record key ∨ c = .field key field ∨ c = .putField key field item
  | hget key field, c | hexists key field, c => c = .field key field
  | hmset key values _, c =>
    c = .record key ∨ ∃ entry ∈ values, c = .field key entry.1 ∨ c = .putField key entry.1 entry.2
  | hmget key fields, c => c = .record key ∨ ∃ field ∈ fields, c = .field key field
  | hdel key fields _, c =>
    c = .record key ∨ ∃ entry ∈ fields, c = .field key entry.1 ∨ c = .dropField key entry.1 entry.2
  | hincrBy key field version _ _, c =>
    c = .record key ∨ c = .field key field ∨ ∃ value, c = .putField key field ⟨value, version⟩
  | hlen key, c => c = .fieldCount key
  | hgetall key, c | hkeys key, c | hvals key, c => c = .fields key
  | sadd key members _, c =>
    c = .record key ∨
      ∃ item ∈ members, c = .member key item.value ∨ c = .addMember key item.value item.version
  | srem key members _, c =>
    c = .record key ∨
      ∃ item ∈ members, c = .member key item.value ∨ c = .dropMember key item.value item.version
  | spop key version _, c =>
    c = .record key ∨ c = .members key ∨ ∃ member, c = .dropMember key member version
  | smembers key, c => c = .record key ∨ c = .members key
  | scard key, c => c = .memberCount key
  | sismember key member, c => c = .member key member
  | zadd key items _, c =>
    c = .record key ∨ ∃ item ∈ items,
      c = .mark key item.member ∨ c = .putScore key item.member item.score item.version
  | zrem key members _, c =>
    c = .record key ∨
      ∃ item ∈ members, c = .mark key item.value ∨ c = .dropScore key item.value item.version
  | zincrBy key member version _ _, c =>
    c = .record key ∨ c = .mark key member ∨ ∃ score, c = .putScore key member score version
  | zcard key, c => c = .rankedCount key
  | zscore key member, c => c = .mark key member
  | zcount key _ _, c => c = .record key ∨ ∃ min max, c = .countByScore key min max
  | zrange key _ _ _ _, c =>
    c = .record key ∨ c = .rankedCount key ∨ ∃ start stop, c = .byRank key start stop
  | zrangeByScore key _ _ _ _, c => c = .record key ∨ ∃ min max, c = .byScore key min max
  | zremRangeByScore key _ _ version _, c =>
    c = .record key ∨ ∃ min max, c = .dropByScore key min max version
  | zremRangeByRank key _ _ version _, c =>
    c = .record key ∨ c = .rankedCount key ∨ (∃ start stop, c = .byRank key start stop) ∨
      ∃ member, c = .dropScore key member version
  | zrank key member _, c => c = .rank key member ∨ c = .rankedCount key
  | del keys _ _, c => ∃ key ∈ keys, c = .record key ∨ c = .delete key
  | expire key _ _ version, c =>
    c = .record key ∨ ∃ deadline, c = .setDeadline key deadline version
  | persist key version, c => c = .record key ∨ c = .setDeadline key none version
  | keyExists key, c | ttl key, c | pttl key, c | keyType key, c | keyVersion key, c =>
    c = .record key
  | rename source target version _, c =>
    (c = .record source ∨ c = .get source ∨ c = .fields source ∨ c = .members source ∨
      c = .rankedCount source ∨ (∃ start stop, c = .byRank source start stop) ∨
      c = .delete source) ∨
    c = .record target ∨ c = .delete target ∨
      (∃ value deadline, c = .put target ⟨value, version⟩ deadline) ∨
      (∃ field item, c = .putField target field item) ∨
      (∃ member version, c = .addMember target member version) ∨
      (∃ member score version, c = .putScore target member score version) ∨
      ∃ deadline, c = .setDeadline target deadline version
  | finalize, c => c = .close
  | fetchExpired instant limit, c => c = .expired instant limit

theorem calls_reply {script : Script Status α} (h : script.Calls P) (data : α → Data) :
    (reply script data).Calls P :=
  .bind h fun _ => .done _

/-- No command leaves its footprint, whatever the store answers. -/
theorem script_calls (context : Context) (command : Command) :
    (command.script context).Calls command.Footprint := by
  cases command with
  | get key => exact calls_reply (Strings.calls_get (by rfl)) _
  | getSet key item terms =>
    exact calls_reply (Strings.calls_exchange (.inr (.inl rfl)) (.inl rfl) (.inr (.inr rfl))) _
  | set key item terms mode => exact calls_reply (Strings.calls_set (.inl rfl) (.inr rfl)) _
  | setEx key item seconds =>
    exact calls_reply (Strings.calls_setFor (.inl rfl) (fun d => .inr ⟨d, rfl⟩) seconds) _
  | setWith key item terms tokens =>
    exact calls_reply (Strings.calls_setWith (.inl rfl) (fun d => .inr ⟨d, rfl⟩) tokens) _
  | incrBy key version delta terms =>
    refine calls_reply (Strings.calls_add (.inl rfl) (.inr (.inl rfl)) ?_ delta) _
    exact fun value deadline => .inr (.inr ⟨value, deadline, rfl⟩)
  | decrBy key version delta terms =>
    refine calls_reply (Strings.calls_subtract (.inl rfl) (.inr (.inl rfl)) ?_ delta) _
    exact fun value deadline => .inr (.inr ⟨value, deadline, rfl⟩)
  | mset items terms mode =>
    refine calls_reply (Strings.calls_setMany ?_ ?_) _
    · exact fun entry hentry => ⟨entry, hentry, .inl rfl⟩
    · exact fun entry hentry => ⟨entry, hentry, .inr rfl⟩
  | mget keys => exact calls_reply (Strings.calls_getMany fun key hkey => ⟨key, hkey, rfl⟩) _
  | hset key field item terms =>
    exact calls_reply (Hashes.calls_put (.inl rfl) (.inr (.inl rfl)) fun _ => .inr (.inr rfl)) _
  | hget key field => exact calls_reply (Hashes.calls_get (by rfl)) _
  | hmset key values terms =>
    refine calls_reply (Hashes.calls_putMany (.inl rfl) ?_ ?_) _
    · exact fun entry hentry => .inr ⟨entry, hentry, .inl rfl⟩
    · exact fun entry hentry _ => .inr ⟨entry, hentry, .inr rfl⟩
  | hmget key fields =>
    refine .bind (calls_requireSome fields) fun _ => ?_
    refine .bind (.discard (calls_requireKind (.inl rfl) .hash)) fun _ => ?_
    refine .bind (.outcome (Hashes.calls_getMany fun field hfield => ?_)) fun ending => ?_
    · exact .inr ⟨field, hfield, rfl⟩
    · cases ending <;> constructor
  | hdel key fields terms =>
    refine calls_reply (Hashes.calls_dropMany (.inl rfl) ?_ ?_) _
    · exact fun entry hentry => .inr ⟨entry, hentry, .inl rfl⟩
    · exact fun entry hentry => .inr ⟨entry, hentry, .inr rfl⟩
  | hincrBy key field version delta terms =>
    refine calls_reply (Hashes.calls_add (.inl rfl) (.inr (.inl rfl)) ?_ delta) _
    exact fun _ value => .inr (.inr ⟨value, rfl⟩)
  | hexists key field => exact calls_reply (Hashes.calls_get (by rfl)) _
  | hlen key => exact calls_reply (Hashes.calls_size (by rfl)) _
  | hgetall key => exact calls_reply (Hashes.calls_toList (by rfl)) _
  | hkeys key => exact calls_reply (Hashes.calls_toList (by rfl)) _
  | hvals key => exact calls_reply (Hashes.calls_toList (by rfl)) _
  | sadd key members terms =>
    refine calls_reply (Sets.calls_addMany (.inl rfl) ?_ ?_) _
    · exact fun item hitem => .inr ⟨item, hitem, .inl rfl⟩
    · exact fun item hitem _ => .inr ⟨item, hitem, .inr rfl⟩
  | srem key members terms =>
    refine calls_reply (Sets.calls_dropMany (.inl rfl) ?_ ?_) _
    · exact fun item hitem => .inr ⟨item, hitem, .inl rfl⟩
    · exact fun item hitem => .inr ⟨item, hitem, .inr rfl⟩
  | spop key version terms =>
    refine calls_reply (Sets.calls_pop (.inl rfl) (.inr (.inl rfl)) ?_) _
    exact fun member => .inr (.inr ⟨member, rfl⟩)
  | smembers key => exact calls_reply (Sets.calls_toList (.inl rfl) (.inr rfl)) _
  | scard key => exact calls_reply (Sets.calls_size (by rfl)) _
  | sismember key member => exact calls_reply (Sets.calls_contains (by rfl)) _
  | zadd key items terms =>
    refine calls_reply (Rankings.calls_addMany (.inl rfl) ?_ ?_) _
    · exact fun item hitem => .inr ⟨item, hitem, .inl rfl⟩
    · exact fun item hitem _ => .inr ⟨item, hitem, .inr rfl⟩
  | zrem key members terms =>
    refine calls_reply (Rankings.calls_dropMany (.inl rfl) ?_ ?_) _
    · exact fun item hitem => .inr ⟨item, hitem, .inl rfl⟩
    · exact fun item hitem => .inr ⟨item, hitem, .inr rfl⟩
  | zincrBy key member version delta terms =>
    refine calls_reply (Rankings.calls_add (.inl rfl) (.inr (.inl rfl)) ?_ delta) _
    exact fun _ score => .inr (.inr ⟨score, rfl⟩)
  | zcard key => exact calls_reply (Rankings.calls_size (by rfl)) _
  | zscore key member => exact calls_reply (Rankings.calls_score (by rfl)) _
  | zcount key min max =>
    exact calls_reply (Rankings.calls_count (.inl rfl) fun low high => .inr ⟨low, high, rfl⟩) _
  | zrange key start stop withScores reverse =>
    refine calls_reply (Rankings.calls_byRank (.inl rfl) (.inr (.inl rfl)) ?_) _
    exact fun first last => .inr (.inr ⟨first, last, rfl⟩)
  | zrangeByScore key min max withScores reverse =>
    exact calls_reply (Rankings.calls_byScore (.inl rfl) fun low high => .inr ⟨low, high, rfl⟩) _
  | zremRangeByScore key min max version terms =>
    refine calls_reply (Rankings.calls_dropByScore (.inl rfl) ?_) _
    exact fun low high => .inr ⟨low, high, rfl⟩
  | zremRangeByRank key start stop version terms =>
    refine .bind (Rankings.calls_dropByRank (.inl rfl) (.inr (.inl rfl)) ?_ ?_) ?_
    · exact fun first last => .inr (.inr (.inl ⟨first, last, rfl⟩))
    · exact fun member => .inr (.inr (.inr ⟨member, rfl⟩))
    · exact fun result => .done _
  | zrank key member reverse => exact calls_reply (Rankings.calls_rank (.inl rfl) (.inr rfl)) _
  | del keys versions terms =>
    refine calls_reply (Keys.calls_delete ?_ ?_ versions) _
    · exact fun key hkey => ⟨key, hkey, .inl rfl⟩
    · exact fun key hkey => ⟨key, hkey, .inr rfl⟩
  | expire key amount unit version =>
    exact calls_reply (Keys.calls_expire (.inl rfl) (fun d => .inr ⟨d, rfl⟩) amount unit) _
  | persist key version => exact calls_reply (Keys.calls_persist (.inl rfl) (.inr rfl)) _
  | keyExists key => exact calls_reply (.discard (calls_requireRecord (by rfl))) _
  | ttl key => exact calls_reply (.bind (Keys.calls_millisLeft (by rfl)) fun _ => .done _) _
  | pttl key => exact calls_reply (Keys.calls_millisLeft (by rfl)) _
  | keyType key => exact calls_reply (.bind (calls_requireRecord (by rfl)) fun _ => .done _) _
  | keyVersion key => exact calls_reply (.bind (calls_requireRecord (by rfl)) fun _ => .done _) _
  | rename source target version onlyIfAbsent =>
    refine calls_reply (Keys.calls_rename ?_ ?_ ?_ ?_ ?_ ?_ ?_ ?_ ?_ ?_ ?_ ?_ ?_ ?_ _) _
    all_goals simp [Footprint]
  | finalize => exact calls_reply (.query (by rfl)) _
  | fetchExpired instant limit =>
    refine .bind (.outcome (.ask (by rfl))) fun ending => ?_
    cases ending <;> constructor

/-- A command calls the store on its own keys only. -/
theorem Footprint.key_mem {command : Command} {c : Call} (h : command.Footprint c)
    (hkey : c.key? = some key) : key ∈ command.keys := by
  cases command with
  | rename source target version onlyIfAbsent =>
    simp only [keys, List.mem_cons, List.not_mem_nil, or_false]
    rcases h with hsource | htarget
    · left
      rcases hsource with rfl | rfl | rfl | rfl | rfl | ⟨_, _, rfl⟩ | rfl <;>
        exact (Option.some.inj hkey).symm
    · right
      rcases htarget with rfl | rfl | ⟨_, _, rfl⟩ | ⟨_, _, rfl⟩ | ⟨_, _, rfl⟩ | ⟨_, _, _, rfl⟩ |
        ⟨_, rfl⟩ <;> exact (Option.some.inj hkey).symm
  | _ =>
    simp only [Footprint] at h
    simp only [keys, List.mem_singleton, List.mem_map, List.not_mem_nil, Prod.exists]
    grind [Call.key?]

/-- Only one command closes the store. -/
theorem Footprint.eq_finalize {command : Command} (h : command.Footprint .close) :
    command = .finalize := by
  cases command with
  | finalize => rfl
  | _ =>
    simp only [Footprint] at h
    grind

theorem run_eq (context : Context) (command : Command) (store : Store) :
    command.run context store =
      (command.conclude ((command.script context).on context.now store).1,
        ((command.script context).on context.now store).2) := rfl

/-- The reply to a command that answers with the result of a script, whoever
answers its calls. -/
theorem runBy_of_reply {σ : Type} {command : Command} {script : Script Status α}
    {data : α → Data} (h : command.script context = reply script data)
    (answer : σ → (c : Call) → Except Failure c.Answer × σ) (state : σ) :
    command.runBy answer context state =
      (match (script.run answer state).1 with
        | .ok result => ⟨.ok, data result⟩
        | .error status => ⟨status, command.blank status⟩,
        (script.run answer state).2) := by
  rw [runBy, h, reply, Script.bind_eq, Script.run_bind]
  rcases script.run answer state with ⟨_ | _, _⟩ <;> rfl

/-- As `runBy_of_reply`, for the run on a store. -/
theorem run_of_reply {command : Command} {script : Script Status α} {data : α → Data}
    (h : command.script context = reply script data) (store : Store) :
    command.run context store =
      (match (script.on context.now store).1 with
        | .ok result => ⟨.ok, data result⟩
        | .error status => ⟨status, command.blank status⟩,
        (script.on context.now store).2) :=
  runBy_of_reply h _ store

/-- A fetch of expired keys changes nothing. -/
theorem run_fetchExpired (instant : Millis) (limit : Nat) (store : Store) :
    ((fetchExpired instant limit).run context store).2 = store := by
  have hreads : ((fetchExpired instant limit).script context).Calls fun c => c.reads = true :=
    (script_calls context _).mono fun c hc => by cases hc; rfl
  exact hreads.unchanged context.now store

/-- The frame rule: a command leaves the slots of the keys that it does not name
as they are, live or not. -/
theorem getElem?_run_of_not_mem {command : Command} {store : Store}
    (hcommand : command ≠ .finalize) (hkey : key ∉ command.keys) :
    (command.run context store).2.slots[key]? = store.slots[key]? := by
  have hstep : ∀ c, command.Footprint c → ∀ other : Store,
      other.slots[key]? = store.slots[key]? →
      (other.perform context.now c).2.slots[key]? = store.slots[key]? := by
    intro c hc other hother
    have hclose : c ≠ .close := fun hsame => hcommand (Footprint.eq_finalize (hsame ▸ hc))
    rw [Store.getElem?_perform_of_ne hclose fun hsame => hkey (hc.key_mem hsame), hother]
  exact Script.Calls.preserves_on hstep (script_calls context command) rfl

end Command

end Keyspace
