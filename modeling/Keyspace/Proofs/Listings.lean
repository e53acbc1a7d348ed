import Keyspace.Proofs.Counts

/-!
# Listings

A hash is read in seven ways and a set in three, and each way asks the store another
question.  All of them tell of one list: the entries in ascending order of their names.

* Maps.  `pairwise_toList`: a map lists its entries in strictly ascending order.
* Hashes and sets.  What each read is answered with, said of the map that the live slot
  holds: a question about the slot is one about the map (`Store.view_hash`,
  `Store.view_set`).
* The answers.  `Command.HashReads` and `Command.SetReads` say of a list that all reads tell
  of it, and `Command.reads_agree` that there is such a list.
-/

namespace Keyspace

variable {store : Store} {context : Context} {now : Millis} {key : Bytes} {slot : Slot}
  {fields : Fields} {members : Members}

/-! ## Maps -/

/-- A map lists its entries in ascending order of their names, and no name twice. -/
theorem pairwise_toList {α : Type} (entries : Std.ExtTreeMap Bytes α) :
    entries.toList.Pairwise fun a b => a.1 < b.1 :=
  Std.ExtTreeMap.ordered_keys_toList.imp Bytes.compare_eq_lt.mp

/-! ## Questions -/

namespace Store

variable (hopen : store.closed = false) (hslot : store.live? now key = some slot)

include hopen hslot

/-- A question about a live hash is asked of its fields. -/
theorem view_hash {α : Type} (hhash : slot.content = .hash fields) (absent : α)
    (question : Fields → α) :
    (store.view now key absent fun slot => question <$> slot.hash) = .ok (question fields) :=
  view_part hopen hslot (by rw [Slot.hash, hhash]) absent question

/-- A question about a live set is asked of its members. -/
theorem view_set {α : Type} (hset : slot.content = .set members) (absent : α)
    (question : Members → α) :
    (store.view now key absent fun slot => question <$> slot.set) = .ok (question members) :=
  view_part hopen hslot (by rw [Slot.set, hset]) absent question

end Store

/-! ## Hashes -/

namespace Hashes

variable (hopen : store.closed = false) (hslot : store.live? now key = some slot)
  (hhash : slot.content = .hash fields)

include hopen hslot hhash

theorem on_field (name : Bytes) :
    (query (.field key name)).on now store = (.ok fields[name]?, store) :=
  Script.on_query_ok <| by
    rw [Store.perform, Store.view_hash hopen hslot hhash none (·[name]?)]

theorem on_get (name : Bytes) :
    (get key name).on now store =
      (match fields[name]? with
        | none => .error .notExist
        | some item => .ok item, store) := by
  rw [get, Script.bind_eq, Script.on_bind_ok (on_field hopen hslot hhash name)]
  cases fields[name]? <;> rfl

/-- A missing field is shown as the empty marker. -/
theorem on_getMany (names : List Bytes) :
    (getMany key names).on now store =
      (.ok (names.map fun name => fields[name]?.getD .empty), store) := by
  refine Script.on_mapM_eq_map (fun name => ?_) names
  rw [Script.bind_eq, Script.on_bind_ok (on_field hopen hslot hhash name)]
  rfl

theorem on_size (hfilled : 0 < fields.size) :
    (size key).on now store = (.ok fields.size, store) := by
  refine on_countOf (Script.on_query_ok ?_) hfilled
  rw [Store.perform, Store.view_hash hopen hslot hhash 0 (·.size)]

theorem on_toList (hfilled : 0 < fields.size) :
    (toList key).on now store = (.ok fields.toList, store) := by
  have hfields : store.perform now (.fields key) = (.ok fields.toList, store) := by
    rw [Store.perform, Store.view_hash hopen hslot hhash [] (·.toList)]
  have hshown : fields.toList.isEmpty = false := by
    rw [List.isEmpty_eq_false_iff, ← List.length_pos_iff, Std.ExtTreeMap.length_toList]
    exact hfilled
  rw [toList, Script.bind_eq, Script.on_bind_ok (Script.on_query_ok hfields), hshown]
  rfl

end Hashes

/-! ## Sets -/

namespace Sets

/-- The members of a set as a reply shows them. -/
def listing (members : Members) : List Item :=
  members.toList.map fun (name, version) => ⟨name, version⟩

theorem mem_listing {item : Item} :
    item ∈ listing members ↔ members[item.value]? = some item.version := by
  rw [← Std.ExtTreeMap.mem_toList_iff_getElem?_eq_some, listing, List.mem_map]
  exact ⟨fun ⟨_, hentry, hitem⟩ => hitem ▸ hentry, fun hentry => ⟨_, hentry, rfl⟩⟩

theorem pairwise_listing (members : Members) :
    (listing members).Pairwise fun a b => a.value < b.value :=
  List.pairwise_map.mpr (pairwise_toList members)

theorem length_listing (members : Members) : (listing members).length = members.size := by
  rw [listing, List.length_map, Std.ExtTreeMap.length_toList]

variable (hopen : store.closed = false) (hslot : store.live? now key = some slot)
  (hset : slot.content = .set members)

include hopen hslot hset

theorem perform_member (name : Bytes) :
    store.perform now (.member key name) = (.ok members[name]?, store) := by
  rw [Store.perform, Store.view_set hopen hslot hset none (·[name]?)]

theorem on_contains (name : Bytes) :
    (contains key name).on now store =
      (if members[name]?.isSome then .ok () else .error .notExist, store) := by
  have hmember := perform_member hopen hslot hset name
  rw [contains, Script.bind_eq, Script.on_bind_ok (Script.on_query_ok hmember)]
  cases members[name]? <;> rfl

theorem on_size (hfilled : 0 < members.size) :
    (size key).on now store = (.ok members.size, store) := by
  refine on_countOf (Script.on_query_ok ?_) hfilled
  rw [Store.perform, Store.view_set hopen hslot hset 0 (·.size)]

theorem on_toList : (toList key).on now store = (.ok (listing members), store) := by
  have hkind : slot.content.kind = .set := congrArg Content.kind hset
  have hmembers : store.perform now (.members key) = (.ok members.toList, store) := by
    rw [Store.perform, Store.view_set hopen hslot hset [] (·.toList)]
  rw [toList, Script.bind_eq, Script.discard_eq, Script.bind_assoc,
    Script.on_bind_ok (on_requireKind hopen hslot hkind)]
  show ((query (.members key)).bind _).on now store = _
  rw [Script.on_bind_ok (Script.on_query_ok hmembers)]
  rfl

end Sets

/-! ## The answers -/

/-- The item that a reply shows, or the empty marker if it reports no success. -/
def Reply.shown (reply : Reply) : Item :=
  match reply with
  | ⟨.ok, .item item⟩ => item
  | _ => .empty

namespace Command

/-- What the reads of a hash reply if all of them tell of one list. -/
structure HashReads (context : Context) (store : Store) (key : Bytes)
    (listing : List (Bytes × Item)) : Prop where
  ascending : listing.Pairwise fun a b => a.1 < b.1
  all : (hgetall key).run context store = (⟨.ok, .fields listing⟩, store)
  one : ∀ name item, (name, item) ∈ listing ↔
    (hget key name).run context store = (⟨.ok, .item item⟩, store)
  present : ∀ name item, (name, item) ∈ listing ↔
    (hexists key name).run context store = (⟨.ok, .nothing⟩, store) ∧
      ((hget key name).run context store).1.shown = item
  count : (hlen key).run context store = (⟨.ok, .count listing.length⟩, store)
  names : (hkeys key).run context store = (⟨.ok, .names (listing.map Prod.fst)⟩, store)
  values : (hvals key).run context store = (⟨.ok, .names (listing.map (·.2.value))⟩, store)
  /-- A request for no fields is refused, and shows none. -/
  many : ∀ names, (hmget key names).run context store =
    (⟨if names = [] then .wrongArgCount else .ok,
      .items (names.map fun name => ((hget key name).run context store).1.shown)⟩, store)

/-- What the reads of a set reply if all of them tell of one list. -/
structure SetReads (context : Context) (store : Store) (key : Bytes)
    (listing : List Item) : Prop where
  ascending : listing.Pairwise fun a b => a.value < b.value
  all : (smembers key).run context store = (⟨.ok, .items listing⟩, store)
  present : ∀ name, (∃ item ∈ listing, item.value = name) ↔
    (sismember key name).run context store = (⟨.ok, .nothing⟩, store)
  stamped : ∀ item, item ∈ listing ↔
    store.perform context.now (.member key item.value) = (.ok (some item.version), store)
  count : (scard key).run context store = (⟨.ok, .count listing.length⟩, store)

section Hashes

variable (hopen : store.closed = false) (hslot : store.live? context.now key = some slot)
  (hhash : slot.content = .hash fields)

include hopen hslot hhash

theorem run_hget (name : Bytes) :
    (hget key name).run context store =
      (match fields[name]? with
        | none => ⟨.notExist, .item .empty⟩
        | some item => ⟨.ok, .item item⟩, store) := by
  rw [run_of_reply (by rfl), Hashes.on_get hopen hslot hhash]
  cases fields[name]? <;> rfl

theorem run_hexists (name : Bytes) :
    (hexists key name).run context store =
      (match fields[name]? with
        | none => ⟨.notExist, .nothing⟩
        | some _ => ⟨.ok, .nothing⟩, store) := by
  rw [run_of_reply (by rfl), Hashes.on_get hopen hslot hhash]
  cases fields[name]? <;> rfl

theorem shown_hget (name : Bytes) :
    ((hget key name).run context store).1.shown = fields[name]?.getD .empty := by
  rw [run_hget hopen hslot hhash]
  cases fields[name]? <;> rfl

theorem run_hmget (names : List Bytes) :
    (hmget key names).run context store =
      (⟨if names = [] then .wrongArgCount else .ok,
        .items (names.map fun name => fields[name]?.getD .empty)⟩, store) := by
  have hkind : slot.content.kind = .hash := congrArg Content.kind hhash
  cases names with
  | nil => rfl
  | cons first rest =>
    have hmany := Hashes.on_getMany hopen hslot hhash (first :: rest)
    have hread : (discard (requireKind key .hash) : Script Status Unit).on context.now store =
        (.ok (), store) := by
      rw [Script.discard_eq, Script.on_bind_ok (on_requireKind hopen hslot hkind)]
      rfl
    rw [run_eq]
    show (conclude _ (((discard (requireKind key .hash)).bind _).on context.now store).1,
      (((discard (requireKind key .hash)).bind _).on context.now store).2) = _
    rw [Script.on_bind_ok hread, Script.bind_eq, Script.on_bind, Script.on_outcome, hmany]
    rfl

/-- All reads of a live hash tell of the list of its fields. -/
theorem hashReads (hfilled : 0 < fields.size) : HashReads context store key fields.toList := by
  have hall := Hashes.on_toList hopen hslot hhash hfilled
  refine ⟨pairwise_toList fields, ?_, fun name item => ?_, fun name item => ?_, ?_, ?_, ?_,
    fun names => ?_⟩
  · rw [run_of_reply (by rfl), hall]
  · rw [Std.ExtTreeMap.mem_toList_iff_getElem?_eq_some, run_hget hopen hslot hhash]
    cases fields[name]? <;> simp
  · rw [Std.ExtTreeMap.mem_toList_iff_getElem?_eq_some, run_hexists hopen hslot hhash,
      shown_hget hopen hslot hhash]
    cases fields[name]? <;> simp
  · rw [run_of_reply (by rfl), Hashes.on_size hopen hslot hhash hfilled,
      Std.ExtTreeMap.length_toList]
  · rw [run_of_reply (by rfl), hall]
  · rw [run_of_reply (by rfl), hall]
  · simp only [run_hmget hopen hslot hhash, shown_hget hopen hslot hhash]

end Hashes

/-- All reads of a live set tell of the list of its members. -/
theorem setReads (hopen : store.closed = false) (hslot : store.live? context.now key = some slot)
    (hset : slot.content = .set members) (hfilled : 0 < members.size) :
    SetReads context store key (Sets.listing members) := by
  refine ⟨Sets.pairwise_listing members, ?_, fun name => ?_, fun item => ?_, ?_⟩
  · rw [run_of_reply (by rfl), Sets.on_toList hopen hslot hset]
  · have hmember : (∃ item ∈ Sets.listing members, item.value = name) ↔
        members[name]?.isSome = true := by
      simp only [Sets.mem_listing, Option.isSome_iff_exists]
      exact ⟨fun ⟨item, hitem, hname⟩ => ⟨item.version, hname ▸ hitem⟩,
        fun ⟨version, hversion⟩ => ⟨⟨name, version⟩, hversion, rfl⟩⟩
    rw [hmember, run_of_reply (by rfl), Sets.on_contains hopen hslot hset]
    cases members[name]? <;> simp
  · rw [Sets.mem_listing, Sets.perform_member hopen hslot hset]
    simp
  · rw [run_of_reply (by rfl), Sets.on_size hopen hslot hset hfilled, Sets.length_listing]

/-- All reads of a hash tell of one list, in strictly ascending order of the fields, and so do
all reads of a set, in that of the members.  This is so after any calls, whenever the key
is live. -/
theorem reads_agree (h : store.Reachable) (context : Context) (key : Bytes) {slot : Slot}
    (hslot : store.live? context.now key = some slot) :
    (∀ fields, slot.content = .hash fields →
      ∃ listing, HashReads context store key listing) ∧
    ∀ members, slot.content = .set members →
      ∃ listing, SetReads context store key listing := by
  have hopen := h.open_of_live hslot
  have hpos := (h.sound key slot (Store.live?_eq_some.mp hslot).1).entries_pos
  refine ⟨fun fields hhash => ⟨fields.toList, ?_⟩, fun members hset => ⟨Sets.listing members, ?_⟩⟩
  · rw [hhash] at hpos
    exact hashReads hopen hslot hhash (hpos nofun)
  · rw [hset] at hpos
    exact setReads hopen hslot hset (hpos nofun)

/-- A hash of two fields, the later one written first and the earlier one written twice, and
a set of two members, one of them stamped anew. -/
theorem reads_agree_rewritten :
    let context : Context := ⟨⟨5000⟩, .absolute⟩
    let hashed := (((Store.empty.perform 0 (.putField [104] [98] ⟨[50], 1⟩)).2.perform 0
      (.putField [104] [97] ⟨[49], 2⟩)).2.perform 0 (.putField [104] [97] ⟨[51], 4⟩)).2
    let store := (((hashed.perform 0 (.addMember [115] [120] 1)).2.perform 0
      (.addMember [115] [] 2)).2.perform 0 (.addMember [115] [120] 3)).2
    let reply := fun command : Command => (command.run context store).1
    store.Reachable ∧
      reply (hgetall [104]) = ⟨.ok, .fields [([97], ⟨[51], 4⟩), ([98], ⟨[50], 1⟩)]⟩ ∧
      reply (hget [104] [97]) = ⟨.ok, .item ⟨[51], 4⟩⟩ ∧
      reply (hlen [104]) = ⟨.ok, .count 2⟩ ∧
      reply (hvals [104]) = ⟨.ok, .names [[51], [50]]⟩ ∧
      reply (smembers [115]) = ⟨.ok, .items [⟨[], 2⟩, ⟨[120], 3⟩]⟩ ∧
      reply (sismember [115] [120]) = ⟨.ok, .nothing⟩ ∧
      reply (scard [115]) = ⟨.ok, .count 2⟩ := by
  intro context hashed store reply
  have hhashed : hashed.Reachable :=
    ((Store.Reachable.empty.perform 0 _).perform 0 _).perform 0 _
  have hreachable : store.Reachable := ((hhashed.perform 0 _).perform 0 _).perform 0 _
  obtain ⟨fields, hfields⟩ := (reads_agree hreachable context [104] rfl).1 _ rfl
  obtain ⟨members, hmembers⟩ := (reads_agree hreachable context [115] rfl).2 _ rfl
  have hall : reply (hgetall [104]) =
      ⟨.ok, .fields [([97], ⟨[51], 4⟩), ([98], ⟨[50], 1⟩)]⟩ := by decide
  have hshown : reply (smembers [115]) = ⟨.ok, .items [⟨[], 2⟩, ⟨[120], 3⟩]⟩ := by decide
  obtain rfl := Data.fields.inj (congrArg Reply.data
    ((congrArg Prod.fst hfields.all).symm.trans hall))
  obtain rfl := Data.items.inj (congrArg Reply.data
    ((congrArg Prod.fst hmembers.all).symm.trans hshown))
  have hone := (hfields.one [97] ⟨[51], 4⟩).mp List.mem_cons_self
  have hpresent := (hmembers.present [120]).mp
    ⟨⟨[120], 3⟩, List.mem_cons_of_mem _ List.mem_cons_self, rfl⟩
  exact ⟨hreachable, hall, congrArg Prod.fst hone, congrArg Prod.fst hfields.count,
    congrArg Prod.fst hfields.values, hshown, congrArg Prod.fst hpresent,
    congrArg Prod.fst hmembers.count⟩

end Command

end Keyspace
