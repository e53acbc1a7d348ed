import Keyspace.Proofs.Expectation
import Keyspace.Proofs.Finality

/-!
# Keys of another kind

A command of one data type on a key that holds a value of another one is refused with
`wrongType`, shows nothing of the key and leaves it as it is.  The mismatch comes to
light in different places: some commands look at the record of the key first, others
learn of it from the first call that reads the value.  What matters is that every
command does one of the two before anything that would not look at the key, such as a
range with its ends in the wrong order.

There are three groups.

* Calls and checks.  On a key of another kind (`Store.HoldsOther`) a call that asks
  for a value fails (`Store.HoldsOther.query`), and so does a check of the kind
  (`Store.HoldsOther.checkKind`, `Store.HoldsOther.requireKind`).
* Commands.  `Command.typed?` tells the key and the kind of the commands of a data
  type, and `Command.refused_of_other` that all of them are refused.
* Replies.  `Command.wrongType_of_other` says what can be seen of that, and how a
  request for several strings, which is not refused, shows such keys.
-/

namespace Keyspace

variable {store : Store} {now : Millis} {key : Bytes} {kind : Kind} {terms : Terms}
  {version : Version} {bad : Status → Prop} {α β : Type}

/-! ## Calls and checks -/

/-- The kind of value that a call asks for.  Ranges are left out: a range with its ends
in the wrong order is answered without a look at the key. -/
def Call.asks? : Call → Option Kind
  | .get _ => some .string
  | .field .. | .fields _ | .fieldCount _ => some .hash
  | .member .. | .members _ | .memberCount _ => some .set
  | .mark .. | .rankedCount _ | .rank .. => some .zset
  | _ => none

namespace Slot

variable {slot : Slot}

theorem string_of_ne (h : slot.content.kind ≠ .string) : slot.string = .error .wrongType := by
  obtain ⟨content, version, deadline⟩ := slot
  cases content with
  | string => exact absurd rfl h
  | _ => rfl

theorem hash_of_ne (h : slot.content.kind ≠ .hash) : slot.hash = .error .wrongType := by
  obtain ⟨content, version, deadline⟩ := slot
  cases content with
  | hash => exact absurd rfl h
  | _ => rfl

theorem set_of_ne (h : slot.content.kind ≠ .set) : slot.set = .error .wrongType := by
  obtain ⟨content, version, deadline⟩ := slot
  cases content with
  | set => exact absurd rfl h
  | _ => rfl

theorem zset_of_ne (h : slot.content.kind ≠ .zset) : slot.zset = .error .wrongType := by
  obtain ⟨content, version, deadline⟩ := slot
  cases content with
  | zset => exact absurd rfl h
  | _ => rfl

end Slot

/-- Whether an open store holds a live value of another kind under a key. -/
structure Store.HoldsOther (now : Millis) (key : Bytes) (kind : Kind) (store : Store) : Prop where
  isOpen : store.closed = false
  live : ∃ slot, store.live? now key = some slot ∧ slot.content.kind ≠ kind

namespace Store.HoldsOther

variable (h : store.HoldsOther now key kind)
include h

theorem view {absent : α} {question : Slot → Except Failure α}
    (hquestion : ∀ slot : Slot, slot.content.kind ≠ kind → question slot = .error .wrongType) :
    store.view now key absent question = .error .wrongType := by
  obtain ⟨slot, hslot, hkind⟩ := h.live
  rw [view_open h.isOpen, hslot]
  exact hquestion slot hkind

/-- A call that asks for a value of another kind fails. -/
theorem fst_perform {c : Call} (hc : c.asks? = some kind) (hkey : c.key? = some key) :
    (store.perform now c).1 = .error .wrongType := by
  cases c with
  | get =>
    cases hkey
    cases hc
    exact h.view fun slot hslot => by rw [Slot.string_of_ne hslot]; rfl
  | field | fields | fieldCount =>
    cases hkey
    cases hc
    exact h.view fun slot hslot => by rw [Slot.hash_of_ne hslot]; rfl
  | member | members | memberCount =>
    cases hkey
    cases hc
    exact h.view fun slot hslot => by rw [Slot.set_of_ne hslot]; rfl
  | mark | rankedCount | rank =>
    cases hkey
    cases hc
    exact h.view fun slot hslot => by rw [Slot.zset_of_ne hslot]; rfl
  | _ => cases hc

theorem query {c : Call} (hc : c.asks? = some kind) (hkey : c.key? = some key) :
    (query c).Refused (· = .wrongType) now store := by
  have hreads : c.reads = true := by
    cases c with
    | get | field | fields | fieldCount | member | members | memberCount | mark | rankedCount
    | rank => rfl
    | _ => cases hc
  refine ⟨.wrongType, rfl, ?_⟩
  rw [Script.on_query, h.fst_perform hc hkey, perform_of_reads hreads]
  rfl

theorem checkKind (hexpected : terms.expected = none) :
    (checkKind key terms kind).Refused (· = .wrongType) now store := by
  obtain ⟨slot, hslot, hkind⟩ := h.live
  have hpermit : terms.permit (some slot.record) = true := by
    rw [Terms.permit, hexpected]
  have hterms : (checkTerms key terms).on now store = (.ok (some slot.record), store) := by
    rw [on_checkTerms, record_open h.isOpen, hslot]
    exact congrArg (·, store) (if_pos hpermit)
  have hother : ¬ (some slot.record).all (·.kind = kind) = true := by
    simpa [Slot.record] using hkind
  refine ⟨.wrongType, rfl, ?_⟩
  rw [Keyspace.checkKind, Script.bind_eq, Script.on_bind_ok hterms, if_neg hother]
  rfl

theorem checkExisting (hexpected : terms.expected = none) :
    (checkExisting key terms kind).Refused (· = .wrongType) now store :=
  (h.checkKind hexpected).bind _

theorem checkCurrent (hexpected : terms.expected = none) :
    (checkCurrent key terms kind version).Refused (· = .wrongType) now store :=
  (h.checkExisting hexpected).bind _

theorem requireKind : (requireKind key kind).Refused (· = .wrongType) now store := by
  obtain ⟨slot, hslot, hkind⟩ := h.live
  have hrecord : (requireRecord key).on now store = (.ok slot.record, store) := by
    rw [on_requireRecord, record_open h.isOpen, hslot]
    rfl
  have hother : ¬ slot.record.kind = kind := hkind
  refine ⟨.wrongType, rfl, ?_⟩
  rw [Keyspace.requireKind, Script.bind_eq, Script.on_bind_ok hrecord, if_neg hother]
  rfl

end Store.HoldsOther

/-- A script that demands a version is refused if there is one and the rest of it is
refused. -/
theorem refused_of_version {rest : Unit → Script Status α} (hversion : version ≠ 0)
    (hrest : (rest ()).Refused bad now store) :
    ((requireVersion version).bind rest).Refused bad now store := by
  rw [requireVersion_of_ne hversion]
  exact hrest

/-- A script that demands a batch is refused if there is one and the rest of it is
refused. -/
theorem refused_of_batch {batch : List β} {rest : Unit → Script Status α}
    (hbatch : batch.isEmpty = false) (hrest : (rest ()).Refused bad now store) :
    ((requireSome batch).bind rest).Refused bad now store := by
  rw [requireSome, if_neg (Bool.eq_false_iff.mp hbatch)]
  exact hrest

/-! ## Commands -/

theorem Strings.refused_add {delta : Int64} (hversion : version ≠ 0)
    (hexpected : terms.expected = none) (h : store.HoldsOther now key .string) :
    (add key version delta terms).Refused (· = .wrongType) now store :=
  refused_of_version hversion ((h.checkKind hexpected).bind _)

namespace Command

variable {command : Command} {context : Context}

/-- The key of a command that works on values of one data type, and their kind.  The
commands that put a string in place of whatever is there work on every key. -/
def typed? : Command → Option (Bytes × Kind)
  | get key | getSet key .. | incrBy key .. | decrBy key .. => some (key, .string)
  | hset key .. | hget key _ | hmset key .. | hmget key _ | hdel key .. | hincrBy key ..
  | hexists key _ | hlen key | hgetall key | hkeys key | hvals key => some (key, .hash)
  | sadd key .. | srem key .. | spop key .. | smembers key | scard key | sismember key _ =>
    some (key, .set)
  | zadd key .. | zrem key .. | zincrBy key .. | zcard key | zscore key _ | zcount key ..
  | zrange key .. | zrangeByScore key .. | zremRangeByScore key .. | zremRangeByRank key ..
  | zrank key .. => some (key, .zset)
  | _ => none

/-- A command that has no flaw and demands no version is refused on a key that holds a
value of another kind. -/
theorem refused_of_other (htyped : command.typed? = some (key, kind))
    (hflaw : command.flaw? = none) (hexpected : command.expected? = none)
    (h : store.HoldsOther context.now key kind) :
    (command.script context).Refused (· = .wrongType) context.now store := by
  cases command with
  | get | hget | hexists | hlen | hgetall | hkeys | hvals | scard | sismember | zcard | zscore
  | zrank =>
    cases htyped
    exact ((h.query rfl rfl).bind _).bind _
  | smembers | zrange =>
    cases htyped
    exact ((h.requireKind.bind _).bind _).bind _
  | getSet =>
    cases htyped
    exact (refused_of_version (by simpa [flaw?] using hflaw) ((h.query rfl rfl).bind _)).bind _
  | incrBy =>
    cases htyped
    exact (Strings.refused_add (by simpa [flaw?] using hflaw) hexpected h).bind _
  | decrBy key version delta terms =>
    cases htyped
    have hdelta : delta ≠ Int64.minValue := fun hleast => by simp [flaw?, hleast] at hflaw
    have hversion : version ≠ 0 := fun hzero => by simp [flaw?, hdelta, hzero] at hflaw
    have hneg : negWithin delta = some (-delta) := if_neg hdelta
    refine Script.Refused.bind ?_ _
    rw [Strings.subtract, hneg]
    exact Strings.refused_add hversion hexpected h
  | hset | hincrBy | zincrBy =>
    cases htyped
    exact (refused_of_version (by simpa [flaw?] using hflaw)
      (((h.checkKind hexpected).bind _).bind _)).bind _
  | spop | zremRangeByRank =>
    cases htyped
    exact (refused_of_version (by simpa [flaw?] using hflaw)
      (((h.checkCurrent hexpected).bind _).bind _)).bind _
  | hmset | sadd | zadd =>
    cases htyped
    exact (refused_of_batch (by simpa [flaw?] using hflaw)
      (((h.checkKind hexpected).bind _).bind _)).bind _
  | hdel | srem | zrem =>
    cases htyped
    exact (refused_of_batch (by simpa [flaw?] using hflaw)
      (((h.checkExisting hexpected).bind _).bind _)).bind _
  | hmget =>
    cases htyped
    exact refused_of_batch (by simpa [flaw?] using hflaw) ((h.requireKind.bind _).bind _)
  | zcount key min max =>
    cases htyped
    have hreads : readsBounds min max = true := by simpa [flaw?] using hflaw
    obtain ⟨low, high, hbounds⟩ := bounds_of_readsBounds hreads
    refine Script.Refused.bind ?_ _
    rw [Rankings.count, hbounds]
    exact (h.requireKind.bind _).bind _
  | zrangeByScore key min max withScores reverse =>
    cases htyped
    have hreads : readsBounds min max = true := by simpa [flaw?] using hflaw
    obtain ⟨low, high, hbounds⟩ := bounds_of_readsBounds hreads
    refine Script.Refused.bind ?_ _
    rw [Rankings.byScore, hbounds]
    exact (h.requireKind.bind _).bind _
  | zremRangeByScore key min max version terms =>
    cases htyped
    have hversion : version ≠ 0 := fun hzero => by simp [flaw?, hzero] at hflaw
    have hreads : readsBounds min max = true := by simpa [flaw?, hversion] using hflaw
    obtain ⟨low, high, hbounds⟩ := bounds_of_readsBounds hreads
    refine Script.Refused.bind ?_ _
    rw [Rankings.dropByScore, requireVersion_of_ne hversion, hbounds]
    exact ((h.checkCurrent hexpected).bind _).bind _
  | _ => cases htyped

end Command

/-! ## Replies -/

/-- Whether data shows nothing of a store, but that every item has the same status. -/
def Data.Only (status : Status) : Data → Prop
  | .nothing => True
  | .item shown => shown = .empty
  | .items shown => ∀ one ∈ shown, one = .empty
  | .statuses reported => ∀ other ∈ reported, other = status
  | .fieldStatuses reported => ∀ entry ∈ reported, entry.2 = status
  | .number value => value = 0
  | .count value => value = 0
  | .fields shown => shown = []
  | .names shown => shown = []
  | .placed shown => shown = []
  | .kind shown => shown = none
  | .version shown => shown = 0
  | .failure _ => False

/-- A refusal tells nothing but its status. -/
theorem Command.only_blank (command : Command) (status : Status) :
    (command.blank status).Only status := by
  cases command <;> simp only [blank, Data.Only] <;> grind

/-- The string that a key shows in a request for several strings. -/
def Store.shown (store : Store) (now : Millis) (key : Bytes) : Item :=
  ((store.live? now key).bind fun slot => slot.string.toOption).getD .empty

theorem Store.HoldsOther.shown_eq (h : store.HoldsOther now key .string) :
    store.shown now key = .empty := by
  obtain ⟨slot, hslot, hkind⟩ := h.live
  rw [Store.shown, hslot, Option.bind_some, Slot.string_of_ne hkind]
  rfl

/-- A request for several strings shows each key by itself. -/
theorem Strings.on_getMany (hopen : store.closed = false) {keys : List Bytes} (hkeys : keys ≠ []) :
    (getMany keys).on now store = (.ok (keys.map (store.shown now)), store) := by
  have hall : (getAll keys).on now store =
      (.ok (keys.map fun key => (store.live? now key).bind fun slot => slot.string.toOption),
        store) := by
    refine Script.on_mapM_eq_map (fun key => ?_) keys
    rw [Script.on_call, Store.perform, Store.view_open hopen]
    cases store.live? now key with
    | none => rfl
    | some slot =>
      obtain ⟨content, version, deadline⟩ := slot
      cases content <;> rfl
  have hsome : (requireSome keys).on now store = (.ok (), store) := by
    rw [on_requireSome, if_neg (by simpa using hkeys)]
  rw [getMany, Script.bind_eq, Script.on_bind_ok hsome, Script.bind_eq, Script.on_bind,
    Script.on_mapRefusal, hall]
  show (Except.ok (List.map _ _), store) = _
  rw [List.map_map]
  rfl

namespace Command

/-- Kinds never mix.  On an open store that holds a value of another kind under its key,
a command that has no flaw and demands no version is refused with `wrongType`, and so is
each of its items; it shows nothing of the store and changes nothing.  Only a request
for several strings is granted, and shows such keys by the marker for "no value". -/
theorem wrongType_of_other (context : Context) (hopen : store.closed = false) :
    (∀ (command : Command) (key : Bytes) (kind : Kind) (slot : Slot),
      command.typed? = some (key, kind) → command.flaw? = none → command.expected? = none →
      store.live? context.now key = some slot → slot.content.kind ≠ kind →
      command.run context store = (⟨.wrongType, command.blank .wrongType⟩, store) ∧
        (command.blank .wrongType).Only .wrongType) ∧
    ∀ keys : List Bytes, keys ≠ [] → ∃ items,
      (mget keys).run context store = (⟨.ok, .items items⟩, store) ∧
      items.length = keys.length ∧
      ∀ pair ∈ keys.zip items, ∀ slot, store.live? context.now pair.1 = some slot →
        slot.content.kind ≠ .string → pair.2 = .empty := by
  constructor
  · intro command key kind slot htyped hflaw hexpected hslot hkind
    refine ⟨?_, command.only_blank _⟩
    obtain ⟨status, rfl, hrefused⟩ :=
      refused_of_other htyped hflaw hexpected ⟨hopen, slot, hslot, hkind⟩
    rw [run_eq, hrefused]
    rfl
  · intro keys hkeys
    refine ⟨keys.map (store.shown context.now), ?_, List.length_map _, ?_⟩
    · rw [run_of_reply (by rfl), Strings.on_getMany hopen hkeys]
    · intro pair hpair slot hslot hkind
      rw [zip_map_self] at hpair
      obtain ⟨key, _, rfl⟩ := List.mem_map.mp hpair
      exact Store.HoldsOther.shown_eq ⟨hopen, slot, hslot, hkind⟩

/-- A string is asked for a range with its ends in the wrong order and given two fields,
and a request for several strings meets a hash. -/
theorem wrongType_of_other_inverted :
    let context : Context := ⟨⟨9000⟩, .absolute⟩
    let store := ((Store.empty.perform 9 (.put [115] ⟨[97], 3⟩ none)).2.perform 9
      (.putField [104] [102] ⟨[98], 4⟩)).2
    let inverted : Command := .zrange [115] 1 0 true false
    let batch : Command := .hmset [115] [([102], ⟨[49], 9⟩), ([103], ⟨[50], 9⟩)] {}
    store.closed = false ∧
      inverted.run context store = (⟨.wrongType, .placed []⟩, store) ∧
      batch.run context store =
        (⟨.wrongType, .fieldStatuses [([102], .wrongType), ([103], .wrongType)]⟩, store) ∧
      ∃ first second,
        (mget [[115], [104]]).run context store = (⟨.ok, .items [first, second]⟩, store) ∧
        second = .empty := by
  intro context store inverted batch
  have hopen : store.closed = false := by decide
  have hstring : store.live? context.now [115] = some ⟨.string ⟨[97], 3⟩, 3, none⟩ := rfl
  have hhash : store.live? context.now [104] =
      some ⟨.hash ((∅ : Fields).insert [102] ⟨[98], 4⟩), 4, none⟩ := rfl
  obtain ⟨hrefused, hmany⟩ := wrongType_of_other context hopen
  obtain ⟨items, hrun, hlength, hshown⟩ := hmany [[115], [104]] (by decide)
  obtain ⟨first, second, rfl⟩ := List.length_eq_two.mp hlength
  refine ⟨hopen, (hrefused inverted _ _ _ rfl rfl rfl hstring (by decide)).1,
    (hrefused batch _ _ _ rfl rfl rfl hstring (by decide)).1, first, second, hrun, ?_⟩
  exact hshown ([104], second) (by simp) _ hhash (by decide)

end Command

end Keyspace
