import Keyspace.Admission
import Keyspace.Expiry

/-!
# Keys

Commands on keys of any kind: deletion, deadlines, questions, renaming and the
two administrative ones.  Renaming copies the source under the new name first
and deletes the source last, so that a store that fails midway never loses it.
-/

namespace Keyspace.Keys

/-! ## Deletion -/

/-- What a deletion finds out about one of its keys. -/
structure Verdict where
  status : Status
  /-- Whether the slot is to be removed.  That includes the slot of an absent
  key, which may hold an expired leftover. -/
  doomed : Bool
  deriving DecidableEq, Repr

/-- The verdict on a key with the given record, to be deleted at `version`.
With an expectation the versions must be equal; without one, version 0 always
does and another one must not be older than the key. -/
def verdict (version : Version) (terms : Terms) : Option Record → Verdict
  | none => ⟨.notExist, true⟩
  | some record =>
    if terms.expected.isSome ∧ record.version ≠ version then ⟨.versionMismatch, false⟩
    else if version ≠ 0 ∧ version < record.version then ⟨.versionMismatch, false⟩
    else ⟨.ok, true⟩

/-- Finds the verdict on a key; a failure is a verdict, too. -/
def judge (key : Bytes) (version : Version) (terms : Terms) : Script Status Verdict := do
  match ← (query (.record key)).outcome with
  | .ok found => return verdict version terms found
  | .error status => return ⟨status, false⟩

/-- Deletes keys, each at its own version.  When the store fails midway no key
counts as deleted. -/
def delete (keys : List Bytes) (versions : List Version) (terms : Terms) :
    Script Status (List Status) :=
  if keys.length ≠ versions.length then .refuse .error
  else do
    let verdicts ← (keys.zip versions).mapM fun (key, version) => judge key version terms
    let statuses := verdicts.map Verdict.status
    let doomed := (keys.zip verdicts).filter (·.2.doomed)
    match ← (deleteAll (doomed.map Prod.fst)).outcome with
    | .ok _ => return statuses
    | .error failure => return statuses.map (.spoiledBy failure)

/-! ## Deadlines -/

/-- The record of an existing key that `version` may change; version 0 may
change any. -/
def requireChangeable (key : Bytes) (version : Version) : Script Status Record := do
  let record ← requireRecord key
  if version ≠ 0 ∧ version < record.version then .refuse .versionMismatch
  else return record

/-- Replaces the deadline of an existing key. -/
def reschedule (key : Bytes) (deadline : Option Millis) (version : Version) :
    Script Status Unit := do
  if ← query (.setDeadline key deadline version) then return else .refuse .notExist

/-- Gives a key a time to live. -/
def expire (context : Context) (key : Bytes) (ttl : Nat) (unit : TtlUnit)
    (version : Version) : Script Status Unit := do
  discard (requireChangeable key version)
  reschedule key (some (context.deadline ttl unit version)) version

/-- Takes the deadline of a key away. -/
def persist (key : Bytes) (version : Version) : Script Status Unit := do
  let record ← requireChangeable key version
  if record.deadline.isNone then .refuse .noExpireSet
  else reschedule key none version

/-- The milliseconds that a key has left. -/
def millisLeft (context : Context) (key : Bytes) : Script Status Millis := do
  let record ← requireRecord key
  let deadline ← Script.ofOption .noExpireSet record.deadline
  return context.clock.remaining deadline

/-- The seconds that a key has left, rounded up. -/
def secondsLeft (context : Context) (key : Bytes) : Script Status Nat := do
  return ((← millisLeft context key) + 999) / 1000

/-! ## Questions -/

/-- Succeeds if the key exists. -/
def present (key : Bytes) : Script Status Unit :=
  discard (requireRecord key)

/-- The kind of value that a key holds. -/
def kind (key : Bytes) : Script Status Kind := do
  return (← requireRecord key).kind

/-- The version of a key, which is the one that a caller may expect. -/
def version (key : Bytes) : Script Status Version := do
  return (← requireRecord key).version

/-! ## Renaming -/

/-- Copies the value of `source` under `target` in place of what is there, with
the deadline of the source. -/
def copy (source target : Bytes) (record : Record) (version : Version) :
    Script Failure Unit := do
  match record.kind with
  | .string =>
    let item ← ask (.get source)
    ask (.put target ⟨(item.getD .empty).value, version⟩ record.deadline)
  | .hash =>
    let fields ← ask (.fields source)
    discard (ask (.delete target))
    fields.forM fun (field, item) => discard (ask (.putField target field item))
    discard (ask (.setDeadline target record.deadline version))
  | .set =>
    let members ← ask (.members source)
    discard (ask (.delete target))
    members.forM fun (member, version) => discard (ask (.addMember target member version))
    discard (ask (.setDeadline target record.deadline version))
  | .zset =>
    let size ← ask (.rankedCount source)
    let entries ←
      if size = 0 then pure [] else ask (.byRank source 0 (.ofNat (size - 1)))
    discard (ask (.delete target))
    entries.forM fun entry =>
      discard (ask (.putScore target entry.member entry.score entry.version))
    discard (ask (.setDeadline target record.deadline version))

/-- Copies, then deletes the source. -/
def move (source target : Bytes) (record : Record) (version : Version) :
    Script Failure Unit := do
  copy source target record version
  discard (ask (.delete source))

/-- Moves a key to another name.  What the name held before is replaced if
`version` is newer and the name need not be free. -/
def rename (source target : Bytes) (version : Version) (onlyIfAbsent : Bool) :
    Script Status Unit := do
  requireVersion version
  let record ← requireRecord source
  if source = target then return
  else
    let found ← query (.record target)
    match WriteMode.verdict { onlyIfAbsent } (found.map Record.version) version with
    | .ok => (move source target record version).mapRefusal Failure.status
    | status => .refuse status

/-! ## Administration -/

/-- Closes the store. -/
def finalize : Script Status Unit :=
  query .close

/-- The keys whose deadlines have passed at `instant`, at most `limit`. -/
def expired (instant : Millis) (limit : Nat) : Script Failure (List Bytes) :=
  ask (.expired instant limit)

end Keyspace.Keys
