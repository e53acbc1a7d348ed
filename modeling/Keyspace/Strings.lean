import Keyspace.Admission
import Keyspace.Arithmetic
import Keyspace.Decimal
import Keyspace.SetOptions

/-!
# Strings

A write to a string must be newer than the key, whatever the key holds; it
replaces the value, the version and the deadline.  A counter is a string that
holds a decimal numeral, and counting keeps the deadline.  A batch of writes is
planned item by item, as if the items before had been written, and then written
in one go.
-/

namespace Keyspace.Strings

/-- Writes a string at a version that has been found valid. -/
def store (key : Bytes) (item : Item) (terms : Terms) (mode : WriteMode) :
    Script Status Unit := do
  let found ← checkTerms key terms
  match mode.verdict (found.map Record.version) item.version with
  | .ok => query (.put key item (mode.deadline terms))
  | status => .refuse status

/-- Writes a string. -/
def set (key : Bytes) (item : Item) (terms : Terms) (mode : WriteMode) :
    Script Status Unit := do
  requireVersion item.version
  store key item terms mode

/-- Writes a string that lives for a number of seconds. -/
def setFor (context : Context) (key : Bytes) (item : Item) (seconds : Nat) :
    Script Status Unit := do
  requireVersion item.version
  let expireTime := context.deadline seconds .seconds item.version
  store key item { expireTime } { appliesDeadline := true }

/-- Writes a string with options given as words.  Words that are no options are
refused before the store is called. -/
def setWith (context : Context) (key : Bytes) (item : Item) (terms : Terms)
    (tokens : List String) : Script Status Unit := do
  requireVersion item.version
  match SetOptions.ofTokens? tokens with
  | none => .refuse .wrongArgCount
  | some options =>
    let expireTime := match options.ttl with
      | none => 0
      | some (ttl, unit) => context.deadline ttl unit item.version
    if options.presence = .present then
      discard (requireRecord key)
    store key item { terms with expireTime }
      { onlyIfAbsent := options.presence = .absent, appliesDeadline := true }

/-- Reads a string. -/
def get (key : Bytes) : Script Status Item := do
  Script.ofOption .notExist (← query (.get key))

/-- Writes a string and answers with the one it replaces, or with the empty
marker. -/
def exchange (key : Bytes) (item : Item) (terms : Terms) : Script Status Item := do
  requireVersion item.version
  let old ← query (.get key)
  store key item terms {}
  return old.getD .empty

/-- Adds to a counter; an absent one counts as 0. -/
def add (key : Bytes) (version : Version) (delta : Int64) (terms : Terms) :
    Script Status Int64 := do
  requireVersion version
  let found ← checkKind key terms .string
  requireNewer (found.map Record.version) version
  let current ← match ← query (.get key) with
    | none => pure 0
    | some item => Script.ofOption .notANumber (Decimal.int64? item.value)
  let next ← Script.ofOption .overflow (addWithin current delta)
  query (.put key ⟨Decimal.ofInt next.toInt, version⟩ (found.bind Record.deadline))
  return next

/-- Subtracts from a counter.  An amount that cannot be negated is refused
before anything else. -/
def subtract (key : Bytes) (version : Version) (delta : Int64) (terms : Terms) :
    Script Status Int64 := do
  let delta ← Script.ofOption .overflow (negWithin delta)
  add key version delta terms

/-! ## Batches -/

/-- The verdict on one item of a batch.  `pending` holds the versions that the
items before it are going to write. -/
def plan (terms : Terms) (mode : WriteMode) (pending : Std.ExtTreeMap Bytes Version)
    (key : Bytes) (item : Item) : Script Status Status :=
  if item.version = 0 then return .error
  else match pending[key]? with
    | some version => return mode.verdict (some version) item.version
    | none => Script.settle do
      let found ← checkTerms key terms
      return mode.verdict (found.map Record.version) item.version

/-- The verdicts on the items of a batch, in order. -/
def planAll (terms : Terms) (mode : WriteMode) :
    Std.ExtTreeMap Bytes Version → List (Bytes × Item) → Script Status (List Status)
  | _, [] => return []
  | pending, (key, item) :: rest => do
    let status ← plan terms mode pending key item
    let pending := if status = .ok then pending.insert key item.version else pending
    return status :: (← planAll terms mode pending rest)

/-- The writes of a batch: the items with verdict `ok`. -/
def writes (deadline : Option Millis) (items : List (Bytes × Item))
    (statuses : List Status) : List Write :=
  (items.zip statuses).filterMap fun ((key, item), status) =>
    if status = .ok then some ⟨key, item, deadline⟩ else none

/-- Writes several strings, each checked as a single write would be.  When the
store fails midway no item counts as written. -/
def setMany (items : List (Bytes × Item)) (terms : Terms) (mode : WriteMode) :
    Script Status (List Status) := do
  requireSome items
  let statuses ← planAll terms mode ∅ items
  match ← (putAll (writes (mode.deadline terms) items statuses)).outcome with
  | .ok () => return statuses
  | .error failure => return statuses.map (.spoiledBy failure)

/-- Reads several strings; a key that is absent or holds another kind gives the
empty marker. -/
def getMany (keys : List Bytes) : Script Status (List Item) := do
  requireSome keys
  let found ← (getAll keys).mapRefusal Failure.status
  return found.map (·.getD .empty)

end Keyspace.Strings
