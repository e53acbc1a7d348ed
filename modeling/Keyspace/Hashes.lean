import Keyspace.Strings

/-!
# Hashes

A write to a field must be newer than the field; a removal must not be older.
The version that a caller may expect is that of the key, which is at least that
of each of its fields.  A batch visits its fields in the order given and gives
each of them a status of its own.
-/

namespace Keyspace.Hashes

/-- Writes a field of a key that has been found to hold a hash or nothing. -/
def store (key field : Bytes) (item : Item) : Script Status Unit := do
  let stored ← query (.field key field)
  requireNewer (stored.map Item.version) item.version
  discard (query (.putField key field item))

/-- Writes a field. -/
def put (key field : Bytes) (item : Item) (terms : Terms) : Script Status Unit := do
  requireVersion item.version
  discard (checkKind key terms .hash)
  store key field item

/-- Reads a field. -/
def get (key field : Bytes) : Script Status Item := do
  Script.ofOption .notExist (← query (.field key field))

/-- Writes one field of a batch. -/
def putOne (key field : Bytes) (item : Item) : Script Status Status :=
  Script.settle do
    requireVersion item.version
    store key field item
    return .ok

/-- Writes several fields. -/
def putMany (key : Bytes) (values : List (Bytes × Item)) (terms : Terms) :
    Script Status (List (Bytes × Status)) := do
  requireSome values
  discard (checkKind key terms .hash)
  values.mapM fun (field, item) => do
    return (field, ← putOne key field item)

/-- Reads several fields; a missing one gives the empty marker. -/
def getMany (key : Bytes) (fields : List Bytes) : Script Status (List Item) :=
  fields.mapM fun field => do
    return (← query (.field key field)).getD .empty

/-- Removes one field of a batch. -/
def dropOne (key field : Bytes) (version : Version) : Script Status Status :=
  Script.settle do
    requireVersion version
    let stored ← get key field
    requireCurrent stored.version version
    discard (query (.dropField key field version))
    return .ok

/-- Removes several fields. -/
def dropMany (key : Bytes) (fields : List (Bytes × Version)) (terms : Terms) :
    Script Status (List (Bytes × Status)) := do
  requireSome fields
  discard (checkExisting key terms .hash)
  fields.mapM fun (field, version) => do
    return (field, ← dropOne key field version)

/-- Adds to a field that counts; a missing one counts as 0. -/
def add (key field : Bytes) (version : Version) (delta : Int64) (terms : Terms) :
    Script Status Int64 := do
  requireVersion version
  discard (checkKind key terms .hash)
  let stored ← query (.field key field)
  requireNewer (stored.map Item.version) version
  let current ← match stored with
    | none => pure 0
    | some item => Script.ofOption .notANumber (Decimal.int64? item.value)
  let next ← Script.ofOption .overflow (addWithin current delta)
  discard (query (.putField key field ⟨Decimal.ofInt next.toInt, version⟩))
  return next

/-- The number of fields. -/
def size (key : Bytes) : Script Status Nat :=
  countOf (query (.fieldCount key))

/-- All fields in order. -/
def toList (key : Bytes) : Script Status (List (Bytes × Item)) := do
  let fields ← query (.fields key)
  if fields.isEmpty then .refuse .notExist else return fields

end Keyspace.Hashes
