import Keyspace.Script
import Keyspace.Terms

/-!
# Admission

The checks that come before a command does its work.  They read the record of
the key and refuse in a fixed order: a failing store first, then a version that
the caller did not expect, then a value of the wrong kind, then a missing key,
then a version older than that of the key.
-/

namespace Keyspace

/-- A write must carry a version other than 0. -/
def requireVersion (version : Version) : Script Status Unit :=
  if version = 0 then .refuse .error else .done ()

/-- A batch must name something. -/
def requireSome {α : Type} (batch : List α) : Script Status Unit :=
  if batch.isEmpty then .refuse .wrongArgCount else .done ()

/-- A write must be newer than what it replaces. -/
def requireNewer (stored : Option Version) (version : Version) : Script Status Unit :=
  if stored.any (version ≤ ·) then .refuse .versionMismatch else .done ()

/-- A removal must not be older than what it removes. -/
def requireCurrent (stored version : Version) : Script Status Unit :=
  if version < stored then .refuse .versionMismatch else .done ()

/-- The record of a key that is as the caller expects. -/
def checkTerms (key : Bytes) (terms : Terms) : Script Status (Option Record) := do
  let found ← query (.record key)
  if terms.permit found then return found else .refuse .versionMismatch

/-- As `checkTerms`, for a key that is absent or of the given kind. -/
def checkKind (key : Bytes) (terms : Terms) (kind : Kind) :
    Script Status (Option Record) := do
  let found ← checkTerms key terms
  if found.all (·.kind = kind) then return found else .refuse .wrongType

/-- As `checkKind`, for a key that exists. -/
def checkExisting (key : Bytes) (terms : Terms) (kind : Kind) :
    Script Status Record := do
  match ← checkKind key terms kind with
  | none => .refuse .notExist
  | some record => return record

/-- As `checkExisting`, for a version that is not older than the key. -/
def checkCurrent (key : Bytes) (terms : Terms) (kind : Kind) (version : Version) :
    Script Status Record := do
  let record ← checkExisting key terms kind
  requireCurrent record.version version
  return record

/-- The record of an existing key. -/
def requireRecord (key : Bytes) : Script Status Record := do
  match ← query (.record key) with
  | none => .refuse .notExist
  | some record => return record

/-- The record of an existing key of the given kind. -/
def requireKind (key : Bytes) (kind : Kind) : Script Status Record := do
  let record ← requireRecord key
  if record.kind = kind then return record else .refuse .wrongType

/-- Asks for a count; a count of 0 means that the key does not exist. -/
def countOf (count : Script Status Nat) : Script Status Nat := do
  let n ← count
  if n = 0 then .refuse .notExist else return n

end Keyspace
