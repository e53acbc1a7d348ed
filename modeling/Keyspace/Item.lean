import Keyspace.Bytes
import Keyspace.Version

/-!
# Items, kinds and records

An item is a value together with the version that wrote it.  The record of a
key is what a command has to know before it touches the key: the kind of value
it holds, its version and its deadline.
-/

namespace Keyspace

/-- A value and the version that wrote it. -/
structure Item where
  value : Bytes
  version : Version
  deriving DecidableEq, Repr

namespace Item

/-- The marker that stands for "no value". -/
def empty : Item := ⟨[], 0⟩

instance : Inhabited Item := ⟨empty⟩

/-- Whether an item is the empty marker. -/
def isEmpty (item : Item) : Bool :=
  item.value.isEmpty && item.version == 0

end Item

/-- The kind of value that a key holds. -/
inductive Kind where
  | string
  | hash
  | set
  | zset
  deriving DecidableEq, Repr

/-- The word that stands for a kind. -/
def Kind.name : Kind → String
  | .string => "string"
  | .hash => "hash"
  | .set => "set"
  | .zset => "zset"

/-- What is known of a live key without reading its value. -/
structure Record where
  kind : Kind
  /-- The highest version written to any part of the key. -/
  version : Version
  deadline : Option Millis
  deriving DecidableEq, Repr

end Keyspace
