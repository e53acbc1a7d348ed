import Keyspace.Command
import Keyspace.Text.Word

/-!
# Requests

A console line is a command name in any case and its arguments, separated by
blanks.  A line that asks for nothing known, or with the wrong number of
arguments, is refused with `wrongArgCount`, and a number that is none with
`notANumber`.  Writes are made at a version minted for them, so that a console
never has to think of versions.
-/

namespace Keyspace.Console

/-- What a console line asks for. -/
inductive Request where
  | set (key value : Bytes)
  | setFor (key value : Bytes) (seconds : Nat)
  | get (key : Bytes)
  | del (keys : List Bytes)
  | expire (key : Bytes) (seconds : Nat)
  | ttl (key : Bytes)
  | persist (key : Bytes)
  | keyExists (key : Bytes)
  | keyType (key : Bytes)
  deriving DecidableEq, Repr

namespace Request

/-- The number of seconds that an argument gives. -/
def seconds (argument : String) : Except Status Nat :=
  match Decimal.word? (.ofText argument) with
  | none => .error .notANumber
  | some seconds => .ok seconds

/-- What a command name, in lower case, and its arguments ask for. -/
def ofWords (name : String) (arguments : List String) : Except Status Request :=
  match name, arguments with
  | "set", [key, value] => .ok (.set (.ofText key) (.ofText value))
  | "set", [key, value, amount] => do
    return .setFor (.ofText key) (.ofText value) (← seconds amount)
  | "get", [key] => .ok (.get (.ofText key))
  | "del", key :: keys => .ok (.del ((key :: keys).map .ofText))
  | "expire", [key, amount] => do return .expire (.ofText key) (← seconds amount)
  | "ttl", [key] => .ok (.ttl (.ofText key))
  | "persist", [key] => .ok (.persist (.ofText key))
  | "exists", [key] => .ok (.keyExists (.ofText key))
  | "type", [key] => .ok (.keyType (.ofText key))
  | _, _ => .error .wrongArgCount

/-- Whether a request is carried out at a version minted for it. -/
def mints : Request → Bool
  | set .. | setFor .. | expire .. | persist _ => true
  | _ => false

/-- The command that carries out a request. -/
def command (version : Version) : Request → Command
  | set key value => .set key ⟨value, version⟩ {} {}
  | setFor key value seconds => .setEx key ⟨value, version⟩ seconds
  | get key => .get key
  | del keys => .del keys (keys.map fun _ => 0) {}
  | expire key seconds => .expire key seconds .seconds version
  | ttl key => .ttl key
  | persist key => .persist key version
  | keyExists key => .keyExists key
  | keyType key => .keyType key

/-- A reply as the console shows it.  Values come from console lines, so their
bytes are those of a text. -/
def render (request : Request) (reply : Reply) : String :=
  match request, reply with
  | get _, ⟨.ok, .item item⟩ =>
    "\"" ++ item.value.toText?.getD "" ++ "\" (version " ++ toString item.version ++ ")"
  | del _, ⟨status, .statuses statuses⟩ =>
    status.text ++ " deleted=" ++ toString (statuses.count .ok)
  | ttl _, ⟨.ok, .count seconds⟩ => toString seconds ++ "s"
  | keyType _, ⟨_, .kind (some kind)⟩ => kind.name
  | _, ⟨status, _⟩ => status.text

end Request

end Keyspace.Console
