import Keyspace.Config
import Keyspace.Decimal

/-!
# Command line arguments

Arguments are taken one after the other, and the first one that asks for
something else than to run, or that is wrong, decides what happens.
-/

namespace Keyspace.Console

/-- What the command line asks for. -/
inductive Invocation where
  | run (config : Config)
  | help
  | version
  | unknownArgument (argument : String)
  | missingValue (flag : String)
  | notANumber (flag : String)
  deriving DecidableEq, Repr

/-- The number that follows a flag. -/
def number? (text : String) : Option Nat :=
  Decimal.word? (.ofText text)

/-- A part of the configuration that a flag sets to the argument after it. -/
inductive Setting where
  | dataDir
  | cacheSize
  | writeBufferSize
  | shardCount
  deriving DecidableEq, Repr

namespace Setting

/-- The setting that a flag stands for, if it stands for one. -/
def ofFlag? : String → Option Setting
  | "--data-dir" | "-d" => some dataDir
  | "--cache-size" => some cacheSize
  | "--write-buffer-size" => some writeBufferSize
  | "--shards" | "-s" => some shardCount
  | _ => none

/-- Takes a value into a configuration; every setting but the data directory is
a number. -/
def assign? (config : Config) (value : String) : Setting → Option Config
  | dataDir => some { config with dataDir := value }
  | cacheSize => (number? value).map fun size => { config with cacheSize := size }
  | writeBufferSize => (number? value).map fun size => { config with writeBufferSize := size }
  | shardCount => (number? value).map fun count => { config with shardCount := count }

end Setting

/-- Reads arguments on top of a configuration. -/
def Invocation.read (config : Config) : List String → Invocation
  | [] => .run config
  | flag :: rest =>
    match Setting.ofFlag? flag, rest with
    | some _, [] => .missingValue flag
    | some setting, value :: rest =>
      match setting.assign? config value with
      | none => .notANumber flag
      | some config => read config rest
    | none, _ =>
      match flag with
      | "--help" | "-h" => .help
      | "--version" | "-v" => .version
      | _ => .unknownArgument flag

/-- What a command line asks for. -/
def Invocation.ofArguments (arguments : List String) : Invocation :=
  .read {} arguments

end Keyspace.Console
