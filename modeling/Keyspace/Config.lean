import Keyspace.Directory
import Keyspace.Expiry
import Keyspace.Status
import Keyspace.Store

/-!
# Configuration

What a store is opened with, how it is checked, and why opening can fail.  The
checks come before the data directory is made.
-/

namespace Keyspace

/-- How the reaper works. -/
structure ReaperConfig where
  /-- The pause after a round that fetched nothing, in microseconds. -/
  idleMicros : Nat := 50000
  /-- The most keys that a round fetches. -/
  batchLimit : Nat := 1000
  deriving DecidableEq, Repr, Inhabited

/-- What a store is opened with. -/
structure Config where
  dataDir : String := "./data"
  cacheSize : Nat := 64 * 1024 * 1024
  writeBufferSize : Nat := 4 * 1024 * 1024
  shardCount : Nat := 64
  mode : ExpiryMode := .absolute
  reaper : ReaperConfig := {}
  deriving DecidableEq, Repr, Inhabited

/-- What is wrong with a configuration. -/
inductive ConfigError where
  | noShards
  | noBatch
  | noPause
  deriving DecidableEq, Repr

/-- What is wrong with a configuration, in words. -/
def ConfigError.message : ConfigError → String
  | .noShards => "shard_count must be at least 1"
  | .noBatch => "reaper batch_limit must be at least 1"
  | .noPause => "reaper idle_interval must be non-zero"

/-- Why a store cannot be opened. -/
inductive OpenError where
  /-- The data directory cannot be made. -/
  | io (error : DirectoryError)
  | config (error : ConfigError)
  deriving DecidableEq, Repr

/-- Why a store cannot be opened, in words. -/
def OpenError.message : OpenError → String
  | .io error => "I/O error: " ++ error.message
  | .config error => "configuration error: " ++ error.message

namespace Config

/-- Finds the first thing that is wrong. -/
def validate (config : Config) : Except ConfigError Unit :=
  if config.shardCount = 0 then .error .noShards
  else if config.reaper.batchLimit = 0 then .error .noBatch
  else if config.reaper.idleMicros = 0 then .error .noPause
  else .ok ()

/-- Opens an empty store, given how the attempt to make a directory ends. -/
def openStore (config : Config)
    (makeDirectory : String → Except DirectoryError Unit) : Except OpenError Store :=
  match config.validate with
  | .error error => .error (.config error)
  | .ok () =>
    match makeDirectory config.dataDir with
    | .error error => .error (.io error)
    | .ok () => .ok .empty

end Config

end Keyspace
