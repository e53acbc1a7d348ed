import Keyspace.Console.Session
import Std.Time.DateTime.Timestamp

/-!
# The program

Runs the console on the standard streams: reads the clock and the input, makes
the data directory, and prints what the session shows.
-/

open Keyspace

/-- The reading of the wall clock. -/
def readClock : IO Clock := do
  let now ← Std.Time.Timestamp.now
  return ⟨now.toNanosecondsSinceUnixEpoch.toInt / 1000⟩

/-- A system error in words, with its number. -/
def systemReason : IO.Error → String
  | .permissionDenied _ code details
  | .resourceExhausted _ code details
  | .inappropriateType _ code details
  | .invalidArgument _ code details
  | .unsupportedOperation code details
  | .otherError code details =>
    details ++ " (os error " ++ toString code ++ ")"
  | error => toString error

/-- Why the system does not make a directory. -/
def directoryError : IO.Error → DirectoryError
  | .alreadyExists .. => .occupied
  | .noFileOrDirectory .. => .missing
  | error => .refused (systemReason error)

/-- Makes directories in the file system.  Making a whole path succeeds where
the path is taken only if a directory takes it. -/
def fileSystem : Directory.Maker IO where
  make path := do
    match ← (IO.FS.createDir path).toBaseIO with
    | .ok () => return .ok ()
    | .error error => return .error (directoryError error)
  isDirectory path := do
    match ← (IO.FS.createDirAll path).toBaseIO with
    | .ok () => return true
    | .error _ => return false

/-- Prints the rest of a run and returns its exit code. -/
def finish (outcome : Console.Outcome) : IO UInt32 := do
  outcome.out.forM IO.println
  outcome.err.forM IO.eprintln
  return outcome.exitCode.toUInt32

/-- Reads up to the next line feed; nothing is left when this is empty.  `line`
holds what has been read, last byte first. -/
partial def readLine (input : IO.FS.Stream) (line : Bytes) : IO Bytes := do
  let chunk ← input.read 1
  match chunk.data.toList with
  | [] => return line.reverse
  | byte :: _ => if byte = 10 then return (byte :: line).reverse else readLine input (byte :: line)

/-- Answers lines until the input ends, and reclaims expired keys in between. -/
partial def converse (input : IO.FS.Stream) (config : Config) (console : Console) :
    IO UInt32 := do
  let line ← readLine input []
  if line.isEmpty then return 0
  let clock ← readClock
  let console := console.reap clock config.reaper.batchLimit
  match console.hear clock line with
  | .error defect => finish (.failed [] defect.message [])
  | .ok (shown, console) =>
    shown.forM IO.println
    (← IO.getStdout).flush
    converse input config console

def main (arguments : List String) : IO UInt32 := do
  match Console.Invocation.ofArguments arguments with
  | .run config =>
    match config.validate with
    | .error error => finish (.notOpened (.config error))
    | .ok () =>
      let made ← fileSystem.ensureAll config.dataDir
      match config.openStore fun _ => made with
      | .error error => finish (.notOpened error)
      | .ok store =>
        IO.println Console.banner
        (← IO.getStdout).flush
        converse (← IO.getStdin) config ⟨store, 0⟩
  | invocation => finish (invocation.outcome?.getD {})
