import Keyspace.Console.Arguments
import Keyspace.Console.Request
import Keyspace.Reaper
import Keyspace.Text.Utf8

/-!
# Console sessions

A session opens a store and answers the lines of its input one by one.  It ends
with the input, or at the first line that is not UTF-8.
-/

namespace Keyspace

/-- The state of a console: its store and the version it minted last. -/
structure Console where
  store : Store
  minted : Version

namespace Console

/-- A console on an empty store. -/
def fresh : Console := ⟨.empty, 0⟩

/-- Carries out a request. -/
def answer (clock : Clock) (console : Console) (request : Request) : String × Console :=
  let version := if request.mints then clock.mint console.minted else console.minted
  let context : Context := ⟨clock, .absolute⟩
  let (reply, store) := (request.command version).run context console.store
  (request.render reply, ⟨store, version⟩)

/-- Answers a line. -/
def execute (clock : Clock) (console : Console) (line : String) : String × Console :=
  match Text.words line with
  | [] => ("", console)
  | name :: arguments =>
    match Request.ofWords (Text.lower name) arguments with
    | .error status => (status.text, console)
    | .ok request => console.answer clock request

/-- Takes expired keys out of the store. -/
def reap (clock : Clock) (limit : Nat) (console : Console) : Console :=
  let (minted, store) := Reaper.drain clock limit console.minted console.store
  ⟨store, minted⟩

/-! ## What is shown -/

/-- The version of the program. -/
def programVersion : String := "0.1.0"

/-- The first line of a session. -/
def banner : String :=
  "verkv v" ++ programVersion ++ " - type \x60help\x60 for commands, Ctrl+D to exit"

/-- How the program is used. -/
def help : List String :=
  ["",
    "verkv - A versioned command layer over a multi-type key-value engine",
    "",
    "USAGE:",
    "    verkv [OPTIONS]",
    "",
    "OPTIONS:",
    "    -d, --data-dir <DIR>              Engine data directory (default: ./data)",
    "        --cache-size <BYTES>          Engine cache size (default: 67108864)",
    "        --write-buffer-size <BYTES>   Engine write buffer size (default: 4194304)",
    "    -s, --shards <N>                  Key-lock shard count (default: 64)",
    "    -v, --version                     Print version information",
    "    -h, --help                        Print this help message",
    "",
    "CONSOLE:",
    "    set <key> <value> [seconds]",
    "    get <key>",
    "    del <key> [key ...]",
    "    expire <key> <seconds>",
    "    ttl <key>",
    "    persist <key>",
    "    exists <key>",
    "    type <key>",
    "",
    "Logging is controlled with RUST_LOG (default: info).",
    ""]

/-- The lines that a console shows in answer to a line: the help on request,
nothing for a blank line. -/
def respond (clock : Clock) (console : Console) (line : String) : List String × Console :=
  let line := Text.trim line
  if Text.isWord "help" line then (help, console)
  else if line.isEmpty then ([], console)
  else
    let (text, console) := console.execute clock line
    ([text], console)

/-! ## Whole runs -/

/-- What a run shows and how it exits. -/
structure Outcome where
  exitCode : UInt8 := 0
  out : List String := []
  err : List String := []
  deriving DecidableEq, Repr, Inhabited

namespace Outcome

/-- A run that ends with an error. -/
def failed (out : List String) (reason : String) (causes : List String) : Outcome :=
  let chain := if causes.isEmpty then [] else ["", "Caused by:"] ++ causes.map ("    " ++ ·)
  { exitCode := 1, out, err := ["Error: " ++ reason] ++ chain }

/-- A run whose store cannot be opened. -/
def notOpened (error : OpenError) : Outcome :=
  match error with
  | .io cause => failed [] error.message [cause.message]
  | .config _ => failed [] error.message []

end Outcome

/-- The outcome of a command line that does not ask for a session. -/
def Invocation.outcome? : Invocation → Option Outcome
  | run _ => none
  | help => some { out := Console.help }
  | version => some { out := ["verkv version " ++ programVersion] }
  | unknownArgument argument =>
    some { exitCode := 1, out := Console.help, err := ["Unknown argument: " ++ argument] }
  | missingValue flag =>
    some (.failed [] (flag ++ " requires a value") [])
  | notANumber flag =>
    some (.failed [] (flag ++ " expects a number") [])

/-- Cuts input into lines, each with the line feed that ends it.  `line` holds
the line being read, last byte first. -/
def cutLines (line : Bytes) : Bytes → List Bytes
  | [] => if line.isEmpty then [] else [line.reverse]
  | byte :: rest =>
    if byte = 10 then (byte :: line).reverse :: cutLines [] rest
    else cutLines (byte :: line) rest

/-- A line without its line end, which is a line feed with or without one
carriage return before it.  A carriage return alone ends no line. -/
def withoutLineEnd (line : Bytes) : Bytes :=
  match line.reverse with
  | 10 :: 13 :: start => start.reverse
  | 10 :: start => start.reverse
  | _ => line

/-- Takes in one line of input and shows the answer to it, unless the line is
malformed.  The line end does not belong to the text: a character that it cuts
short is truncated, as it would be at the end of the input. -/
def hear (clock : Clock) (console : Console) (line : Bytes) :
    Except Utf8.Defect (List String × Console) :=
  let line := withoutLineEnd line
  match Utf8.defect? line with
  | some defect => .error defect
  | none => .ok (console.respond clock (line.toText?.getD ""))

/-- Answers lines until the input ends or a line is malformed.  `out` holds what
has been shown, last line first. -/
def converse (clock : Clock) (console : Console) (out : List String) :
    List Bytes → Outcome
  | [] => { out := out.reverse }
  | line :: rest =>
    match console.hear clock line with
    | .error defect => .failed out.reverse defect.message []
    | .ok (shown, console) => converse clock console (shown.reverse ++ out) rest

/-- A run of the program: its arguments, how the attempt to make a directory
ends, and its input. -/
def session (clock : Clock) (arguments : List String)
    (makeDirectory : String → Except DirectoryError Unit) (input : Bytes) : Outcome :=
  match Invocation.ofArguments arguments with
  | .run config =>
    match config.openStore makeDirectory with
    | .error error => .notOpened error
    | .ok store => converse clock ⟨store, 0⟩ [banner] (cutLines [] input)
  | invocation => invocation.outcome?.getD {}

end Console

end Keyspace
