/-!
# Directories

How a directory is made together with the missing ones above it.  The file
system is a parameter, `Directory.Maker`, which makes one directory at a time
and says why it cannot.

A path is tried as it stands first.  Only where something above it is missing
are the directories above it made, from the top down, and the path is then
tried once more.  So a path that ends in `.` needs its directory to be there
already: the directory it names is not one of those above it.
-/

namespace Keyspace

/-- Why a directory cannot be made. -/
inductive DirectoryError where
  /-- A directory above it is missing. -/
  | missing
  /-- There is something of that name. -/
  | occupied
  /-- Another reason, as the system words it. -/
  | refused (reason : String)
  deriving DecidableEq, Repr

/-- Why a directory cannot be made, in words. -/
def DirectoryError.message : DirectoryError → String
  | .missing => "No such file or directory (os error 2)"
  | .occupied => "File exists (os error 17)"
  | .refused reason => reason

namespace Directory

/-! ## Paths -/

/-- Whether a path starts at the root. -/
def isAbsolute (path : String) : Bool :=
  path.toList.head? == some '/'

/-- The names along a path, among them `.` and `..`; slashes only divide them. -/
def names (path : String) : List String :=
  (path.splitOn "/").filter (!·.isEmpty)

/-- The path along some names. -/
def render (absolute : Bool) (names : List String) : String :=
  (if absolute then "/" else "") ++ "/".intercalate names

/-- Drops the names `.` at the end of a path that is given last name first.  At
the start of a path that is not absolute, `.` is kept. -/
def dropDots (absolute : Bool) : List String → List String
  | [] => []
  | name :: above =>
    if name = "." ∧ (absolute ∨ above ≠ []) then dropDots absolute above
    else name :: above

/-- What is left of a path, given last name first, when one or more names are
taken off its end. -/
def shortenings : List String → List (List String)
  | [] => []
  | _ :: above => above :: shortenings above

/-- The paths of the directories above a path, nearest first.  The working
directory, in which a path that is not absolute starts, is not among them. -/
def above (path : String) : List String :=
  let absolute := isAbsolute path
  let paths := shortenings (dropDots absolute (names path).reverse)
  let named := paths.filter fun path =>
    dropDots absolute path = path ∧ (absolute ∨ path ≠ [])
  named.map fun path => render absolute path.reverse

/-! ## Making -/

/-- A file system in which directories are made one at a time. -/
structure Maker (m : Type → Type) where
  /-- Makes the directory at a path. -/
  make (path : String) : m (Except DirectoryError Unit)
  /-- Whether there is a directory at a path where there is something. -/
  isDirectory (path : String) : m Bool

variable {m : Type → Type} [Monad m]

/-- Makes one directory, unless it is there. -/
def Maker.ensure (maker : Maker m) (path : String) : m (Except DirectoryError Unit) := do
  match ← maker.make path with
  | .error .occupied =>
    if ← maker.isDirectory path then return .ok () else return .error .occupied
  | result => return result

/-- Makes the first of some directories; the others lie above it, nearest
first, and are made where they are missing. -/
def Maker.ensureFirst (maker : Maker m) : List String → m (Except DirectoryError Unit)
  | [] => return .ok ()
  | path :: above => do
    match ← maker.ensure path with
    | .error .missing =>
      match ← maker.ensureFirst above with
      | .error error => return .error error
      | .ok () => maker.ensure path
    | result => return result

/-- Makes a directory and the missing ones above it.  The empty path stands for
the working directory. -/
def Maker.ensureAll (maker : Maker m) (path : String) : m (Except DirectoryError Unit) :=
  if path.isEmpty then return .ok () else maker.ensureFirst (path :: above path)

end Directory

end Keyspace
