import ProviderMigration.Migration.Attempt

/-!
# Walking a directory

A walk lists the regular files below a directory that no pattern leaves out, in
the order of their names. A walk that starts at a file lists that file.
-/

namespace ProviderMigration.Migration

open Storage

/-- A file of the directory that is migrated. -/
structure Entry where
  /-- The path of the file, which begins as the path of the directory does. -/
  path : Pathname
  /-- The names that lead from the directory to the file. -/
  names : List String
  deriving DecidableEq, Repr

namespace Entry

/-- The extension of the file; a file without one counts as having an empty one. -/
def extension (entry : Entry) : String :=
  ((entry.names.getLast?).bind extensionOf?).getD ""

/-- The file of the directory at `dir` with the given names. -/
def below (dir : Pathname) (names : List String) : Entry :=
  ⟨dir.descend names, names⟩

end Entry

/-- The patterns with the given texts. They are read one by one before it is seen
whether they can be used. -/
def readPatterns (texts : List String) : Except Failure (List Ignore.Pattern) := do
  let patterns ← texts.mapM fun text =>
    (Ignore.Pattern.ofText text).mapError (.invalidPattern text)
  match Ignore.ExpressionError.find? (patterns.map (·.glob)) with
  | some error => .error (.unusablePatterns error)
  | none => return patterns

/-- The names that patterns see in front of those below a directory. A `./` in
front of the directory is passed over, but behind a second one the rest of its path
stays in sight. -/
def namesInSight (dir : Pathname) : List String :=
  match dir.text.toList with
  | '.' :: '/' :: '.' :: '/' :: rest =>
      let parts := Pathname.parts ⟨String.ofList rest⟩
      if parts.getLast? == some "" then parts.dropLast else parts
  | _ => []

/-- The files that no pattern leaves out, in the order of their names. -/
def selectFiles (patterns : List Ignore.Pattern) (outer : List String)
    (files : List (List String)) : List (List String) :=
  (files.filter fun names => !patterns.any (·.excludes outer names)).mergeSort
    fun first second => compare first second != .gt

/-- Whether a path stands for the standard input when it is walked. That is the path `-`,
however many slashes and dots follow. -/
def isStandardInput (dir : Pathname) : Bool :=
  !dir.isAbsolute && dir.steps.head? = some "-" && dir.names.length = 1

variable {m : Type → Type} [Monad m] [Host m]

/-- The files of a walk. The standard input holds no files. -/
def collectFiles (dir : Pathname) (ignoredPaths : List String) : Attempt m (List Entry) := do
  let patterns ← ExceptT.mk (pure (readPatterns ignoredPaths))
  if isStandardInput dir then return []
  match ← attempt (.unwalkable dir) (Host.kind dir) with
  | .special => return []
  | .file => return [⟨dir, []⟩]
  | .directory =>
      let files ← attempt (.unwalkable dir) (Host.filesBelow dir)
      return (selectFiles patterns (namesInSight dir) files).map (Entry.below dir)

end ProviderMigration.Migration
