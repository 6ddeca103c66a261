import ProviderMigration.Storage.OsError
import ProviderMigration.Storage.Pathname

/-!
# Hosts

A host is where a migration runs: it has files, two streams to write lines to,
and a place for settings. The migration is written against this interface, so
that it runs on a computer and on a model of one alike.
-/

namespace ProviderMigration.Storage

/-- What a path leads to. -/
inductive Kind where
  | file
  | directory
  /-- Neither a regular file nor a directory. -/
  | special
  deriving DecidableEq, Repr

/-- The operations of a host. Relative paths are read from the current
directory, and links are followed unless stated otherwise. -/
class Host (m : Type → Type) where
  /-- The current directory. -/
  currentDirectory : m Pathname
  /-- The directory under which programs keep their settings. -/
  settingsHome : m Pathname
  /-- Whether styles are shown in what is written. -/
  showsStyles : m Bool
  /-- What a path leads to. -/
  kind : Pathname → m (Except OsError Kind)
  /-- The number of bytes of a file. -/
  size : Pathname → m (Except OsError Nat)
  /-- The path of the same thing that is absolute and free of links. -/
  canonicalize : Pathname → m (Except OsError Pathname)
  /-- Whether a directory has an entry. -/
  hasEntry : Pathname → m (Except OsError Bool)
  /-- The regular files below a directory, by the names that lead to them. Links
  below the directory are neither followed nor listed. -/
  filesBelow : Pathname → m (Except OsError (List (List String)))
  /-- The bytes of a file. -/
  read : Pathname → m (Except OsError ByteArray)
  /-- Gives a file new content. A file that does not exist yet is created. -/
  write : Pathname → ByteArray → m (Except OsError Unit)
  /-- Gives an existing file new content and keeps its mode. -/
  replace : Pathname → ByteArray → m (Except OsError Unit)
  /-- Makes the second path a copy of the file at the first one, mode included,
  and answers the number of bytes copied. -/
  copy : Pathname → Pathname → m (Except OsError Nat)
  /-- Creates one directory. -/
  createDirectory : Pathname → m (Except OsError Unit)
  /-- Writes a line to the output. -/
  say : String → m Unit
  /-- Writes a line to the error output. -/
  warn : String → m Unit

/-- The text that the bytes of a file stand for in UTF-8. -/
def textOf (data : ByteArray) : Except OsError (List Char) :=
  match String.fromUTF8? data with
  | some text => .ok text.toList
  | none => .error .invalidText

/-- The bytes of a file with the given text. -/
def bytesOf (text : List Char) : ByteArray := (String.ofList text).toUTF8

/-- The bytes of a text are read as the text. -/
theorem textOf_bytesOf (text : List Char) : textOf (bytesOf text) = .ok text := by
  have valid : String.fromUTF8? (String.ofList text).toUTF8 = some (String.ofList text) := by
    rw [String.fromUTF8?]
    split
    next => rfl
    next invalid => exact absurd (String.ofList text).isValidUTF8 (by simpa using invalid)
  rw [textOf, bytesOf, valid]
  exact congrArg Except.ok String.toList_ofList

/-- Only the bytes of a text are read as the text. -/
theorem textOf_eq_ok_iff {data : ByteArray} {text : List Char} :
    textOf data = .ok text ↔ data = bytesOf text := by
  constructor
  · intro read
    rw [textOf, String.fromUTF8?] at read
    split at read
    next found valid =>
      split at valid
      next =>
        obtain rfl := Option.some.inj valid
        obtain rfl := Except.ok.inj read
        rw [bytesOf, String.ofList_toList]
        rfl
      next => contradiction
    next => contradiction
  · rintro rfl
    exact textOf_bytesOf text

namespace Host

variable {m : Type → Type} [Monad m] [Host m]

/-- Whether a path leads to something of the given kind. -/
def leadsTo (path : Pathname) (kind : Kind) : m Bool := do
  match ← Host.kind path with
  | .ok found => return found == kind
  | .error _ => return false

/-- The text of a file. -/
def readText (path : Pathname) : m (Except OsError (List Char)) := do
  return (← Host.read path) >>= textOf

/-- Creates one directory, if there is none yet. -/
def ensureDirectory (path : Pathname) : m (Except OsError Unit) := do
  match ← Host.createDirectory path with
  | .ok () => return .ok ()
  | .error error => return if ← leadsTo path .directory then .ok () else .error error

/-- Creates the directory at a path. When it turns out that a directory on the way to it is
missing, `outer` creates those first. -/
def ensureBehind (outer : m (Except OsError Unit)) (path : Pathname) :
    m (Except OsError Unit) := do
  match ← ensureDirectory path with
  | .error .notFound =>
      match ← outer with
      | .ok () => ensureDirectory path
      | .error error => return .error error
  | answer => return answer

/-- Creates the directory at a path. The directories that lead to it are created
only when it turns out that one of them is missing, so an error is that of the
deepest directory that can be tried. -/
def createDirectories (path : Pathname) : m (Except OsError Unit) :=
  if path.text.isEmpty then return .ok ()
  else ensureBehind (outward path.names.reverse.tail) path
where
  /-- Creates the directory with the reversed names. -/
  outward : List String → m (Except OsError Unit)
    | [] => return .ok ()
    | name :: outer =>
        ensureBehind (outward outer) (path.withNames (name :: outer).reverse)

end Host

end ProviderMigration.Storage
