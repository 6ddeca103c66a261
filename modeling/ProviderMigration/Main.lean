import ProviderMigration.CommandLine.Program

/-!
# The executable

The computer that the program is started on is the host of its migration. The
modes of files cannot be read here: a file that is given new content is written in
place, which keeps its mode, and a copy has the mode of a new file.
-/

namespace ProviderMigration.Main

open Storage

/-- The number of an error, which some operations of the system give with a minus
sign. -/
def errorNumber (code : UInt32) : Nat :=
  code.toInt32.toInt.natAbs

/-- The number and the text that the system gives an error. -/
def describe : IO.Error → Option (Nat × String)
  | .alreadyExists _ code details | .inappropriateType _ code details
  | .interrupted _ code details | .invalidArgument _ code details
  | .noFileOrDirectory _ code details | .noSuchThing _ code details
  | .permissionDenied _ code details | .resourceExhausted _ code details
  | .otherError code details | .resourceBusy code details
  | .resourceVanished code details | .unsupportedOperation code details
  | .hardwareFault code details | .unsatisfiedConstraints code details
  | .illegalOperation code details | .protocolError code details
  | .timeExpired code details => some (errorNumber code, details)
  | .unexpectedEof | .userError _ => none

/-- An error of the system. -/
def toOsError (error : IO.Error) : OsError :=
  match describe error with
  | some (2, _) => .notFound
  | some (17, _) => .alreadyExists
  | some (20, _) => .notADirectory
  | some (21, _) => .isADirectory
  | some (36, _) => .nameTooLong
  | some (40, _) => .tooManyLinks
  | some (number, details) => .other s!"{details} (os error {number})"
  | none => .other (toString error)

/-- What an action answers, with its error as an answer. -/
def settle {α : Type} (action : IO α) : IO (Except OsError α) := do
  match ← action.toBaseIO with
  | .ok answer => return .ok answer
  | .error error => return .error (toOsError error)

/-- What there is at the end of a path that is free of links. -/
def kindOf : IO.FS.FileType → Kind
  | .file => .file
  | .dir => .directory
  | _ => .special

/-- The regular files below a directory, by the names that lead to them. -/
partial def filesBelow (directory : String) : IO (List (List String)) := do
  let mut files := []
  for entry in ← (← IO.FS.realPath directory).readDir do
    match (← entry.path.symlinkMetadata).type with
    | .file => files := [entry.fileName] :: files
    | .dir =>
        files := (← filesBelow entry.path.toString).map (entry.fileName :: ·) ++ files
    | _ => continue
  return files

/-- Makes the second path a copy of the file at the first one. Both are opened
before anything is read, so a file is not its own copy. -/
def copy (source destination : String) : IO Nat := do
  let input ← IO.FS.Handle.mk source .read
  let output ← IO.FS.Handle.mk destination .write
  let data ← input.readBinToEnd
  output.write data
  return data.size

/-- Whether a variable of the environment is set to something else than `off`. -/
def isSwitchedOn (name off : String) : IO Bool := do
  return (← IO.getEnv name).any (· ≠ off)

/-- Whether the output is a terminal that shows styles. -/
def isStyledTerminal : IO Bool := do
  let plain := (← IO.getEnv "NO_COLOR").isSome || (← IO.getEnv "CLICOLOR") == some "0"
  return (← (← IO.getStdout).isTty) && (← isSwitchedOn "TERM" "dumb") && !plain

/-- The host that the program is started on. -/
instance : Host IO where
  currentDirectory := return ⟨(← IO.currentDir).toString⟩
  settingsHome := do
    match ← IO.getEnv "XDG_CONFIG_HOME" with
    | some home =>
        if (Pathname.mk home).isAbsolute then return ⟨home⟩ else userHome
    | none => userHome
  showsStyles := return (← isStyledTerminal) || (← isSwitchedOn "CLICOLOR_FORCE" "0")
  kind path := settle do
    return kindOf (← (← IO.FS.realPath path.text).metadata).type
  size path := settle do
    return (← (← IO.FS.realPath path.text).metadata).byteSize.toNat
  canonicalize path := settle do return ⟨(← IO.FS.realPath path.text).toString⟩
  hasEntry path := settle do
    return !(← (← IO.FS.realPath path.text).readDir).isEmpty
  filesBelow path := settle (filesBelow path.text)
  read path := settle (IO.FS.readBinFile path.text)
  write path data := settle (IO.FS.writeBinFile path.text data)
  replace path data := settle (IO.FS.writeBinFile path.text data)
  copy source destination := settle (copy source.text destination.text)
  createDirectory path := settle (IO.FS.createDir path.text)
  say line := IO.println line
  warn line := IO.eprintln line
where
  /-- The directory for settings below the home of the user. -/
  userHome : IO Pathname := do
    return Pathname.join ⟨(← IO.getEnv "HOME").getD "/"⟩ ⟨".config"⟩

end ProviderMigration.Main

def main (arguments : List String) : IO UInt32 := do
  return (← ProviderMigration.CommandLine.run arguments).code
