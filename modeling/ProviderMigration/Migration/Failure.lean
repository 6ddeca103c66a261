import ProviderMigration.Block.Balance
import ProviderMigration.Ignore.Expression
import ProviderMigration.Ignore.Pattern
import ProviderMigration.Storage.OsError
import ProviderMigration.Storage.Pathname

/-!
# Failures

Everything that can end a migration, or keep a file from being migrated. A
failure holds what its message tells.
-/

namespace ProviderMigration.Migration

open Storage

inductive Failure where
  /-- A file on the way to the result could not be used. -/
  | os (error : OsError)
  | unreadableSettings (path : Pathname) (error : OsError)
  | invalidSettings (path : Pathname)
  | notADirectory (dir : Pathname)
  | invalidPattern (pattern : String) (error : Ignore.GlobError)
  | unusablePatterns (error : Ignore.ExpressionError)
  | unwalkable (dir : Pathname) (error : OsError)
  | unresolvedDirectory (dir : Pathname) (error : OsError)
  | unresolvedPath (path : Pathname)
  | unnamedBackup (dir : Pathname)
  | backupInsideTarget (backup target : Pathname)
  | backupIsAFile (backup : Pathname)
  | backupNotEmpty (backup : Pathname)
  | uncreatedBackup (dir : Pathname) (error : OsError)
  | uncopied (source destination : Pathname) (error : OsError)
  | tooLarge (size limit : Nat)
  | unreadable (path : Pathname) (error : OsError)
  | malformed (fault : Block.Malformed)
  | unwritten (path : Pathname) (error : OsError)
  /-- A failure of one file that ends the migration. -/
  | file (path : Pathname) (failure : Failure)
  /-- Files that failed without ending the migration. -/
  | incomplete (count : Nat)
  deriving DecidableEq, Repr

namespace Failure

/-- The text of a pattern as it stands in a message. -/
def patternText (pattern : String) : String :=
  "!" ++ String.ofList (Ignore.Pattern.withoutFinalBlanks pattern.toList)

/-- The message of a failure, from the outermost circumstance to the cause. -/
def message : Failure → String
  | .os error => error.message
  | .unreadableSettings path error =>
      s!"Failed to read config file '{path.text}': {error.message}"
  | .invalidSettings path => s!"Failed to parse config file '{path.text}'"
  | .notADirectory dir => s!"Error: The provided path '{dir.text}' is not a directory."
  | .invalidPattern pattern error =>
      s!"Invalid ignored path pattern '{pattern}': " ++
        s!"error parsing glob '{patternText pattern}': {error.message}"
  | .unusablePatterns error => error.message
  | .unwalkable dir error =>
      s!"Failed to walk directory '{dir.text}': {dir.text}: " ++
        s!"IO error for operation on {dir.text}: {error.message}"
  | .unresolvedDirectory dir error =>
      s!"Failed to resolve directory '{dir.text}': {error.message}"
  | .unresolvedPath path =>
      s!"Failed to resolve path '{path.text}'. " ++
        "It might not exist or there's a permission issue."
  | .unnamedBackup dir => s!"Cannot derive a backup directory for '{dir.text}'"
  | .backupInsideTarget backup target =>
      s!"Backup directory '{backup.text}' must not be inside " ++
        s!"the directory being migrated '{target.text}'."
  | .backupIsAFile backup => s!"Backup path '{backup.text}' exists and is not a directory."
  | .backupNotEmpty backup =>
      s!"Backup directory '{backup.text}' already exists and is not empty."
  | .uncreatedBackup dir error =>
      s!"Failed to create backup directory '{dir.text}': {error.message}"
  | .uncopied source destination error =>
      s!"Failed to copy '{source.text}' to '{destination.text}': {error.message}"
  | .tooLarge size limit => s!"File too large to process: {size} bytes, limit is {limit}"
  | .unreadable path error => s!"Failed to read '{path.text}': {error.message}"
  | .malformed fault => fault.message
  | .unwritten path error => s!"Failed to write '{path.text}': {error.message}"
  | .file path failure => s!"Failed to migrate '{path.text}': {failure.message}"
  | .incomplete count =>
      s!"{count} file(s) could not be migrated and were left unchanged"

end Failure

end ProviderMigration.Migration
