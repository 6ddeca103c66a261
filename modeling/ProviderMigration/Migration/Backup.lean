import ProviderMigration.Migration.Walk

/-!
# Backups

Before a migration changes anything, every file it could touch is copied to a
backup directory. That directory must not lie inside the one that is migrated,
and it must be empty if it exists.
-/

namespace ProviderMigration.Migration

open Storage

variable {m : Type → Type} [Monad m] [Host m]

/-- The directory beside `dir` whose name is that of `dir` with a suffix. -/
def defaultBackup (dir : Pathname) (suffix : String) : Attempt m Pathname := do
  let canonical ← attempt (.unresolvedDirectory dir) (Host.canonicalize dir)
  match canonical.names.getLast? with
  | none => throw (.unnamedBackup dir)
  | some name => return (Pathname.ofNames canonical.names.dropLast).join ⟨name ++ suffix⟩

/-- The names of a path that need not exist. The longest part of it that exists
is resolved, and the rest is taken as it is written. -/
def resolveNames (path : Pathname) : Attempt m (List String) := do
  let absolute := (← perform Host.currentDirectory).join path
  match ← perform (Host.canonicalize absolute) with
  | .ok canonical => return canonical.names
  | .error _ => resolveOuter absolute.names.reverse []
where
  /-- Leaves out one more of the reversed names at each try. -/
  resolveOuter (reversed rest : List String) : Attempt m (List String) := do
    match reversed with
    | [] => throw (.unresolvedPath path)
    | name :: outer =>
        let rest := name :: rest
        match ← perform (Host.canonicalize (Pathname.ofNames outer.reverse)) with
        | .ok canonical => return canonical.names ++ rest
        | .error _ => resolveOuter outer rest

/-- Fails unless the files of `target` may be copied to `backup`. -/
def checkBackup (target backup : Pathname) : Attempt m Unit := do
  let targetNames ← resolveNames target
  let backupNames ← resolveNames backup
  if targetNames.isPrefixOf backupNames then throw (.backupInsideTarget backup target)
  if ← perform (Host.leadsTo backup .file) then throw (.backupIsAFile backup)
  if ← perform (Host.leadsTo backup .directory) then
    if ← attempt .os (Host.hasEntry backup) then throw (.backupNotEmpty backup)

/-- The directory that a file with the given names is copied into. -/
def backupParent (backup : Pathname) (names : List String) : Pathname :=
  match names.dropLast with
  | [] => backup.trimmed
  | outer => backup.descend outer

/-- Copies one file to its place in the backup. -/
def backUp (backup : Pathname) (entry : Entry) : Attempt m (Pathname × Nat) := do
  let destination := backup.descend entry.names
  let parent := backupParent backup entry.names
  attempt (.uncreatedBackup parent) (Host.createDirectories parent)
  let size ← attempt (.uncopied entry.path destination) (Host.copy entry.path destination)
  return (destination, size)

end ProviderMigration.Migration
