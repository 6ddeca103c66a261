import ProviderMigration.Console.Style
import ProviderMigration.Difference.Preview
import ProviderMigration.Migration.Backup
import ProviderMigration.Migration.Content
import ProviderMigration.Migration.Tally

/-!
# Runs

A run migrates the files of one directory. The files are listed once. Unless the
run is dry, all of them are then copied to the backup, and only after that is
the first of them changed. A file is changed in one step, and only if its
migration differs from it in more than the ends of its lines. A dry run shows
the changes and makes none.
-/

namespace ProviderMigration.Migration

open Storage Console

/-- What a run is asked to do. -/
structure Plan where
  dir : Pathname
  backupDir? : Option Pathname
  dryRun : Bool
  /-- A file that cannot be migrated is left as it is, and the run goes on. -/
  keepGoing : Bool
  /-- Nothing is said about single files, the changes of a dry run apart. -/
  quiet : Bool
  deriving DecidableEq, Repr

/-- What the migration of a file comes to. -/
inductive Outcome where
  | unchanged
  /-- The lines of the file with their ends made equal, and the text that takes
  its place. -/
  | changed (old new : List Char)
  deriving DecidableEq, Repr

/-- The outcome for a file with the given content. -/
def outcomeOf (settings : Settings) (extension : String) (text : List Char) :
    Except Block.Malformed Outcome := do
  let migrated ← migrateText settings extension text
  let normalized := Text.normalizeEnds text
  return if migrated = normalized then .unchanged else .changed normalized migrated

variable {m : Type → Type} [Monad m] [Host m]

namespace Plan

/-- Says something about a single file. -/
def progress (plan : Plan) (styles : List Style) (text : String) : Attempt m Unit := do
  sayUnless plan.quiet (paint (← perform Host.showsStyles) styles text)

/-- Reads a file and finds out what its migration comes to. The size of a file
matters only if its provider blocks are edited. -/
def examine (settings : Settings) (entry : Entry) : Attempt m Outcome := do
  if settings.editsProviders entry.extension then
    let size ← attempt .os (Host.size entry.path)
    if settings.maxFileSize < size then throw (.tooLarge size settings.maxFileSize)
  let text ← attempt (.unreadable entry.path) (Host.readText entry.path)
  match outcomeOf settings entry.extension text with
  | .ok outcome => return outcome
  | .error fault => throw (.malformed fault)

/-- Migrates one file, or shows how it would change. Answers whether it does. -/
def migrateFile (plan : Plan) (settings : Settings) (entry : Entry) : Attempt m Bool := do
  match ← examine settings entry with
  | .unchanged => return false
  | .changed old new =>
      if plan.dryRun then
        let styled ← perform Host.showsStyles
        perform (Host.say (paint styled [.bold] entry.path.text))
        perform (Host.say (Difference.preview styled old new))
      else
        attempt (.unwritten entry.path)
          (Host.replace entry.path (bytesOf new))
      return true

/-- The word for a file that is migrated. -/
def migratingWord (plan : Plan) : String :=
  if plan.dryRun then "Would migrate" else "Migrating"

/-- Migrates one file and counts what becomes of it. -/
def step (plan : Plan) (settings : Settings) (tally : Tally) (entry : Entry) :
    Attempt m Tally := do
  let path := entry.path.text
  if !settings.renamesLines entry.extension then
    plan.progress [.dim] s!"Skipping {path}"
    return { tally with skipped := tally.skipped + 1 }
  else
    match ← settle (plan.migrateFile settings entry) with
    | .ok true =>
        plan.progress [.green] s!"{plan.migratingWord} {path}"
        return { tally with migrated := tally.migrated + 1 }
    | .ok false =>
        plan.progress [.dim] s!"Unchanged {path}"
        return { tally with unchanged := tally.unchanged + 1 }
    | .error failure =>
        if plan.keepGoing then
          let styled ← perform Host.showsStyles
          perform (Host.warn (paint styled [.red] s!"Failed {path}: {failure.message}"))
          return { tally with failed := tally.failed ++ [path] }
        else throw (.file entry.path failure)

/-- Migrates the given files, one after the other. -/
def migrateAll (plan : Plan) (settings : Settings) (tally : Tally) :
    List Entry → Attempt m Tally
  | [] => return tally
  | entry :: rest => do migrateAll plan settings (← plan.step settings tally entry) rest

/-- Copies the given files to the backup, one after the other, and counts them. -/
def backUpAll (plan : Plan) (backup : Pathname) (count : Nat) : List Entry → Attempt m Nat
  | [] => return count
  | entry :: rest => do
      let (destination, size) ← backUp backup entry
      plan.progress [] s!"Copying {entry.path.text} --> {destination.text}, {size} bytes"
      backUpAll plan backup (count + 1) rest

/-- The backup directory of the plan. -/
def backupDir (plan : Plan) (settings : Settings) : Attempt m Pathname :=
  match plan.backupDir? with
  | some backup => return backup
  | none => defaultBackup plan.dir settings.backupSuffix

/-- Carries out the plan. -/
def run (plan : Plan) (settings : Settings) : Attempt m Tally := do
  unless ← perform (Host.leadsTo plan.dir .directory) do throw (.notADirectory plan.dir)
  let entries ← collectFiles plan.dir settings.ignoredPaths
  let backedUp ←
    if plan.dryRun then pure 0
    else do
      let backup ← plan.backupDir settings
      checkBackup plan.dir backup
      plan.backUpAll backup 0 entries
  plan.migrateAll settings { Tally.zero with backedUp := backedUp } entries

end Plan

end ProviderMigration.Migration
