/-!
# The tally of a migration
-/

namespace ProviderMigration.Migration

/-- What became of the files of a directory. -/
structure Tally where
  backedUp : Nat
  migrated : Nat
  unchanged : Nat
  skipped : Nat
  /-- The paths of the files that could not be migrated, in the order in which
  they were tried. -/
  failed : List String
  deriving DecidableEq, Repr

namespace Tally

/-- The tally before any file. -/
def zero : Tally := ⟨0, 0, 0, 0, []⟩

/-- The tally in one sentence. -/
def summary (tally : Tally) : String :=
  s!"Backed up {tally.backedUp} files. Migrated: {tally.migrated}, " ++
    s!"unchanged: {tally.unchanged}, skipped: {tally.skipped}, failed: {tally.failed.length}"

end Tally

end ProviderMigration.Migration
