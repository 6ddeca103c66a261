import ProviderMigration.Identifier.Chain
import ProviderMigration.Provider.Declaration
import ProviderMigration.Settings.Basic

/-!
# Migration of a text

The names on the lines of a text are renamed first, in the dialect that its
extension selects. Where the settings ask for it, the provider declarations of
the outcome are edited next.
-/

namespace ProviderMigration.Migration

/-- The text of a file after its migration. -/
def migrateText (settings : Settings) (extension : String) (text : List Char) :
    Except Block.Malformed (List Char) :=
  let renamed := (Identifier.Dialect.ofExtension extension).renameText text
  if settings.editsProviders extension then Provider.editDeclarations renamed
  else .ok renamed

end ProviderMigration.Migration
