import ProviderMigration.Migration.Attempt
import ProviderMigration.Settings.Document

/-!
# Preparation of a migration

The settings come from a file that the user names, or else from the file that is
kept for the user. That file is created when it is missing, and settings that it
leaves out are added to it, so it always shows everything that can be set. A file
that holds all settings as they would be written is left alone.
-/

namespace ProviderMigration.Migration

open Storage

variable {m : Type → Type} [Monad m] [Host m]

/-- The settings in the file at a path. -/
def loadSettings (path : Pathname) : Attempt m Settings := do
  let text ← attempt (.unreadableSettings path) (Host.readText path)
  match Settings.ofText? text with
  | some settings => return settings.completed
  | none => throw (.invalidSettings path)

/-- Where the settings of a user are kept, below the directory for settings. -/
def settingsDirectory : Pathname := ⟨"equinix-migrate"⟩

def settingsName : Pathname := ⟨"config.toml"⟩

/-- Gives a file the text of some settings. -/
def writeSettings (path : Pathname) (settings : Settings) : Attempt m Unit :=
  attempt .os (Host.write path (bytesOf settings.toText))

/-- The settings of the file at a path, which is created or completed if needed. A file is
created together with the directory that it is in. -/
def keepSettings (path : Pathname) (quiet : Bool) : Attempt m Settings := do
  match ← perform (Host.kind path) with
  | .error _ =>
      attempt .os (Host.createDirectories path.parent)
      writeSettings path .standard
      sayUnless quiet s!"Created default config at: {path.text}"
      return .standard
  | .ok _ =>
      let text ← attempt .os (Host.readText path)
      let settings ← loadSettings path
      unless settings.toText = text do writeSettings path settings
      return settings

/-- The settings of the user. -/
def userSettings (quiet : Bool) : Attempt m Settings := do
  let directory := (← perform Host.settingsHome).join settingsDirectory
  attempt .os (Host.createDirectories directory)
  keepSettings (directory.join settingsName) quiet

/-- The settings of the file that the user names, or those of the user. -/
def prepareSettings (file? : Option Pathname) (quiet : Bool) : Attempt m Settings :=
  match file? with
  | some path => loadSettings path
  | none => userSettings quiet

end ProviderMigration.Migration
