/-!
# Settings

The settings say which files a migration touches and where it keeps a copy of
them. A settings file may leave any of them out or empty.
-/

namespace ProviderMigration

structure Settings where
  /-- Files with one of these extensions get the names on their lines renamed. -/
  extensions : List String
  /-- Files with one of these extensions also get their provider blocks edited. -/
  providerExtensions : List String
  /-- Glob patterns for the files and directories that are left out. -/
  ignoredPaths : List String
  /-- Files with more bytes than this do not get their provider blocks edited. -/
  maxFileSize : Nat
  /-- What is appended to the name of a directory to name its backup. -/
  backupSuffix : String
  deriving DecidableEq, Repr

namespace Settings

/-- The settings of a first run. -/
def standard : Settings where
  extensions := ["tf", "tfstate"]
  providerExtensions := ["tf"]
  ignoredPaths := [".terraform", ".git"]
  maxFileSize := 1024 * 1024
  backupSuffix := "_backup"

/-- Whether files with the extension get the names on their lines renamed. -/
def renamesLines (settings : Settings) (extension : String) : Bool :=
  settings.extensions.contains extension

/-- Whether files with the extension get their provider blocks edited. -/
def editsProviders (settings : Settings) (extension : String) : Bool :=
  settings.providerExtensions.contains extension

/-- The settings with every empty field filled in. No ignored paths is a choice,
so that list may be empty. -/
def completed (settings : Settings) : Settings where
  extensions :=
    if settings.extensions.isEmpty then standard.extensions else settings.extensions
  providerExtensions :=
    if settings.providerExtensions.isEmpty then standard.providerExtensions
    else settings.providerExtensions
  ignoredPaths := settings.ignoredPaths
  maxFileSize := if settings.maxFileSize = 0 then standard.maxFileSize else settings.maxFileSize
  backupSuffix :=
    if settings.backupSuffix.isEmpty then standard.backupSuffix else settings.backupSuffix

/-- No field is empty but the ignored paths, which may be. -/
structure IsComplete (settings : Settings) : Prop where
  extensions : settings.extensions ≠ []
  providerExtensions : settings.providerExtensions ≠ []
  maxFileSize : settings.maxFileSize ≠ 0
  backupSuffix : settings.backupSuffix ≠ ""

theorem isComplete_standard : IsComplete standard := by
  constructor <;> decide

/-- Completing leaves no gap. -/
theorem isComplete_completed (settings : Settings) : IsComplete settings.completed := by
  constructor
  all_goals
    dsimp only [completed]
    split
  case extensions.isTrue => exact isComplete_standard.extensions
  case extensions.isFalse filled => exact mt List.isEmpty_iff.2 filled
  case providerExtensions.isTrue => exact isComplete_standard.providerExtensions
  case providerExtensions.isFalse filled => exact mt List.isEmpty_iff.2 filled
  case maxFileSize.isTrue => exact isComplete_standard.maxFileSize
  case maxFileSize.isFalse filled => exact filled
  case backupSuffix.isTrue => exact isComplete_standard.backupSuffix
  case backupSuffix.isFalse filled => exact mt String.isEmpty_iff.2 filled

/-- Where there is no gap, there is nothing to complete. -/
theorem IsComplete.completed_eq {settings : Settings} (complete : IsComplete settings) :
    settings.completed = settings := by
  rw [completed, if_neg (mt List.isEmpty_iff.1 complete.extensions),
    if_neg (mt List.isEmpty_iff.1 complete.providerExtensions), if_neg complete.maxFileSize,
    if_neg (mt String.isEmpty_iff.1 complete.backupSuffix)]

/-- Completing fills every gap at once. -/
theorem completed_completed (settings : Settings) :
    settings.completed.completed = settings.completed :=
  (isComplete_completed settings).completed_eq

end Settings

end ProviderMigration
