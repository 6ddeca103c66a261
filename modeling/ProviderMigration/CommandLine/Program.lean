import ProviderMigration.CommandLine.Arguments
import ProviderMigration.Migration.Preparation
import ProviderMigration.Migration.Run

/-!
# The program

The program reads its arguments and the settings and then carries out one run.
-/

namespace ProviderMigration.CommandLine

open Console Migration Storage

/-- How the program ends. -/
inductive Ending where
  | success
  | failure
  | misuse
  deriving DecidableEq, Repr

/-- The exit code of the program. -/
def Ending.code : Ending → UInt32
  | .success => 0
  | .failure => 1
  | .misuse => 2

/-- The line that names the program and its version. -/
def versionText : String := "equinix-migrate 0.1.0"

def usageText : String := "Usage: equinix-migrate [OPTIONS]"

/-- The lines that describe the options. -/
def helpLines : List String := [
  "Migrate Terraform configuration and state from the metal/packet providers to equinix",
  "",
  usageText,
  "",
  "Options:",
  "  -d, --dir <DIR>                Directory containing the Terraform files to migrate " ++
    "[default: .]",
  "  -b, --backup-dir <BACKUP_DIR>  Where to copy the original files " ++
    "(defaults to `<dir>_backup`)",
  "  -c, --config <CONFIG>          Config file to use instead of the one in the XDG config " ++
    "directory",
  "      --dry-run                  Show the changes as a diff without writing anything",
  "      --keep-going               Leave files with malformed provider blocks untouched " ++
    "instead of aborting",
  "  -q, --quiet                    Only print the summary",
  "  -h, --help                     Print help",
  "  -V, --version                  Print version"]

/-- What is wrong with the arguments. -/
def Misuse.message : Misuse → String
  | .unknownArgument => "unexpected argument"
  | .invalidValue => "an option needs a value"
  | .argumentConflict => "an option is given more than once"
  | .tooManyValues => "an option takes no value"

/-- The run that the options ask for. -/
def Options.plan (options : Options) : Plan where
  dir := ⟨options.dir⟩
  backupDir? := options.backupDir?.map Pathname.mk
  dryRun := options.dryRun
  keepGoing := options.keepGoing
  quiet := options.quiet

variable {m : Type → Type} [Monad m] [Host m]

/-- Migrates as the options say. -/
def migrate (options : Options) : Attempt m Unit := do
  let settings ← prepareSettings (options.config?.map Pathname.mk) options.quiet
  let styled ← perform Host.showsStyles
  if options.dryRun then
    perform (Host.say (paint styled [.yellow] "Dry run: no files will be written."))
  let tally ← options.plan.run settings
  perform (Host.say (paint styled [.bold] tally.summary))
  unless tally.failed.isEmpty do throw (.incomplete tally.failed.length)

/-- Does what the arguments ask for. -/
def run (arguments : List String) : m Ending := do
  match Options.ofArguments arguments with
  | .error .help =>
      helpLines.forM Host.say
      return .success
  | .error .version =>
      Host.say versionText
      return .success
  | .error (.misuse misuse) =>
      Host.warn s!"error: {misuse.message}"
      Host.warn s!"\n{usageText}\n\nFor more information, try '--help'."
      return .misuse
  | .ok options =>
      match ← (migrate options).run with
      | .ok () => return .success
      | .error failure =>
          let mark := paint (← Host.showsStyles) [.red, .bold] "error:"
          Host.warn s!"{mark} {failure.message}"
          return .failure

end ProviderMigration.CommandLine
