/-!
# Command-line arguments

An argument is a long option (`--dir`), a cluster of short options (`-qd`), or
the value of the option before it. Long options are written in full. A value may
stand in an argument of its own, or follow its option after an equals sign; a
short option may also have its value right behind it. There are no positional
arguments.

Arguments are read from left to right. An option whose value stands in an
argument of its own is settled only when the next option is recognised or the
arguments end, so an unknown argument behind it is noticed first.
-/

namespace ProviderMigration.CommandLine

/-- What a command line asks for. -/
structure Options where
  dir : String
  backupDir? : Option String
  config? : Option String
  dryRun : Bool
  keepGoing : Bool
  quiet : Bool
  deriving DecidableEq, Repr

/-- The ways in which a command line can be wrong. -/
inductive Misuse where
  /-- An argument that is neither an option nor a value. -/
  | unknownArgument
  /-- A value that is missing or empty. -/
  | invalidValue
  /-- An option that is given twice. -/
  | argumentConflict
  /-- A value for an option that takes none. -/
  | tooManyValues
  deriving DecidableEq, Repr

/-- Why reading ends without options to run with. -/
inductive Interruption where
  | help
  | version
  | misuse (misuse : Misuse)
  deriving DecidableEq, Repr

/-- Options with a value. -/
inductive Setting where
  | dir
  | backupDir
  | config
  deriving DecidableEq, Repr

/-- Options without a value. -/
inductive Switch where
  | dryRun
  | keepGoing
  | quiet
  | help
  | version
  deriving DecidableEq, Repr

/-- An option of either sort. -/
inductive OptionName where
  | setting (setting : Setting)
  | switch (switch : Switch)
  deriving DecidableEq, Repr

/-- The option with a long name. -/
def OptionName.ofLong? (name : String) : Option OptionName :=
  match name with
  | "dir" => some (.setting .dir)
  | "backup-dir" => some (.setting .backupDir)
  | "config" => some (.setting .config)
  | "dry-run" => some (.switch .dryRun)
  | "keep-going" => some (.switch .keepGoing)
  | "quiet" => some (.switch .quiet)
  | "help" => some (.switch .help)
  | "version" => some (.switch .version)
  | _ => none

/-- The option with a short name. -/
def OptionName.ofShort? (name : Char) : Option OptionName :=
  match name with
  | 'd' => some (.setting .dir)
  | 'b' => some (.setting .backupDir)
  | 'c' => some (.setting .config)
  | 'q' => some (.switch .quiet)
  | 'h' => some (.switch .help)
  | 'V' => some (.switch .version)
  | _ => none

/-- What has been read of a command line. -/
structure Reader where
  dir? : Option String := none
  backupDir? : Option String := none
  config? : Option String := none
  dryRun : Bool := false
  keepGoing : Bool := false
  quiet : Bool := false
  /-- An option that is not settled yet, with its value once that is read. -/
  pending? : Option (Setting × Option String) := none
  deriving DecidableEq, Repr

namespace Reader

abbrev Step := Except Interruption Reader

def misuse {α : Type} (kind : Misuse) : Except Interruption α := .error (.misuse kind)

/-- Gives an option its value. -/
def assign (reader : Reader) (setting : Setting) (value : String) : Step :=
  let given? :=
    match setting with
    | .dir => reader.dir?
    | .backupDir => reader.backupDir?
    | .config => reader.config?
  if given?.isSome then misuse .argumentConflict
  else if value.isEmpty then misuse .invalidValue
  else
    match setting with
    | .dir => .ok { reader with dir? := some value }
    | .backupDir => .ok { reader with backupDir? := some value }
    | .config => .ok { reader with config? := some value }

/-- Settles the pending option. -/
def settle (reader : Reader) : Step :=
  match reader.pending? with
  | none => .ok reader
  | some (_, none) => misuse .invalidValue
  | some (setting, some value) => { reader with pending? := none }.assign setting value

/-- Turns a switch on. -/
def turnOn (reader : Reader) (switch : Switch) : Step := do
  let reader ← reader.settle
  match switch with
  | .help => .error .help
  | .version => .error .version
  | .dryRun =>
      if reader.dryRun then misuse .argumentConflict else .ok { reader with dryRun := true }
  | .keepGoing =>
      if reader.keepGoing then misuse .argumentConflict
      else .ok { reader with keepGoing := true }
  | .quiet =>
      if reader.quiet then misuse .argumentConflict else .ok { reader with quiet := true }

/-- Reads an option with the value that is attached to it, if there is one. -/
def set (reader : Reader) (setting : Setting) (attached? : Option String) : Step := do
  let reader ← reader.settle
  match attached? with
  | some value => reader.assign setting value
  | none => .ok { reader with pending? := some (setting, none) }

/-- Reads a long option. -/
def readLong (reader : Reader) (name : String) (attached? : Option String) : Step :=
  match OptionName.ofLong? name with
  | none => misuse .unknownArgument
  | some (.setting setting) => reader.set setting attached?
  | some (.switch switch) =>
      if attached?.isSome then misuse .tooManyValues else reader.turnOn switch

/-- Reads a cluster of short options. An option with a value ends the cluster,
and what follows it there is its value. -/
def readCluster (reader : Reader) : List Char → Step
  | [] => .ok reader
  | name :: rest =>
      match OptionName.ofShort? name with
      | none => misuse .unknownArgument
      | some (.switch switch) => do (← reader.turnOn switch).readCluster rest
      | some (.setting setting) =>
          match rest with
          | [] => reader.set setting none
          | '=' :: value => reader.set setting (some (String.ofList value))
          | value => reader.set setting (some (String.ofList value))

/-- Reads an argument that is no option. -/
def readValue (reader : Reader) (argument : String) : Step :=
  match reader.pending? with
  | some (setting, none) => .ok { reader with pending? := some (setting, some argument) }
  | _ => misuse .unknownArgument

/-- The name of a long option and the value attached to it. -/
def splitLong (option : List Char) : String × Option String :=
  let name := String.ofList (option.takeWhile (· ≠ '='))
  match option.dropWhile (· ≠ '=') with
  | [] => (name, none)
  | _ :: value => (name, some (String.ofList value))

/-- Reads one argument. A lone dash is a value. -/
def readArgument (reader : Reader) (argument : String) : Step :=
  match argument.toList with
  | '-' :: '-' :: option =>
      let (name, attached?) := splitLong option
      reader.readLong name attached?
  | '-' :: name :: rest => reader.readCluster (name :: rest)
  | _ => reader.readValue argument

/-- Reads all arguments. Two dashes end the options, and nothing may follow. -/
def readAll (reader : Reader) : List String → Step
  | [] => reader.settle
  | argument :: rest =>
      if argument = "--" then
        if rest.isEmpty then reader.settle else misuse .unknownArgument
      else do (← reader.readArgument argument).readAll rest

/-- The options that were read, with the current directory to be migrated when
no other is given. -/
def options (reader : Reader) : Options where
  dir := reader.dir?.getD "."
  backupDir? := reader.backupDir?
  config? := reader.config?
  dryRun := reader.dryRun
  keepGoing := reader.keepGoing
  quiet := reader.quiet

end Reader

/-- The options that a command line gives, or why there are none. -/
def Options.ofArguments (arguments : List String) : Except Interruption Options :=
  (Reader.readAll {} arguments).map Reader.options

end ProviderMigration.CommandLine
