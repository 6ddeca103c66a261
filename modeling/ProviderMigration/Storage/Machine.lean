import ProviderMigration.Storage.Disk
import ProviderMigration.Storage.Host

/-!
# Machines

A machine is a model of a host: a disk, a current directory, and what has been
written to the two streams. It remembers the disk as it was before each change,
so that a statement can speak of every moment of a run and not only of its end.

A disk is never full and protects none of its files, and a file is replaced or
copied in one step, with no disk in between. So a listed file can always be
replaced, and no run on a machine ends because new content was not written
(`Failure.unwritten`).
-/

namespace ProviderMigration.Storage

structure Machine where
  disk : Disk
  /-- The disks before each change, latest first. -/
  past : List Disk
  /-- The current directory. -/
  here : Place
  settingsHome : Pathname
  showsStyles : Bool
  output : String
  warnings : String

namespace Machine

/-- A machine that has not done anything yet. -/
def fresh (disk : Disk) (here : Place) (settingsHome : Pathname) (showsStyles : Bool) :
    Machine :=
  ⟨disk, [], here, settingsHome, showsStyles, "", ""⟩

/-- The machine with another disk, which is a change to be remembered. -/
def change (machine : Machine) (disk : Disk) : Machine :=
  { machine with disk, past := machine.disk :: machine.past }

/-- A computation on a machine. -/
abbrev Action := StateM Machine

/-- What an operation that only looks at the disk answers. -/
def look {α : Type} (operation : Disk → Place → Except OsError α) :
    Action (Except OsError α) :=
  fun machine => (operation machine.disk machine.here, machine)

/-- What an operation that changes the disk answers. One that fails leaves the
disk as it is. -/
def alter {α : Type} (operation : Disk → Place → Except OsError (Disk × α)) :
    Action (Except OsError α) :=
  fun machine =>
    match operation machine.disk machine.here with
    | .ok (disk, answer) => (.ok answer, machine.change disk)
    | .error error => (.error error, machine)

/-- A host that is only a model. -/
instance : Host Action where
  currentDirectory := fun machine => (.ofNames machine.here, machine)
  settingsHome := fun machine => (machine.settingsHome, machine)
  showsStyles := fun machine => (machine.showsStyles, machine)
  kind path := look fun disk here => do
    match ← disk.open? here path with
    | (_, .file _ _) => return .file
    | (_, .directory) => return .directory
    | (_, .link _) => return .special
  size path := look fun disk here => do
    let (_, data, _) ← disk.openFile here path
    return data.size
  canonicalize path := look fun disk here => return .ofNames (← disk.resolve here path)
  hasEntry path := look fun disk here => do
    let (place, _) ← disk.open? here path
    return disk.hasEntry place
  filesBelow path := look fun disk here => do
    let (place, _) ← disk.open? here path
    return disk.filesBelow place
  read path := look fun disk here => do
    let (_, data, _) ← disk.openFile here path
    return data
  write path data := alter fun disk here => do
    let (disk, _) ← disk.write here path data none
    return (disk, ())
  replace path data := alter fun disk here => return (← disk.replace here path data, ())
  copy source destination := alter fun disk here => disk.copy here source destination
  createDirectory path := alter fun disk here =>
    return (← disk.createDirectory here path, ())
  say line := modify fun machine => { machine with output := machine.output ++ line ++ "\n" }
  warn line := modify fun machine =>
    { machine with warnings := machine.warnings ++ line ++ "\n" }

end Machine

end ProviderMigration.Storage
