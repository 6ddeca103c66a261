import Std.Data.TreeMap
import ProviderMigration.Storage.OsError
import ProviderMigration.Storage.Pathname

/-!
# Disks

A disk maps places to what is there. A place is the sequence of names that leads
to it from the root, and the root is always a directory. Places are ordered name
by name, so the files below a directory are listed in the order in which a
reader of sorted listings would meet them.
-/

namespace ProviderMigration.Storage

/-- The names that lead from the root to a place. A name is a text, so a disk has
no place with a name that is not UTF-8. -/
abbrev Place := List String

/-- What there is at a place. -/
inductive Node where
  | file (data : ByteArray) (mode : Nat)
  | directory
  | link (target : Pathname)

/-- The nodes at all places but the root. -/
structure Disk where
  nodes : Std.TreeMap Place Node

namespace Disk

/-- The disk with nothing but the root. -/
def empty : Disk := ⟨∅⟩

/-- The node at a place. -/
def node? (disk : Disk) (place : Place) : Option Node :=
  if place = [] then some .directory else disk.nodes[place]?

/-- The disk with a node put at a place. -/
def put (disk : Disk) (place : Place) (node : Node) : Disk :=
  ⟨disk.nodes.insert place node⟩

/-- A file or directory that is put on a disk can be found there. -/
theorem node?_put_self {place : Place} (inside : place ≠ []) (disk : Disk) (node : Node) :
    (disk.put place node).node? place = some node := by
  simp [node?, put, inside]

/-- Putting a node leaves all other places alone. -/
theorem node?_put_of_ne {place other : Place} (different : other ≠ place) (disk : Disk)
    (node : Node) : (disk.put place node).node? other = disk.node? other := by
  unfold node? put
  split
  · rfl
  · simp [Std.TreeMap.getElem?_insert, Ne.symm different]

def isDirectory (disk : Disk) (place : Place) : Bool :=
  match disk.node? place with
  | some .directory => true
  | _ => false

/-- The longest name of a file, in bytes. -/
def maxNameSize : Nat := 255

/-- The longest text of a path, in bytes. -/
def maxPathSize : Nat := 4095

/-- How many links a path may lead through. -/
def maxLinks : Nat := 40

/-- The place where some steps lead from a directory, if `follow` says where the steps
behind a link lead. Only the last step may lead to a place where there is nothing. A
link at the last step is followed on request. -/
def walk (disk : Disk) (followLast : Bool)
    (follow : Place → List String → Except OsError Place) (start : Place) :
    List String → Except OsError Place
  | [] => .ok start
  | step :: rest =>
      if !disk.isDirectory start then .error .notADirectory
      else if step = "." then walk disk followLast follow start rest
      else if step = ".." then walk disk followLast follow start.dropLast rest
      else if maxNameSize < step.utf8ByteSize then .error .nameTooLong
      else
        match disk.node? (start ++ [step]) with
        | none => if rest.isEmpty then .ok (start ++ [step]) else .error .notFound
        | some (.link target) =>
            if rest.isEmpty && !followLast then .ok (start ++ [step])
            else follow (if target.isAbsolute then [] else start) (target.steps ++ rest)
        | some _ => walk disk followLast follow (start ++ [step]) rest

/-- The place where some steps lead from a directory, through no more than the given
number of links. -/
def locate (disk : Disk) (followLast : Bool) :
    Nat → Place → List String → Except OsError Place
  | 0 => disk.walk followLast fun _ _ => .error .tooManyLinks
  | links + 1 => disk.walk followLast (disk.locate followLast links)

/-- The place where a path leads from the directory `here`. -/
def find (disk : Disk) (here : Place) (followLast : Bool) (path : Pathname) :
    Except OsError Place :=
  if path.text.isEmpty then .error .notFound
  else if maxPathSize < path.text.utf8ByteSize then .error .nameTooLong
  else locate disk followLast maxLinks (if path.isAbsolute then [] else here) path.steps

/-- The place of what a path leads to. The path is followed name by name, so its text may
be of any length. -/
def resolve (disk : Disk) (here : Place) (path : Pathname) : Except OsError Place :=
  if path.text.isEmpty then .error .notFound
  else do
    let place ← disk.locate true maxLinks (if path.isAbsolute then [] else here) path.steps
    if (disk.node? place).isSome then return place else .error .notFound

/-- The place that a path names, whatever is there. Slashes at the end of the path make no
difference, and a link at its end is not followed. -/
def findName (disk : Disk) (here : Place) (path : Pathname) : Except OsError Place :=
  if path.text.isEmpty then .error .notFound
  else if maxPathSize < path.text.utf8ByteSize then .error .nameTooLong
  else
    disk.locate false maxLinks (if path.isAbsolute then [] else here)
      (path.parts.filter (· ≠ ""))

/-- The place of an existing node, and the node. -/
def open? (disk : Disk) (here : Place) (path : Pathname) : Except OsError (Place × Node) := do
  let place ← disk.find here true path
  match disk.node? place with
  | some node => return (place, node)
  | none => .error .notFound

/-- The place of an existing file with its content and mode. -/
def openFile (disk : Disk) (here : Place) (path : Pathname) :
    Except OsError (Place × ByteArray × Nat) := do
  match ← disk.open? here path with
  | (place, .file data mode) => return (place, data, mode)
  | (_, _) => .error .isADirectory

/-- The regular files below a place, by the names that lead to them from there. -/
def filesBelow (disk : Disk) (place : Place) : List (List String) :=
  disk.nodes.toList.filterMap fun
    | (found, .file _ _) =>
        if place.isPrefixOf found then some (found.drop place.length) else none
    | _ => none

/-- Whether there is anything below a place. -/
def hasEntry (disk : Disk) (place : Place) : Bool :=
  disk.nodes.keys.any fun found => place.isPrefixOf found && found != place

/-- The mode of a file that is created without a mode of its own. -/
def standardMode : Nat := 0o644

/-- The disk with new content at a path. A file that exists keeps its mode. -/
def write (disk : Disk) (here : Place) (path : Pathname) (data : ByteArray)
    (mode? : Option Nat) : Except OsError (Disk × Place) := do
  let place ← disk.find here true path
  match disk.node? place with
  | none => return (disk.put place (.file data (mode?.getD standardMode)), place)
  | some (.file _ mode) => return (disk.put place (.file data (mode?.getD mode)), place)
  | some _ => .error .isADirectory

/-- The disk with a copy of one file at another path, and the number of bytes
copied. The other file is emptied before the copy begins, so a file copied to
itself is lost. -/
def copy (disk : Disk) (here : Place) (source destination : Pathname) :
    Except OsError (Disk × Nat) := do
  let (_, _, mode) ← disk.openFile here source
  let (emptied, _) ← disk.write here destination .empty (some mode)
  let (_, data, _) ← emptied.openFile here source
  let (disk, _) ← emptied.write here destination data (some mode)
  return (disk, data.size)

/-- The disk with new content in an existing file, which keeps its mode. -/
def replace (disk : Disk) (here : Place) (path : Pathname) (data : ByteArray) :
    Except OsError Disk := do
  let (_, _, mode) ← disk.openFile here path
  let place ← disk.find here false path
  return disk.put place (.file data mode)

/-- The disk with one more directory. -/
def createDirectory (disk : Disk) (here : Place) (path : Pathname) : Except OsError Disk := do
  let place ← disk.findName here path
  match disk.node? place with
  | some _ => .error .alreadyExists
  | none => return disk.put place .directory

end Disk

end ProviderMigration.Storage
