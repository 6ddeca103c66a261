/-!
# Pathnames

A path is kept as it was written, because it is shown that way. To follow it,
its text is cut at slashes into steps: empty parts are left out, and a slash at
the end asks for a directory, as the step `.` does. Comparing paths compares
their names, where `.` does not count but `..` stays as it is.
-/

namespace ProviderMigration.Storage

/-- The path with the given text. -/
structure Pathname where
  text : String
  deriving DecidableEq, Repr

namespace Pathname

/-- The parts of a text between its slashes. -/
def cutAtSlashes (text : List Char) : List (List Char) :=
  text.foldr
    (fun c parts =>
      if c = '/' then [] :: parts
      else
        match parts with
        | [] => [[c]]
        | part :: parts => (c :: part) :: parts)
    [[]]

/-- The parts of the path between its slashes, empty ones included. -/
def parts (path : Pathname) : List String :=
  (cutAtSlashes path.text.toList).map String.ofList

def isAbsolute (path : Pathname) : Bool :=
  path.text.toList.head? == some '/'

/-- The steps to take from the root, or from the current directory, to where the
path leads. -/
def steps (path : Pathname) : List String :=
  let parts := path.parts
  let steps := parts.filter (· ≠ "")
  if !steps.isEmpty && parts.getLast? == some "" then steps ++ ["."] else steps

/-- The steps that lead anywhere. -/
def names (path : Pathname) : List String :=
  path.steps.filter (· ≠ ".")

/-- The absolute path with the given names. -/
def ofNames (names : List String) : Pathname :=
  ⟨"/" ++ "/".intercalate names⟩

/-- The path with other names that starts at the root, or in the current
directory, as `path` does. -/
def withNames (path : Pathname) (names : List String) : Pathname :=
  if path.isAbsolute then ofNames names else ⟨"/".intercalate names⟩

/-- The directory that a path is in. A path with no more than one name is in the directory
where it starts. -/
def parent (path : Pathname) : Pathname :=
  path.withNames path.names.dropLast

/-- The path that `next` is when it is read from the directory `path`. -/
def join (path next : Pathname) : Pathname :=
  if next.isAbsolute || path.text.isEmpty then next
  else if path.text.toList.getLast? == some '/' then ⟨path.text ++ next.text⟩
  else ⟨path.text ++ "/" ++ next.text⟩

/-- The path below `path` with the given names. -/
def descend (path : Pathname) (names : List String) : Pathname :=
  path.join ⟨"/".intercalate names⟩

/-- The path without the slashes and dots at its end that do not count. A dot
that is the whole path counts. -/
def trimmed (path : Pathname) : Pathname :=
  match path.parts with
  | [] => path
  | first :: rest =>
      let rest := (rest.reverse.dropWhile fun part => part == "" || part == ".").reverse
      if rest.isEmpty && first == "" && path.isAbsolute then ⟨"/"⟩
      else ⟨"/".intercalate (first :: rest)⟩

end Pathname

/-- The part of a file name after its last dot. A name without a dot, or with
its only dot in front, has no extension. -/
def extensionOf? (name : String) : Option String :=
  let reversed := name.toList.reverse
  let stem := (reversed.dropWhile (· ≠ '.')).drop 1
  if stem.isEmpty || name == ".." then none
  else some (String.ofList (reversed.takeWhile (· ≠ '.')).reverse)

end ProviderMigration.Storage
