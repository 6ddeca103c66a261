import ProviderMigration.Ignore.Glob
import ProviderMigration.Text.Blank

/-!
# Ignored paths

An ignored path is written as a glob with some conventions. A slash in front ties
it to the directory that is walked; without one, and without a slash inside, the
glob may match at any depth. A slash at the end asks for a directory. Blanks at
the end do not count unless a backslash precedes the last one.

A file is left out when its path, or the path of a directory that it is in,
matches one of the patterns.
-/

namespace ProviderMigration.Ignore

structure Pattern where
  glob : Glob
  directoriesOnly : Bool

namespace Pattern

/-- A text without the blanks at its end. -/
def withoutFinalBlanks (text : List Char) : List Char :=
  if ['\\', ' '].isSuffixOf text then text
  else (text.reverse.dropWhile Text.isBlank).reverse

/-- A text without the slash at its end and a backslash in front of that. -/
def withoutFinalSlash (text : List Char) : List Char :=
  let text := text.dropLast
  if text.getLast? = some '\\' then text.dropLast else text

/-- The glob of a pattern that is tied to the directory or contains a slash, and
of one that may match at any depth. A glob for everything below a directory does
not match the directory itself. -/
def globText (anchored : Bool) (text : List Char) : List Char :=
  let anyDepth := "**/".toList
  let text :=
    if anchored || text.contains '/' || text = "**".toList then text else anyDepth ++ text
  if "/**".toList.isSuffixOf text then text ++ "/*".toList else text

/-- The pattern with the given text. -/
def ofText (text : String) : Except GlobError Pattern := do
  let text := withoutFinalBlanks text.toList
  let anchored := text.head? = some '/'
  let text := if anchored then text.drop 1 else text
  let directoriesOnly := text.getLast? = some '/'
  let text := if directoriesOnly then withoutFinalSlash text else text
  return ⟨← Glob.ofText (globText anchored text), directoriesOnly⟩

/-- Whether the pattern matches the file or directory with the given names. -/
def matchesNames (pattern : Pattern) (names : List String) (isDirectory : Bool) : Bool :=
  (isDirectory || !pattern.directoriesOnly) &&
    pattern.glob.matchesPath (Text.utf8 ("/".intercalate names).toList)

/-- Whether the file with the given names is left out. The names in `outer` stand
in front of those that are looked for. -/
def excludes (pattern : Pattern) (outer names : List String) : Bool :=
  (List.range names.length).any fun depth =>
    pattern.matchesNames (outer ++ names.take (depth + 1)) (depth + 1 < names.length)

end Pattern

end ProviderMigration.Ignore
