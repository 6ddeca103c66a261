import ProviderMigration.Console.Style
import ProviderMigration.Difference.Compaction
import ProviderMigration.Difference.Hunk
import ProviderMigration.Difference.Shortest

/-!
# Preview of a change

The preview of a changed text lists the lines that are removed and added, with
their numbers and some lines around them. Lines differ also when only their ends
do, but the ends are not shown.
-/

namespace ProviderMigration.Difference

open Console

/-- The lines of a text with their ends, which are a carriage return, a newline,
or one after the other. -/
def linesWithEnds (text : List Char) : List String :=
  (go [] [] text).map String.ofList
where
  /-- `done` holds the finished lines and `line` the characters of the current
  one, both latest first. -/
  go (done : List (List Char)) (line : List Char) : List Char → List (List Char)
    | [] => (if line.isEmpty then done else line.reverse :: done).reverse
    | '\r' :: '\n' :: rest => go (('\n' :: '\r' :: line).reverse :: done) [] rest
    | c :: rest =>
        if c = '\r' ∨ c = '\n' then go ((c :: line).reverse :: done) [] rest
        else go done (c :: line) rest

/-- A line without the carriage returns and newlines at its end. -/
def withoutEnds (line : List Char) : List Char :=
  (line.reverse.dropWhile fun c => c = '\r' || c = '\n').reverse

/-- The number of a line, right-aligned in four places. -/
def paddedNumber (number : Nat) : String :=
  let digits := toString number
  String.ofList (List.replicate (4 - digits.length) ' ') ++ digits

/-- One line of the preview. -/
def Row.render (colored : Bool) (row : Row String) : String :=
  let text := paddedNumber row.number ++ ": " ++ String.ofList (withoutEnds row.item.toList)
  match row.mark with
  | .kept => "  " ++ text
  | .removed => paint colored [.red] ("- " ++ text)
  | .added => paint colored [.green] ("+ " ++ text)

/-- The lines that separate hunks. -/
def hunkSeparator : String := "..."

/-- The script from the lines of one text to those of another. -/
def lineScript (old new : List Char) : Script String :=
  (Script.shortest (linesWithEnds old) (linesWithEnds new)).compact

/-- The preview of the change from one text to another. -/
def preview (colored : Bool) (old new : List Char) : String :=
  if old = new then "No changes detected."
  else
    let shown := (hunks (lineScript old new)).map fun hunk => hunk.map (Row.render colored)
    "\n".intercalate (shown.intersperse [hunkSeparator]).flatten

end ProviderMigration.Difference
