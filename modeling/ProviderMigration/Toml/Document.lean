import ProviderMigration.Toml.Quoted
import ProviderMigration.Toml.Scalar

/-!
# TOML documents

A document is a sequence of lines. A line gives a value to a key of the current
table, or it is a header that makes another table the current one; it may also
be blank or hold only a comment. Arrays and inline tables may span lines.
-/

namespace ProviderMigration.Toml

/-- How deep arrays and inline tables may be nested. -/
def maxDepth : Nat := 80

/-- How many parts a key may have. -/
def maxKeyParts : Nat := 80

namespace Document

def isGap (c : Char) : Bool := c = ' ' || c = '\t'

/-- A text without the blanks at its start. -/
def skipGap (text : List Char) : List Char :=
  text.dropWhile isGap

/-- What follows a comment, which starts behind its mark and ends in front of a
line end. Comments hold no control characters. -/
def skipComment : List Char → Option (List Char)
  | [] => some []
  | '\n' :: rest => some ('\n' :: rest)
  | '\r' :: '\n' :: rest => some ('\n' :: rest)
  | c :: rest => if Quoted.isControl c then none else skipComment rest

/-- What follows a gap, a comment if there is one, and a line end. -/
def skipLineEnd (text : List Char) : Option (List Char) := do
  let rest := skipGap text
  let rest ← match rest with
    | '#' :: comment => skipComment comment
    | rest => some rest
  match rest with
  | [] => some []
  | '\n' :: rest => some rest
  | '\r' :: '\n' :: rest => some rest
  | _ => none

/-- What follows all gaps, comments and line ends. -/
def skipLines (inComment : Bool) : List Char → Option (List Char)
  | [] => some []
  | '\n' :: rest => skipLines false rest
  | '\r' :: '\n' :: rest => skipLines false rest
  | c :: rest =>
      if inComment then
        if Quoted.isControl c then none else skipLines true rest
      else if isGap c then skipLines false rest
      else if c = '#' then skipLines true rest
      else some (c :: rest)

def isKeyChar (c : Char) : Bool := c.isAlphanum || c = '_' || c = '-'

/-- One part of a key and what follows it. -/
def readKeyPart (text : List Char) : Option (String × List Char) :=
  let part := text.takeWhile isKeyChar
  if part.isEmpty then
    (Quoted.read?.readLine? text).map fun (part, rest) => (String.ofList part, rest)
  else some (String.ofList part, text.drop part.length)

/-- A key with at most `parts` parts, as those that lead to its last one and the
last one, and what follows the gap behind it. -/
def readKeyOf (parts : Nat) (text : List Char) :
    Option ((List String × String) × List Char) := do
  match parts with
  | 0 => none
  | parts + 1 =>
      let (part, rest) ← readKeyPart text
      match skipGap rest with
      | '.' :: rest =>
          let ((path, key), rest) ← readKeyOf parts (skipGap rest)
          return ((part :: path, key), rest)
      | rest => return (([], part), rest)

/-- A key and what follows the gap behind it. -/
def readKey (text : List Char) : Option ((List String × String) × List Char) :=
  readKeyOf maxKeyParts text

mutual

/-- A value and what follows it. No more than `fuel` calls are nested, which is
enough when it is more than twice the length of the text. -/
def readValue (fuel depth : Nat) (text : List Char) : Option (Value × List Char) :=
  match fuel with
  | 0 => none
  | fuel + 1 =>
      match text with
      | '[' :: rest =>
          match depth with
          | 0 => none
          | depth + 1 => do
              let (items, rest) ← readItems fuel depth [] rest
              return (.array items, rest)
      | '\x7b' :: rest =>
          match depth with
          | 0 => none
          | depth + 1 => do
              let (entries, rest) ← readEntries fuel depth [] rest
              return (.table .inline entries, rest)
      | text =>
          if text.head? = some '"' ∨ text.head? = some '\'' then
            (Quoted.read? text).map fun (content, rest) =>
              (.string (String.ofList content), rest)
          else Scalar.read? text

/-- The items of an array up to its closing bracket, behind those in `items`,
which are listed latest first. -/
def readItems (fuel depth : Nat) (items : List Value) (text : List Char) :
    Option (List Value × List Char) := do
  match fuel with
  | 0 => none
  | fuel + 1 =>
      match ← skipLines false text with
      | ']' :: rest => return (items.reverse, rest)
      | text =>
          let (item, rest) ← readValue fuel depth text
          match ← skipLines false rest with
          | ',' :: rest => readItems fuel depth (item :: items) rest
          | ']' :: rest => return ((item :: items).reverse, rest)
          | _ => none

/-- The entries of an inline table up to its closing brace, behind those in
`entries`. -/
def readEntries (fuel depth : Nat) (entries : Table) (text : List Char) :
    Option (Table × List Char) := do
  match fuel with
  | 0 => none
  | fuel + 1 =>
      match ← skipLines false text with
      | '\x7d' :: rest => return (entries, rest)
      | text =>
          let ((path, key), rest) ← readKey text
          match ← skipLines false rest with
          | '=' :: rest =>
              let (value, rest) ← readValue fuel depth (← skipLines false rest)
              let entries ← entries.assign path key value
              match ← skipLines false rest with
              | ',' :: rest => readEntries fuel depth entries rest
              | '\x7d' :: rest => return (entries, rest)
              | _ => none
          | _ => none

end

/-- A document that is being read. -/
structure Reader where
  root : Table := []
  /-- The keys that lead to the current table. -/
  current : List String := []

/-- The reader with a value given to a key of the current table. -/
def Reader.assign (reader : Reader) (path : List String) (key : String) (value : Value) :
    Option Reader := do
  let root ← Table.editAt false (fun _ table => table.assign path key value) false
    reader.current reader.root
  return { reader with root }

/-- Reads the line at the start of a text, which is not blank. Answers what
follows the line. Of `fuel`, more than twice the length of the text is enough. -/
def Reader.readLine (fuel : Nat) (reader : Reader) (text : List Char) :
    Option (Reader × List Char) := do
  match text with
  | '[' :: '[' :: rest =>
      let ((path, key), rest) ← readKey (skipGap rest)
      match rest with
      | ']' :: ']' :: rest =>
          return (⟨← reader.root.addToTables path key, path ++ [key]⟩, ← skipLineEnd rest)
      | _ => none
  | '[' :: rest =>
      let ((path, key), rest) ← readKey (skipGap rest)
      match rest with
      | ']' :: rest =>
          return (⟨← reader.root.addTable path key, path ++ [key]⟩, ← skipLineEnd rest)
      | _ => none
  | text =>
      let ((path, key), rest) ← readKey text
      match rest with
      | '=' :: rest =>
          let (value, rest) ← readValue fuel maxDepth (skipGap rest)
          return (← reader.assign path key value, ← skipLineEnd rest)
      | _ => none

/-- Reads all lines. Of `fuel`, more than twice the length of the text is enough. -/
def Reader.readAll (fuel : Nat) (reader : Reader) (text : List Char) : Option Table := do
  match fuel with
  | 0 => none
  | fuel + 1 =>
      match ← skipLines false text with
      | [] => return reader.root
      | text =>
          let (reader, rest) ← reader.readLine fuel text
          reader.readAll fuel rest

/-- The table that a document holds. A byte order mark may precede it. -/
def ofText? (text : List Char) : Option Table :=
  let text := match text with
    | '\uFEFF' :: rest => rest
    | text => text
  Reader.readAll (2 * text.length + 3) {} text

end Document

end ProviderMigration.Toml
