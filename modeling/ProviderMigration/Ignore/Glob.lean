import ProviderMigration.Ignore.Reach

/-!
# Globs

A glob describes paths. `?` stands for one byte of a name and `*` for any number
of them, a class in brackets for one byte of a set, and `**` in place of a whole
name for any number of directories. Alternatives stand in braces and may be
nested. A backslash takes the next character literally. Of the wildcards, only
`**` and a class get past a slash.
-/

namespace ProviderMigration.Ignore

/-- Why a glob cannot be read. -/
inductive GlobError where
  | unclosedClass
  | invalidRange (first last : Char)
  | unopenedAlternates
  | unclosedAlternates
  | danglingEscape
  deriving DecidableEq, Repr

def GlobError.message : GlobError → String
  | .unclosedClass => "unclosed character class; missing ']'"
  | .invalidRange first last =>
      "invalid range; '" ++ first.toString ++ "' > '" ++ last.toString ++ "'"
  | .unopenedAlternates =>
      "unopened alternate group; missing '\x7b' (maybe escape '\x7d' with '[\x7d]'?)"
  | .unclosedAlternates =>
      "unclosed alternate group; missing '\x7d' (maybe escape '\x7b' with '[\x7b]'?)"
  | .danglingEscape => "dangling '\\'"

/-- What stands for a path as a whole. -/
structure Glob where
  pieces : List Piece

/-- A class that is being read. -/
structure ClassReader where
  /-- Nothing has been read yet, so a negation may follow. -/
  fresh : Bool := true
  negated : Bool := false
  /-- No member has been read yet, so a closing bracket is a member. -/
  first : Bool := true
  /-- A dash has been read that may join two members. -/
  joining : Bool := false
  /-- The ranges of members, latest first. -/
  ranges : List (Char × Char) := []

namespace ClassReader

/-- One more member, which ends a range after a dash. -/
def add (reader : ClassReader) (c : Char) : Except GlobError ClassReader :=
  match reader.joining, reader.ranges with
  | true, (first, _) :: ranges =>
      if c < first then .error (.invalidRange first c)
      else .ok { reader with ranges := (first, c) :: ranges, joining := false }
  | _, ranges => .ok { reader with ranges := (c, c) :: ranges, joining := false }

/-- The bytes of a range of characters. A range joins the last byte of its first
character to the first byte of its last one. -/
def byteRanges (range : Char × Char) : List (UInt8 × UInt8) :=
  let first := Text.utf8 [range.1]
  let last := Text.utf8 [range.2]
  if range.1 = range.2 then first.map fun b => (b, b)
  else
    (first.dropLast.map fun b => (b, b)) ++
      [(first.getLast?.getD 0, last.head?.getD 0)] ++ (last.drop 1).map fun b => (b, b)

/-- The piece that the class is. A dash at its end is a member. -/
def piece (reader : ClassReader) : Piece :=
  let ranges := if reader.joining then ('-', '-') :: reader.ranges else reader.ranges
  .byteClass reader.negated (ranges.reverse.flatMap byteRanges)

/-- Reads one character. The answer is a piece once the class is closed. -/
def read (reader : ClassReader) (c : Char) : Except GlobError (ClassReader ⊕ Piece) :=
  if reader.fresh && (c == '!' || c == '^') then
    .ok (.inl { reader with fresh := false, negated := true })
  else if c = ']' && !reader.first then .ok (.inr reader.piece)
  else if c = '-' && !reader.first && !reader.joining then
    .ok (.inl { reader with joining := true })
  else do
    let reader ← reader.add c
    return .inl { reader with fresh := false, first := false }

end ClassReader

/-- A group of alternatives that is being read. -/
structure OpenGroup where
  /-- The pieces in front of the group, latest first. -/
  before : List Piece
  /-- The alternatives that are complete, latest first. -/
  complete : List (List Piece) := []

/-- A glob that is being read. -/
structure Reader where
  /-- The open groups, innermost first. -/
  groups : List OpenGroup := []
  /-- The pieces of the innermost alternative, or of the glob, latest first. -/
  branch : List Piece := []
  /-- The class that is being read. -/
  class? : Option ClassReader := none
  /-- The character read last. -/
  last? : Option Char := none

namespace Reader

def push (reader : Reader) (piece : Piece) : Reader :=
  { reader with branch := piece :: reader.branch }

/-- Opens a group. -/
def openGroup (reader : Reader) : Reader :=
  { reader with groups := { before := reader.branch } :: reader.groups, branch := [] }

/-- Starts the next alternative; outside of groups a comma is literal. -/
def nextAlternative (reader : Reader) : Reader :=
  match reader.groups with
  | [] => reader.push (.literal ',')
  | group :: groups =>
      let complete := reader.branch.reverse :: group.complete
      { reader with groups := { group with complete } :: groups, branch := [] }

/-- Closes the innermost group. -/
def closeGroup (reader : Reader) : Except GlobError Reader :=
  match reader.groups with
  | [] => .error .unopenedAlternates
  | group :: groups =>
      let branches := (reader.branch.reverse :: group.complete).reverse
      .ok { reader with groups, branch := .group branches :: group.before }

/-- The reader with its last piece, which is a slash, taken up by the directories
behind it. Where directories stand there already they stay. -/
def pushDirectories (reader : Reader) (directories : Piece) : Reader :=
  match reader.branch with
  | .leadingDirectories :: _ => reader
  | .everythingBelow :: _ => reader
  | branch => { reader with branch := directories :: branch.drop 1 }

/-- What two stars mean. -/
inductive Stars where
  /-- The same as one star. -/
  | bytes
  /-- Directories in front of the path, with the slash that may follow. -/
  | leading
  /-- Directories inside the path, with the slash that follows. -/
  | inner
  /-- Everything below a directory. -/
  | below
  deriving DecidableEq, Repr

/-- What two stars mean when `next?` is the character behind them. -/
def stars (reader : Reader) (next? : Option Char) : Stars :=
  let grouped := !reader.groups.isEmpty
  if reader.branch.isEmpty then
    if next? = none ∨ next? = some '/' then .leading else .bytes
  else if reader.last? ≠ some '/' ∧
      !(grouped && (reader.last? == some ',' || reader.last? == some '\x7b')) then .bytes
  else if next? = none then .below
  else if grouped ∧ (next? = some ',' ∨ next? = some '\x7d') then .below
  else if next? = some '/' then .inner
  else .bytes

/-- Reads the rest of a glob. -/
def readAll (reader : Reader) : List Char → Except GlobError Reader
  | [] => .ok reader
  | c :: rest =>
      match reader.class? with
      | some classReader =>
          match classReader.read c with
          | .error error => .error error
          | .ok (.inl classReader) => readAll { reader with class? := some classReader } rest
          | .ok (.inr piece) =>
              readAll { reader.push piece with class? := none, last? := some c } rest
      | none =>
          let read := { reader with last? := some c }
          match c, rest with
          | '?', rest => readAll (read.push .anyByte) rest
          | '[', rest => readAll { read with class? := some {} } rest
          | '\x7b', rest => readAll read.openGroup rest
          | '\x7d', rest => do readAll (← read.closeGroup) rest
          | ',', rest => readAll read.nextAlternative rest
          | '\\', [] => .error .danglingEscape
          | '\\', c :: rest => readAll { read.push (.literal c) with last? := some c } rest
          | '*', '*' :: rest =>
              match reader.stars rest.head?, rest with
              | .bytes, rest => readAll ((read.push .anyBytes).push .anyBytes) rest
              | .leading, [] => .ok (read.push .leadingDirectories)
              | .leading, next :: rest =>
                  readAll { read.push .leadingDirectories with last? := some next } rest
              | .below, rest => readAll (read.pushDirectories .everythingBelow) rest
              | .inner, [] => .ok (read.pushDirectories .innerDirectories)
              | .inner, next :: rest =>
                  readAll { read.pushDirectories .innerDirectories with last? := some next } rest
          | '*', rest => readAll (read.push .anyBytes) rest
          | c, rest => readAll (read.push (.literal c)) rest

/-- The glob that was read. Two stars alone stand for every path. -/
def glob (reader : Reader) : Except GlobError Glob :=
  if reader.class?.isSome then .error .unclosedClass
  else if !reader.groups.isEmpty then .error .unclosedAlternates
  else
    match reader.branch with
    | [.leadingDirectories] => .ok ⟨[.everything]⟩
    | branch => .ok ⟨branch.reverse⟩

end Reader

namespace Glob

/-- The glob with the given text. -/
def ofText (text : List Char) : Except GlobError Glob := do
  (← Reader.readAll {} text).glob

/-- Whether the glob matches a path. -/
def matchesPath (glob : Glob) (path : List UInt8) : Bool :=
  Reach.atEnd (Reach.afterPieces path (Reach.start path) glob.pieces)

end Glob

end ProviderMigration.Ignore
