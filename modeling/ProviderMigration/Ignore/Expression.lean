import ProviderMigration.Ignore.Glob

/-!
# Globs as regular expressions

A glob says what a regular expression can say too, and it can be used only if the
expression does not nest too deep. A glob whose match comes down to comparing
texts needs no expression. One that ends in a file extension has an expression of
its own, and all others share one set, in which they are numbered.
-/

namespace ProviderMigration.Ignore

namespace Piece

/-! ## The text of an expression -/

/-- The characters that have a meaning of their own in an expression. -/
def isMeta (c : Char) : Bool :=
  ['\\', '.', '+', '*', '?', '(', ')', '|', '[', ']', '\x7b', '\x7d', '^', '$', '#', '&', '-',
    '~'].contains c

/-- A byte as an expression holds it. -/
def byteText (b : UInt8) : String :=
  if b < 0x80 then
    let c := Char.ofNat b.toNat
    if isMeta c then String.ofList ['\\', c] else c.toString
  else
    let digit := fun n => Char.ofNat (if n < 10 then '0'.toNat + n else 'a'.toNat + (n - 10))
    String.ofList ['\\', 'x', digit (b.toNat / 16), digit (b.toNat % 16)]

/-- A range of bytes as an expression holds it. -/
def rangeText (range : UInt8 × UInt8) : String :=
  if range.1 = range.2 then byteText range.1 else byteText range.1 ++ "-" ++ byteText range.2

mutual

/-- The expression for a piece. -/
def expression (piece : Piece) : String :=
  match piece with
  | .literal c => String.join ((Text.utf8 [c]).map byteText)
  | .anyByte => "[^/]"
  | .anyBytes => "[^/]*"
  | .byteClass negated ranges =>
      "[" ++ (if negated then "^" else "") ++ String.join (ranges.map rangeText) ++ "]"
  | .leadingDirectories => "(?:/?|.*/)"
  | .innerDirectories => "(?:/|/.*/)"
  | .everythingBelow => "/.*"
  | .everything => ".*"
  | .alternatives branches =>
      match branches with
      | [] => ""
      | branch :: branches => "(?:" ++ expressionOfAll branch ++ expressionOfOthers branches ++ ")"

/-- The expression for some pieces in a row. -/
def expressionOfAll (pieces : List Piece) : String :=
  match pieces with
  | [] => ""
  | piece :: pieces => expression piece ++ expressionOfAll pieces

/-- The expression for the alternatives behind the first one. -/
def expressionOfOthers (branches : List (List Piece)) : String :=
  match branches with
  | [] => ""
  | branch :: branches => "|" ++ expressionOfAll branch ++ expressionOfOthers branches

end

/-! ## How deep an expression nests -/

/-- How many items of an expression a piece comes to. -/
def items : Piece → Nat
  | .literal c => c.utf8Size
  | .everythingBelow => 2
  | .alternatives [] => 0
  | _ => 1

/-- A row of items, or a choice among them, is a level of its own unless there is
only one. -/
def levelOf (items : Nat) : Nat := if items ≤ 1 then 0 else 1

/-- The level that some pieces in a row add. -/
def levelOfRow (pieces : List Piece) : Nat :=
  levelOf (pieces.foldl (fun count piece => count + piece.items) 0)

mutual

/-- How many levels the expression for a piece nests. A group, a repetition, a
class, and a class of several members add one each. -/
def depth (piece : Piece) : Nat :=
  match piece with
  | .literal _ => 0
  | .anyByte => 1
  | .anyBytes => 2
  | .byteClass _ ranges => 1 + levelOf ranges.length
  | .leadingDirectories => 4
  | .innerDirectories => 4
  | .everythingBelow => 1
  | .everything => 1
  | .alternatives branches =>
      match branches with
      | [] => 0
      | branch :: branches =>
          1 + levelOf (branches.length + 1) +
            max (levelOfRow branch + depthOfAll branch) (depthOfOthers branches)

/-- The levels of the deepest of some pieces. -/
def depthOfAll (pieces : List Piece) : Nat :=
  match pieces with
  | [] => 0
  | piece :: pieces => max (depth piece) (depthOfAll pieces)

/-- The levels of the deepest of some alternatives. -/
def depthOfOthers (branches : List (List Piece)) : Nat :=
  match branches with
  | [] => 0
  | branch :: branches =>
      max (levelOfRow branch + depthOfAll branch) (depthOfOthers branches)

end

def isLiteral : Piece → Bool
  | .literal _ => true
  | _ => false

/-- Whether a piece is a character that an extension can hold. -/
def isExtensionLiteral : Piece → Bool
  | .literal c => c ≠ '.' && c ≠ '/'
  | _ => false

/-- Whether some pieces, listed latest first, end in an extension. -/
def endInExtension : List Piece → Bool
  | [] => false
  | piece :: pieces =>
      match piece with
      | .literal '.' => true
      | piece => piece.isExtensionLiteral && endInExtension pieces

end Piece

/-- How a glob is put to use. -/
inductive GlobUse where
  /-- By comparing texts. -/
  | comparison
  /-- With an expression of its own. -/
  | ownExpression
  /-- With one of the expressions of a set. -/
  | sharedExpression
  deriving DecidableEq, Repr

namespace Glob

/-- Whether a match comes down to comparing a text with a path, its last name, the
extension of that, its start or its end. -/
def isComparison (glob : Glob) : Bool :=
  match glob.pieces with
  | [] => false
  | .leadingDirectories :: .anyBytes :: .literal '.' :: rest => rest.all Piece.isExtensionLiteral
  | .leadingDirectories :: rest => !rest.isEmpty && rest.all Piece.isLiteral
  | pieces =>
      match pieces.getLast? with
      | some .everythingBelow => pieces.dropLast.all Piece.isLiteral
      | _ => pieces.all Piece.isLiteral

def use (glob : Glob) : GlobUse :=
  if glob.isComparison then .comparison
  else if Piece.endInExtension glob.pieces.reverse then .ownExpression
  else .sharedExpression

/-- The expression for a whole path. -/
def expression (glob : Glob) : String :=
  "(?-u)^" ++ Piece.expressionOfAll glob.pieces ++ "$"

/-- How many levels an expression may nest. -/
def maxDepth : Nat := 250

/-- Whether the expression for a whole path nests too deep. Its items stand in a
row with the marks for the start and the end of the path. -/
def isTooDeep (glob : Glob) : Bool :=
  1 + Piece.depthOfAll glob.pieces > maxDepth

end Glob

/-- An expression that nests too deep. -/
inductive ExpressionError where
  | own (expression : String)
  /-- The expression with the given number in the set. -/
  | shared (number : Nat)
  deriving DecidableEq, Repr

namespace ExpressionError

def message : ExpressionError → String
  | .own expression => "error parsing glob '" ++ expression ++ "': error parsing pattern 0"
  | .shared number => "error parsing pattern " ++ toString number

/-- Why some globs cannot be used together. Those with an expression of their own
are looked at first. -/
def find? (globs : List Glob) : Option ExpressionError :=
  match globs.find? fun glob => glob.use = .ownExpression && glob.isTooDeep with
  | some glob => some (.own glob.expression)
  | none =>
      ((globs.filter (·.use = .sharedExpression)).findIdx? (·.isTooDeep)).map .shared

end ExpressionError

end ProviderMigration.Ignore
