/-!
# Pieces of globs

A glob is a sequence of pieces, each of which stands for a stretch of a path.
Stretches are made of bytes, since wildcards stand for bytes of the UTF-8 form of
a path.
-/

namespace ProviderMigration.Ignore

/-- A part of a glob. -/
inductive Piece where
  | literal (c : Char)
  /-- One byte of a name. -/
  | anyByte
  /-- Any bytes of a name. -/
  | anyBytes
  /-- One byte that lies in one of the ranges, or in none of them. It may be a
  slash, unlike what the other wildcards stand for. -/
  | byteClass (negated : Bool) (ranges : List (UInt8 × UInt8))
  /-- Any number of directories in front of the path. -/
  | leadingDirectories
  /-- A slash, with any number of directories behind it. -/
  | innerDirectories
  /-- A slash and everything below it. -/
  | everythingBelow
  /-- A whole path. -/
  | everything
  /-- One of several sequences, or nothing when there are none. -/
  | alternatives (branches : List (List Piece))

namespace Piece

/-- The byte that separates names. -/
def slash : UInt8 := 0x2F

/-- Whether a piece can only stand for nothing. -/
def isBlank : Piece → Bool
  | .alternatives [] => true
  | _ => false

/-- A group of alternatives. Those that can only stand for nothing do not count. -/
def group (branches : List (List Piece)) : Piece :=
  .alternatives (branches.filter fun branch => !branch.all isBlank)

end Piece

end ProviderMigration.Ignore
