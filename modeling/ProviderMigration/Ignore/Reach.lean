import ProviderMigration.Ignore.Piece
import ProviderMigration.Text.Offset

/-!
# Matching a path

A path is matched from its start. After each piece of a glob there is a set of
places in the path that may have been reached, and the path matches when its end
is among them after the last piece. A set of places is kept as one mark for each
place, from the start of the path to its end, so that the work for a piece does
not grow with the number of ways to get somewhere.
-/

namespace ProviderMigration.Ignore

/-- For each place in a path, whether it may have been reached. -/
abbrev Reach := List Bool

namespace Reach

/-- Only the start of the path. -/
def start (path : List UInt8) : Reach :=
  true :: path.map fun _ => false

/-- What one or the other of two readings reaches. -/
def either (first second : Reach) : Reach :=
  List.zipWith (· || ·) first second

/-- What is reached by one more byte that is accepted. -/
def afterByte (accepts : UInt8 → Bool) (path : List UInt8) (reach : Reach) : Reach :=
  false :: List.zipWith (fun b reached => reached && accepts b) path reach

/-- What is reached by any number of bytes that are accepted. -/
def afterBytes (accepts : UInt8 → Bool) (path : List UInt8) (reach : Reach) : Reach :=
  go false path reach
where
  /-- Whether the first of the places left is reached from one before it. -/
  go (carried : Bool) : List UInt8 → Reach → Reach
    | b :: path, reached :: reach =>
        (carried || reached) :: go ((carried || reached) && accepts b) path reach
    | _, reach => reach.map (carried || ·)

/-- What is reached by any number of directories, each with its slash. -/
def afterDirectories (path : List UInt8) (reach : Reach) : Reach :=
  either reach (afterByte (· == Piece.slash) path (afterBytes (fun _ => true) path reach))

/-- Whether the end of the path is reached. -/
def atEnd (reach : Reach) : Bool :=
  reach.getLastD false

mutual

/-- What is reached by one piece. -/
def afterPiece (path : List UInt8) (reach : Reach) (piece : Piece) : Reach :=
  match piece with
  | .literal c => (Text.utf8 [c]).foldl (fun reach b => afterByte (· == b) path reach) reach
  | .anyByte => afterByte (· != Piece.slash) path reach
  | .anyBytes => afterBytes (· != Piece.slash) path reach
  | .byteClass negated ranges =>
      let isMember := fun b => ranges.any fun range => range.1 ≤ b && b ≤ range.2
      afterByte (fun b => isMember b != negated) path reach
  | .leadingDirectories => afterDirectories path reach
  | .innerDirectories => afterDirectories path (afterByte (· == Piece.slash) path reach)
  | .everythingBelow =>
      afterBytes (fun _ => true) path (afterByte (· == Piece.slash) path reach)
  | .everything => afterBytes (fun _ => true) path reach
  | .alternatives branches =>
      match branches with
      | [] => reach
      | branch :: branches =>
          either (afterPieces path reach branch) (afterBranches path reach branches)

/-- What is reached by some pieces in a row. -/
def afterPieces (path : List UInt8) (reach : Reach) (pieces : List Piece) : Reach :=
  match pieces with
  | [] => reach
  | piece :: pieces => afterPieces path (afterPiece path reach piece) pieces

/-- What is reached by one of several branches. -/
def afterBranches (path : List UInt8) (reach : Reach) (branches : List (List Piece)) : Reach :=
  match branches with
  | [] => reach.map fun _ => false
  | branch :: branches =>
      either (afterPieces path reach branch) (afterBranches path reach branches)

end

end Reach

end ProviderMigration.Ignore
