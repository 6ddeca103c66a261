/-!
# Where two searches meet

A shortest edit script is a path through a grid: a step right removes an item of
the old sequence, a step down adds one of the new sequence, and a diagonal step
keeps an item that both share. One search follows the paths from the start of
the grid and another one those from its end, each with one more edit per round.
The first place where they meet splits the grid into two smaller ones.

A frontier holds how far the paths on each diagonal have come. It is handed on
from grid to grid and never cleared, so what an earlier grid left in it can
steer the choice between equally short paths.
-/

namespace ProviderMigration.Difference

variable {α : Type}

/-- For each diagonal from `-radius` to `radius`, the furthest column reached. -/
structure Frontier where
  radius : Nat
  columns : Array Nat

namespace Frontier

/-- A frontier that has gone nowhere. -/
def start (radius : Nat) : Frontier :=
  ⟨radius, Array.replicate (2 * radius + 1) 0⟩

@[inline]
def get (frontier : Frontier) (diagonal : Int) : Nat :=
  frontier.columns.getD (diagonal + frontier.radius).toNat 0

@[inline]
def set (frontier : Frontier) (diagonal : Int) (column : Nat) : Frontier :=
  { frontier with
    columns := frontier.columns.setIfInBounds (diagonal + frontier.radius).toNat column }

end Frontier

/-- The number of equal items from the given column and row on. -/
@[specialize]
def commonLengthFrom [DecidableEq α] (old new : Array α) (column row : Nat) : Nat :=
  go 0 column row
where
  /-- `count` items have been found equal so far. -/
  go (count column row : Nat) : Nat :=
    if inside : column < old.size ∧ row < new.size then
      if old[column] = new[row] then go (count + 1) (column + 1) (row + 1) else count
    else count
  termination_by old.size - column

/-- A diagonal stretch of a path, from where an edit has led to it up to where
the items differ. Rows are integers because a path may leave the grid. -/
structure Snake where
  startColumn : Nat
  startRow : Int
  column : Nat
  row : Int

/-- The furthest path with `edits` edits on a diagonal, from the furthest paths
with one edit less on the diagonals beside it. -/
@[inline]
def Snake.furthest [DecidableEq α] (old new : Array α) (frontier : Frontier)
    (edits : Nat) (diagonal : Int) : Snake :=
  let below := frontier.get (diagonal - 1)
  let above := frontier.get (diagonal + 1)
  let column :=
    if diagonal = -edits ∨ (diagonal ≠ edits ∧ below < above) then above else below + 1
  let row : Int := column - diagonal
  let kept :=
    if column < old.size ∧ 0 ≤ row ∧ row < new.size then
      commonLengthFrom old new column row.toNat
    else 0
  ⟨column, row, column + kept, row + kept⟩

/-- One round of a search, on the `count` lowest of the diagonals that paths with
`edits` edits can end on, topmost first. With the frontier after it comes the
first path that meets the other search, when `slack` bounds how far from the
diagonal of the grid's far corner the other search has come; no slack, no
meeting. -/
@[specialize]
def sweep [DecidableEq α] (old new : Array α) (other : Frontier) (slack? : Option Int)
    (edits : Nat) : Nat → Frontier → Frontier × Option Snake
  | 0, mine => (mine, none)
  | count + 1, mine =>
      let diagonal : Int := 2 * count - edits
      let snake := Snake.furthest old new mine edits diagonal
      let mine := mine.set diagonal snake.column
      let offset := diagonal - ((old.size : Int) - new.size)
      let meets : Bool :=
        match slack? with
        | none => false
        | some slack =>
            (offset.natAbs : Int) ≤ slack && old.size ≤ snake.column + other.get (-offset)
      if meets then (mine, some snake)
      else sweep old new other slack? edits count mine

/-- The pair of frontiers of a grid. -/
structure Frontiers where
  forward : Frontier
  backward : Frontier

/-- Frontiers for the grid of two sequences with the given lengths. -/
def Frontiers.start (oldLength newLength : Nat) : Frontiers :=
  let radius := (oldLength + newLength + 1) / 2 + 1
  ⟨.start radius, .start radius⟩

/-- The column and row where the two searches meet. The backward search is a
forward search on the reversed sequences. When the lengths differ by an odd
number the searches meet in a forward round, and otherwise in a backward one. -/
@[specialize]
def meeting? [DecidableEq α] (old new : Array α) (frontiers : Frontiers) :
    Frontiers × Option (Nat × Nat) :=
  rounds old.reverse new.reverse ((old.size + new.size + 1) / 2 + 1) 0
    ⟨frontiers.forward.set 1 0, frontiers.backward.set 1 0⟩
where
  /-- Up to `left` more rounds, the first one with `edits` edits. -/
  rounds (oldBack newBack : Array α) (left edits : Nat) (frontiers : Frontiers) :
      Frontiers × Option (Nat × Nat) :=
    match left with
    | 0 => (frontiers, none)
    | left + 1 =>
        let odd := (old.size + new.size) % 2 = 1
        let (forward, snake?) := sweep old new frontiers.backward
          (if odd then some (edits - 1 : Int) else none) edits (edits + 1) frontiers.forward
        match snake? with
        | some snake =>
            (⟨forward, frontiers.backward⟩, some (snake.startColumn, snake.startRow.toNat))
        | none =>
            let (backward, snake?) := sweep oldBack newBack forward
              (if odd then none else some (edits : Int)) edits (edits + 1) frontiers.backward
            match snake? with
            | some snake =>
                (⟨forward, backward⟩,
                  some (old.size - snake.column, ((new.size : Int) - snake.row).toNat))
            | none => rounds oldBack newBack left (edits + 1) ⟨forward, backward⟩

end ProviderMigration.Difference
