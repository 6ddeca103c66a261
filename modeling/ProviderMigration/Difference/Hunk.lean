import ProviderMigration.Difference.Script

/-!
# Hunks

A script is shown as hunks: its changes, each with up to two kept items on
either side. Between two kept items a change shows its removals first. Kept and
added items have their number in the new sequence, and removed ones theirs in
the old sequence.
-/

namespace ProviderMigration.Difference

variable {α : Type}

/-- The fate of an item that is shown. -/
inductive Mark where
  | kept
  | removed
  | added
  deriving DecidableEq, Repr

/-- An item with its fate and its number, counted from one. -/
structure Row (α : Type) where
  mark : Mark
  number : Nat
  item : α
  deriving DecidableEq, Repr

/-- Kept items, or everything that is removed and added between kept items. -/
inductive Chunk (α : Type) where
  | same (items : List α)
  | change (removed added : List α)
  deriving DecidableEq, Repr

/-- Neighbouring runs taken together. -/
def Chunk.ofScript (script : Script α) : List (Chunk α) :=
  script.foldr join []
where
  /-- A run in front of some chunks. -/
  join (run : Run α) (chunks : List (Chunk α)) : List (Chunk α) :=
    match run, chunks with
    | .keep items, .same following :: rest => .same (items ++ following) :: rest
    | .keep items, rest => .same items :: rest
    | .remove items, .change removed added :: rest => .change (items ++ removed) added :: rest
    | .remove items, rest => .change items [] :: rest
    | .add items, .change removed added :: rest => .change removed (items ++ added) :: rest
    | .add items, rest => .change [] items :: rest

/-- Items numbered from `number` on. -/
def Row.numbered (mark : Mark) (number : Nat) (items : List α) : List (Row α) :=
  items.zipIdx number |>.map fun (item, number) => ⟨mark, number, item⟩

/-- The rows of a chunk, with whether it is a change. The numbers are those of
the next old and the next new item. -/
structure Stretch (α : Type) where
  changed : Bool
  rows : List (Row α)
  deriving DecidableEq, Repr

/-- The stretches of the given chunks, when the next items have the given
numbers. -/
def Stretch.ofChunks (old new : Nat) : List (Chunk α) → List (Stretch α)
  | [] => []
  | .same items :: rest =>
      ⟨false, Row.numbered .kept new items⟩ ::
        ofChunks (old + items.length) (new + items.length) rest
  | .change removed added :: rest =>
      ⟨true, Row.numbered .removed old removed ++ Row.numbered .added new added⟩ ::
        ofChunks (old + removed.length) (new + added.length) rest

/-- How many kept items are shown on either side of a change. -/
def contextSize : Nat := 2

/-- The stretches without the kept items that are far from every change at the
start and at the end. -/
def Stretch.trim (stretches : List (Stretch α)) : List (Stretch α) :=
  trimEnd (trimStart stretches)
where
  trimStart : List (Stretch α) → List (Stretch α)
    | ⟨false, rows⟩ :: rest => ⟨false, rows.drop (rows.length - contextSize)⟩ :: rest
    | stretches => stretches
  trimEnd (stretches : List (Stretch α)) : List (Stretch α) :=
    match stretches.getLast? with
    | some ⟨false, rows⟩ => stretches.dropLast ++ [⟨false, rows.take contextSize⟩]
    | _ => stretches

/-- The hunks of a script. A long stretch of kept items ends one hunk and starts
the next. -/
def hunks (script : Script α) : List (List (Row α)) :=
  go [] [] (Stretch.trim (Stretch.ofChunks 1 1 (Chunk.ofScript script)))
where
  /-- `done` holds the finished hunks, latest first, and `hunk` the stretches of
  the current one, latest first. A hunk without a change is not shown. -/
  go (done : List (List (Row α))) (hunk : List (Stretch α)) :
      List (Stretch α) → List (List (Row α))
    | [] => (if hunk.any (·.changed) then close hunk :: done else done).reverse
    | ⟨changed, rows⟩ :: rest =>
        if !changed && 2 * contextSize < rows.length then
          go (close (⟨false, rows.take contextSize⟩ :: hunk) :: done)
            [⟨false, rows.drop (rows.length - contextSize)⟩] rest
        else go done (⟨changed, rows⟩ :: hunk) rest
  /-- The rows of a hunk. -/
  close (hunk : List (Stretch α)) : List (Row α) :=
    hunk.reverse.flatMap (·.rows)

end ProviderMigration.Difference
