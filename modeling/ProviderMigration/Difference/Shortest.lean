import ProviderMigration.Difference.Frontier
import ProviderMigration.Difference.Script

/-!
# Shortest scripts

The script of two sequences keeps the items with which both start and with which
both end. What lies between is split where the two searches meet, and each part
has a script of its own. Whatever the searches answer, the result is a script
from the old sequence to the new one.
-/

namespace ProviderMigration.Difference.Script

variable {α : Type} [DecidableEq α]

/-- The script from `old` to `new`, with the frontiers that the searches leave.
A meeting place in a corner of the grid would leave the whole grid to one part,
so it counts as none. -/
def between (old new : List α) (frontiers : Frontiers) : Script α × Frontiers :=
  let head := commonPrefixLength old new
  let oldTail := old.drop head
  let newTail := new.drop head
  let foot := commonSuffixLength oldTail newTail
  let removed := oldTail.take (oldTail.length - foot)
  let added := newTail.take (newTail.length - foot)
  let (middle, frontiers) :=
    if removed.isEmpty ∧ added.isEmpty then ([], frontiers)
    else if added.isEmpty then ([.remove removed], frontiers)
    else if removed.isEmpty then ([.add added], frontiers)
    else
      let (frontiers, meeting?) := meeting? removed.toArray added.toArray frontiers
      match meeting? with
      | none => ([.remove removed, .add added], frontiers)
      | some (column, row) =>
          if 0 < column + row ∧ column + row < removed.length + added.length then
            let (first, frontiers) :=
              between (removed.take column) (added.take row) frontiers
            let (second, frontiers) :=
              between (removed.drop column) (added.drop row) frontiers
            (first ++ second, frontiers)
          else ([.remove removed, .add added], frontiers)
  (keeping (old.take head) ++ middle ++ keeping (oldTail.drop (oldTail.length - foot)),
    frontiers)
termination_by old.length + new.length
decreasing_by
  all_goals
    have removedFits : removed.length ≤ old.length := by
      simp only [removed, oldTail, List.length_take, List.length_drop]
      omega
    have addedFits : added.length ≤ new.length := by
      simp only [added, newTail, List.length_take, List.length_drop]
      omega
    have removedSome : removed.length ≠ 0 := by simp_all
    have addedSome : added.length ≠ 0 := by simp_all
    simp only [List.length_take, List.length_drop]
    omega

/-- The script from `old` to `new`. -/
def shortest (old new : List α) : Script α :=
  (between old new (.start old.length new.length)).1

end ProviderMigration.Difference.Script
