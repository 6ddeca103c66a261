import ProviderMigration.Difference.Frontier

/-!
# How far a search has come

With each further edit a search comes to new diagonals of the grid, and on each of them as far
as any path with that many edits does. A path may leave the grid, where nothing is kept. As long
as the two searches have not met, no path that leaves the grid comes into the range in which a
meeting is looked for: the edits spent outside would have led to a meeting before.
-/

namespace ProviderMigration.Difference

variable {α : Type} [DecidableEq α] {old new : Array α}

/-- The diagonals on which paths with so many edits end. -/
def OnRound (edits : Nat) (diagonal : Int) : Prop :=
  diagonal.natAbs ≤ edits ∧ (diagonal + edits) % 2 = 0

/-- The number of items that are kept from the given column on. -/
def keptFrom (old new : Array α) (diagonal : Int) (column : Nat) : Nat :=
  if column < old.size ∧ 0 ≤ column - diagonal ∧ column - diagonal < new.size then
    commonLengthFrom old new column (column - diagonal).toNat
  else 0

/-- The column in which a path comes to a diagonal from the further one of the diagonals beside
it. -/
def enter (edits : Nat) (diagonal : Int) (below above : Nat) : Nat :=
  if diagonal = -edits ∨ (diagonal ≠ edits ∧ below < above) then above else below + 1

/-- The furthest column of a path with so many edits on a diagonal. -/
def reach (old new : Array α) : (edits : Nat) → (diagonal : Int) → Nat
  | 0, diagonal => keptFrom old new diagonal 0
  | edits + 1, diagonal =>
      let column := enter (edits + 1) diagonal (reach old new edits (diagonal - 1))
        (reach old new edits (diagonal + 1))
      column + keptFrom old new diagonal column

/-- The column in which the furthest path comes to its last diagonal. -/
def entry (old new : Array α) : (edits : Nat) → (diagonal : Int) → Nat
  | 0, _ => 0
  | edits + 1, diagonal =>
      enter (edits + 1) diagonal (reach old new edits (diagonal - 1))
        (reach old new edits (diagonal + 1))

theorem reach_eq (old new : Array α) (edits : Nat) (diagonal : Int) :
    reach old new edits diagonal =
      entry old new edits diagonal + keptFrom old new diagonal (entry old new edits diagonal) := by
  cases edits with
  | zero => rw [reach, entry, Nat.zero_add]
  | succ edits => rfl

/-! ## Items that are kept -/

private theorem commonLengthFrom_go_spec (old new : Array α) (count column row : Nat) :
    ∃ length, commonLengthFrom.go old new count column row = count + length ∧
      ∀ place < length, column + place < old.size ∧ row + place < new.size ∧
        old[column + place]? = new[row + place]? := by
  fun_induction commonLengthFrom.go old new count column row with
  | case1 count column row inside same ih =>
      obtain ⟨length, total, shared⟩ := ih
      refine ⟨length + 1, by omega, fun place within => ?_⟩
      cases place with
      | zero => exact ⟨inside.1, inside.2, by simp [inside, same]⟩
      | succ place =>
          have here := shared place (by omega)
          rw [Nat.add_right_comm, Nat.add_right_comm row] at here
          exact here
  | case2 => exact ⟨0, rfl, fun place within => absurd within (Nat.not_lt_zero place)⟩
  | case3 => exact ⟨0, rfl, fun place within => absurd within (Nat.not_lt_zero place)⟩

/-- What is kept lies within the grid and is the same in both sequences. -/
theorem keptFrom_spec (old new : Array α) (diagonal : Int) (column : Nat) :
    ∀ place < keptFrom old new diagonal column, ∃ row : Nat, (row : Int) = column - diagonal ∧
      column + place < old.size ∧ row + place < new.size ∧
        old[column + place]? = new[row + place]? := by
  intro place within
  rw [keptFrom] at within
  split at within
  next inside =>
    obtain ⟨length, total, shared⟩ :=
      commonLengthFrom_go_spec old new 0 column (column - diagonal).toNat
    rw [commonLengthFrom, total, Nat.zero_add] at within
    exact ⟨(column - diagonal).toNat, by omega, shared place within⟩
  next => exact absurd within (Nat.not_lt_zero place)

/-- Either nothing is kept, or a path stays within the grid. -/
theorem keptFrom_cases (old new : Array α) (diagonal : Int) (column : Nat) :
    keptFrom old new diagonal column = 0 ∨
      column + keptFrom old new diagonal column ≤ old.size ∧
        column + keptFrom old new diagonal column - diagonal ≤ new.size := by
  rcases Nat.eq_zero_or_pos (keptFrom old new diagonal column) with none | some
  · exact .inl none
  · obtain ⟨row, split, left, right, -⟩ := keptFrom_spec old new diagonal column
      (keptFrom old new diagonal column - 1) (by omega)
    exact .inr (by omega)

/-! ## Paths of neighbouring diagonals -/

theorem entry_le_reach (old new : Array α) (edits : Nat) (diagonal : Int) :
    entry old new edits diagonal ≤ reach old new edits diagonal := by
  rw [reach_eq]
  exact Nat.le_add_right _ _

/-- The last edit adds an item or removes one. -/
theorem entry_cases (old new : Array α) {edits : Nat} {diagonal : Int}
    (on : OnRound (edits + 1) diagonal) :
    OnRound edits (diagonal + 1) ∧
        entry old new (edits + 1) diagonal = reach old new edits (diagonal + 1) ∨
      OnRound edits (diagonal - 1) ∧
        entry old new (edits + 1) diagonal = reach old new edits (diagonal - 1) + 1 := by
  unfold OnRound at on ⊢
  rw [entry, enter]
  split
  next => exact .inl ⟨by omega, rfl⟩
  next => exact .inr ⟨by omega, rfl⟩

theorem reach_above_le (old new : Array α) {edits : Nat} {diagonal : Int}
    (on : OnRound edits (diagonal + 1)) :
    reach old new edits (diagonal + 1) ≤ reach old new (edits + 1) diagonal := by
  refine Nat.le_trans ?_ (entry_le_reach old new (edits + 1) diagonal)
  unfold OnRound at on
  rw [entry, enter]
  split <;> omega

theorem reach_below_lt (old new : Array α) {edits : Nat} {diagonal : Int}
    (on : OnRound edits (diagonal - 1)) :
    reach old new edits (diagonal - 1) < reach old new (edits + 1) diagonal := by
  refine Nat.lt_of_lt_of_le ?_ (entry_le_reach old new (edits + 1) diagonal)
  unfold OnRound at on
  rw [entry, enter]
  split <;> omega

/-- No path comes above the grid. -/
theorem le_reach (old new : Array α) {edits : Nat} {diagonal : Int} (on : OnRound edits diagonal) :
    diagonal ≤ reach old new edits diagonal := by
  induction edits generalizing diagonal with
  | zero =>
      unfold OnRound at on
      omega
  | succ edits ih =>
      rcases entry_cases old new on with ⟨before, -⟩ | ⟨before, -⟩
      · have above := ih before
        have further := reach_above_le old new before
        omega
      · have below := ih before
        have further := reach_below_lt old new before
        omega

/-- A path with an edit neither starts its last snake above the grid nor at its start. -/
theorem entry_spec (old new : Array α) {edits : Nat} {diagonal : Int} (some : 0 < edits)
    (on : OnRound edits diagonal) :
    diagonal ≤ entry old new edits diagonal ∧
      0 < entry old new edits diagonal + (entry old new edits diagonal - diagonal) := by
  cases edits with
  | zero => contradiction
  | succ edits =>
      rcases entry_cases old new on with ⟨before, same⟩ | ⟨before, same⟩
      · have above := le_reach old new before
        omega
      · have below := le_reach old new before
        omega

/-! ## Paths that leave the grid -/

/-- A path that stays in the grid and comes at least as far as one that goes `right` columns and
`below` rows beyond it. It saves the edits that the other one spends outside. -/
structure Clamped (old new : Array α) (edits : Nat) (diagonal : Int) (fewer right below : Nat) :
    Prop where
  spent : fewer + right + below = edits
  right_eq : right = reach old new edits diagonal - old.size
  below_eq : below = (reach old new edits diagonal - diagonal - new.size : Int).toNat
  round : OnRound fewer (diagonal - right + below)
  far : reach old new edits diagonal ≤ reach old new fewer (diagonal - right + below) + right

theorem Clamped.inside {edits : Nat} {diagonal : Int} (on : OnRound edits diagonal)
    (left : reach old new edits diagonal ≤ old.size)
    (above : (reach old new edits diagonal - diagonal : Int) ≤ new.size) :
    Clamped old new edits diagonal edits 0 0 :=
  ⟨rfl, by omega, by omega, by simpa using on, by simp⟩

/-- A step down outside the grid is saved; one inside of it can be taken by the shorter path. -/
theorem Clamped.down {edits : Nat} {diagonal : Int} {fewer right below : Nat}
    (clamped : Clamped old new edits (diagonal + 1) fewer right below)
    (same : reach old new (edits + 1) diagonal = reach old new edits (diagonal + 1)) :
    ∃ fewer below, Clamped old new (edits + 1) diagonal fewer right below := by
  obtain ⟨spent, right_eq, below_eq, round, far⟩ := clamped
  by_cases out : (new.size : Int) < reach old new (edits + 1) diagonal - diagonal
  · have place : diagonal - right + (below + 1 : Nat) = diagonal + 1 - right + below := by omega
    refine ⟨fewer, below + 1, by omega, by omega, by omega, place ▸ round, ?_⟩
    rw [place, same]
    exact far
  · have place : diagonal + 1 - right + below = diagonal - right + (0 : Nat) + 1 := by omega
    rw [place] at round far
    refine ⟨fewer + 1, 0, by omega, by omega, by omega, ?_, ?_⟩
    · unfold OnRound at round ⊢
      omega
    · have further := reach_above_le old new round
      omega

/-- A step to the right outside the grid is saved; one inside of it can be taken by the shorter
path. -/
theorem Clamped.rightward {edits : Nat} {diagonal : Int} {fewer right below : Nat}
    (clamped : Clamped old new edits (diagonal - 1) fewer right below)
    (same : reach old new (edits + 1) diagonal = reach old new edits (diagonal - 1) + 1) :
    ∃ fewer right, Clamped old new (edits + 1) diagonal fewer right below := by
  obtain ⟨spent, right_eq, below_eq, round, far⟩ := clamped
  by_cases out : old.size < reach old new (edits + 1) diagonal
  · have place : diagonal - (right + 1 : Nat) + below = diagonal - 1 - right + below := by omega
    exact ⟨fewer, right + 1, by omega, by omega, by omega, place ▸ round, by rw [place]; omega⟩
  · have place : diagonal - 1 - right + below = diagonal - (0 : Nat) + below - 1 := by omega
    rw [place] at round far
    refine ⟨fewer + 1, 0, by omega, by omega, by omega, ?_, ?_⟩
    · unfold OnRound at round ⊢
      omega
    · have further := reach_below_lt old new round
      omega

theorem exists_clamped (old new : Array α) {edits : Nat} {diagonal : Int}
    (on : OnRound edits diagonal) :
    ∃ fewer right below, Clamped old new edits diagonal fewer right below := by
  induction edits generalizing diagonal with
  | zero =>
      have here := keptFrom_cases old new diagonal 0
      refine ⟨0, 0, 0, .inside on ?_ ?_⟩ <;> unfold OnRound at on <;> rw [reach] <;> omega
  | succ edits ih =>
      have total := reach_eq old new (edits + 1) diagonal
      rcases keptFrom_cases old new diagonal (entry old new (edits + 1) diagonal) with none | some
      · rw [none, Nat.add_zero] at total
        rcases entry_cases old new on with ⟨before, same⟩ | ⟨before, same⟩
        · obtain ⟨fewer, right, below, clamped⟩ := ih before
          obtain ⟨fewer, below, clamped⟩ := clamped.down (total.trans same)
          exact ⟨fewer, right, below, clamped⟩
        · obtain ⟨fewer, right, below, clamped⟩ := ih before
          obtain ⟨fewer, right, clamped⟩ := clamped.rightward (total.trans same)
          exact ⟨fewer, right, below, clamped⟩
      · exact ⟨edits + 1, 0, 0, .inside on (by omega) (by omega)⟩

/-! ## Searches that have not met -/

/-- Before this round the one search has met the other on no diagonal of the range that the other
had then come to. The other one is `lag` rounds behind. -/
def Unmet (old new : Array α) (other : Nat → Int → Nat) (lag round : Nat) : Prop :=
  ∀ edits < round, ∀ diagonal, OnRound edits diagonal →
    (diagonal - (old.size - new.size)).natAbs + lag ≤ edits →
      reach old new edits diagonal + other (edits - lag) (old.size - new.size - diagonal) < old.size

theorem Unmet.start (old new : Array α) (other : Nat → Int → Nat) (lag : Nat) :
    Unmet old new other lag 0 :=
  fun _ before => absurd before (Nat.not_lt_zero _)

/-- A round without a meeting is one more round before which there has been none. -/
theorem Unmet.succ {other : Nat → Int → Nat} {lag round : Nat}
    (unmet : Unmet old new other lag round)
    (none : ∀ diagonal, OnRound round diagonal →
      (diagonal - (old.size - new.size)).natAbs + lag ≤ round →
        reach old new round diagonal + other (round - lag) (old.size - new.size - diagonal) <
          old.size) :
    Unmet old new other lag (round + 1) := by
  intro edits before
  rcases Nat.lt_or_eq_of_le (Nat.le_of_lt_succ before) with earlier | rfl
  · exact unmet edits earlier
  · exact none

/-- Sequences with no item in common at their starts and none at their ends. -/
structure Apart (old new : Array α) : Prop where
  old_pos : 0 < old.size
  new_pos : 0 < new.size
  first : old[0]? ≠ new[0]?
  last : old[old.size - 1]? ≠ new[new.size - 1]?

namespace Apart

omit [DecidableEq α] in
theorem reverse (apart : Apart old new) : Apart old.reverse new.reverse where
  old_pos := by simpa using apart.old_pos
  new_pos := by simpa using apart.new_pos
  first := by
    rw [Array.getElem?_reverse apart.old_pos, Array.getElem?_reverse apart.new_pos]
    exact apart.last
  last := by
    have left := apart.old_pos
    have below := apart.new_pos
    rw [Array.size_reverse, Array.size_reverse, Array.getElem?_reverse (by omega),
      Array.getElem?_reverse (by omega), Nat.sub_self, Nat.sub_self]
    exact apart.first

/-- The search starts with an edit. -/
theorem reach_zero (apart : Apart old new) : reach old new 0 0 = 0 := by
  rw [reach]
  rcases Nat.eq_zero_or_pos (keptFrom old new 0 0) with none | some
  · exact none
  · obtain ⟨row, corner, -, -, same⟩ := keptFrom_spec old new 0 0 0 some
    obtain rfl : row = 0 := by omega
    exact absurd same apart.first

/-- The last snake does not end in the far corner of the grid. -/
theorem reach_eq_entry (apart : Apart old new) (edits : Nat) (diagonal : Int)
    (column : reach old new edits diagonal = old.size)
    (row : (reach old new edits diagonal - diagonal : Int) = new.size) :
    entry old new edits diagonal = reach old new edits diagonal := by
  have total := reach_eq old new edits diagonal
  rcases Nat.eq_zero_or_pos (keptFrom old new diagonal (entry old new edits diagonal)) with
    none | some
  · omega
  · obtain ⟨row, place, -, -, same⟩ := keptFrom_spec old new diagonal
      (entry old new edits diagonal)
      (keptFrom old new diagonal (entry old new edits diagonal) - 1) (by omega)
    have left : entry old new edits diagonal +
        (keptFrom old new diagonal (entry old new edits diagonal) - 1) = old.size - 1 := by omega
    have right : row + (keptFrom old new diagonal (entry old new edits diagonal) - 1) =
        new.size - 1 := by omega
    rw [left, right] at same
    exact absurd same apart.last

end Apart

variable {back front : Array α} {lag edits : Nat} {diagonal : Int}

/-- The furthest path on a diagonal in the range of the other search stays in the grid. -/
theorem Unmet.inside (unmet : Unmet old new (reach back front) lag edits)
    (apart : Apart old new) (near : lag ≤ 1) (parity : (old.size - new.size + lag : Int) % 2 = 0)
    (on : OnRound edits diagonal)
    (range : (diagonal - (old.size - new.size)).natAbs + lag ≤ edits) :
    reach old new edits diagonal ≤ old.size ∧
      (reach old new edits diagonal - diagonal : Int) ≤ new.size := by
  obtain ⟨fewer, right, below, spent, right_eq, below_eq, round, far⟩ := exists_clamped old new on
  by_cases saved : fewer < edits
  · -- The shorter path has met the other search already.
    exfalso
    have started : fewer ≠ 0 ∨ right = 0 ∨ below = 0 := by
      by_cases first : fewer = 0
      · subst first
        have centre : diagonal - right + below = 0 := by
          unfold OnRound at round
          omega
        rw [centre, apart.reach_zero] at far
        have nonempty := apart.old_pos
        omega
      · exact .inl first
    have within : (diagonal - right + below - (old.size - new.size)).natAbs + lag ≤ fewer := by
      omega
    have opposite : OnRound (fewer - lag) (old.size - new.size - (diagonal - right + below)) := by
      unfold OnRound at round ⊢
      omega
    have unmet := unmet fewer saved _ round within
    have beyond := le_reach back front opposite
    omega
  · omega

/-- No path comes to its last snake in the far corner of the grid: before its last edit it has met
the other search already. -/
theorem Unmet.entry_ne_corner (unmet : Unmet old new (reach back front) lag edits)
    (apart : Apart old new) (near : lag ≤ 1) (parity : (old.size - new.size + lag : Int) % 2 = 0)
    (some : 0 < edits) (on : OnRound edits diagonal)
    (column : entry old new edits diagonal = old.size)
    (row : (entry old new edits diagonal - diagonal : Int) = new.size) : False := by
  cases edits with
  | zero => contradiction
  | succ edits =>
      have left := apart.old_pos
      have below := apart.new_pos
      by_cases first : edits = 0
      · subst first
        have start := apart.reach_zero
        rcases entry_cases old new on with ⟨before, same⟩ | ⟨before, same⟩
        · have centre : diagonal + 1 = 0 := by
            unfold OnRound at before
            omega
          rw [centre, start] at same
          omega
        · have centre : diagonal - 1 = 0 := by
            unfold OnRound at before
            omega
          rw [centre, start] at same
          omega
      · rcases entry_cases old new on with ⟨before, same⟩ | ⟨before, same⟩
        · have within : (diagonal + 1 - (old.size - new.size)).natAbs + lag ≤ edits := by
            unfold OnRound at on
            omega
          have unmet := unmet edits (Nat.lt_succ_self _) _ before within
          omega
        · have within : (diagonal - 1 - (old.size - new.size)).natAbs + lag ≤ edits := by
            unfold OnRound at on
            omega
          have opposite : OnRound (edits - lag) (old.size - new.size - (diagonal - 1)) := by
            unfold OnRound at on ⊢
            omega
          have unmet := unmet edits (Nat.lt_succ_self _) _ before within
          have beyond := le_reach back front opposite
          omega

/-- A place in the grid other than its first and its last corner. -/
structure Splits (old new : Array α) (column : Nat) (row : Int) : Prop where
  left : column ≤ old.size
  top : 0 ≤ row
  bottom : row ≤ new.size
  first : 0 < column + row
  last : column + row < old.size + new.size

/-- The grid can be split where the last snake of a path starts. -/
theorem Unmet.splits_entry (unmet : Unmet old new (reach back front) lag edits)
    (apart : Apart old new) (near : lag ≤ 1) (parity : (old.size - new.size + lag : Int) % 2 = 0)
    (some : 0 < edits) (on : OnRound edits diagonal)
    (range : (diagonal - (old.size - new.size)).natAbs + lag ≤ edits) :
    Splits old new (entry old new edits diagonal) (entry old new edits diagonal - diagonal) := by
  have inside := unmet.inside apart near parity on range
  have start := entry_spec old new some on
  have within := entry_le_reach old new edits diagonal
  refine ⟨by omega, by omega, by omega, by omega, ?_⟩
  rcases Int.lt_or_le (entry old new edits diagonal + (entry old new edits diagonal - diagonal))
    (old.size + new.size) with before | corner
  · exact before
  · exact (unmet.entry_ne_corner apart near parity some on (by omega) (by omega)).elim

/-- The grid can be split where the last snake of a path ends. -/
theorem Unmet.splits_reach (unmet : Unmet old new (reach back front) lag edits)
    (apart : Apart old new) (near : lag ≤ 1) (parity : (old.size - new.size + lag : Int) % 2 = 0)
    (some : 0 < edits) (on : OnRound edits diagonal)
    (range : (diagonal - (old.size - new.size)).natAbs + lag ≤ edits) :
    Splits old new (reach old new edits diagonal) (reach old new edits diagonal - diagonal) := by
  have inside := unmet.inside apart near parity on range
  have start := entry_spec old new some on
  have within := entry_le_reach old new edits diagonal
  refine ⟨by omega, by omega, by omega, by omega, ?_⟩
  rcases Int.lt_or_le (reach old new edits diagonal + (reach old new edits diagonal - diagonal))
    (old.size + new.size) with before | corner
  · exact before
  · have same := apart.reach_eq_entry edits diagonal (by omega) (by omega)
    exact (unmet.entry_ne_corner apart near parity some on (by omega) (by omega)).elim

end ProviderMigration.Difference
