import ProviderMigration.Proofs.Difference.Reach

/-!
# Where the searches split a grid

The frontiers hold how far the paths of a round have come, on the diagonals on which those paths
end. A round writes to diagonals that lie between those of the round before, so it still finds
that round's columns, and what an earlier grid has left in the frontiers is read nowhere. A
meeting is therefore one of two furthest paths, and it splits the grid into two smaller ones.
-/

namespace ProviderMigration.Difference

namespace Frontier

/-- A frontier that has room for the diagonals on which paths with so many edits end, and for
those beside them. -/
structure Room (edits : Nat) (frontier : Frontier) : Prop where
  size : frontier.columns.size = 2 * frontier.radius + 1
  radius : edits < frontier.radius

theorem Room.mono {fewer edits : Nat} {frontier : Frontier} (room : frontier.Room edits)
    (less : fewer ≤ edits) : frontier.Room fewer :=
  ⟨room.size, Nat.lt_of_le_of_lt less room.radius⟩

theorem room_start {edits radius : Nat} (fits : edits < radius) : (start radius).Room edits :=
  ⟨by simp [start], fits⟩

@[simp] theorem radius_set (frontier : Frontier) (diagonal : Int) (column : Nat) :
    (frontier.set diagonal column).radius = frontier.radius := rfl

theorem Room.set {edits : Nat} {frontier : Frontier} (room : frontier.Room edits) (diagonal : Int)
    (column : Nat) : (frontier.set diagonal column).Room edits :=
  ⟨by simpa [Frontier.set] using room.size, room.radius⟩

theorem Room.get_set_self {edits : Nat} {frontier : Frontier} (room : frontier.Room edits)
    {diagonal : Int} (within : diagonal.natAbs ≤ edits + 1) (column : Nat) :
    (frontier.set diagonal column).get diagonal = column := by
  have size := room.size
  have radius := room.radius
  have inside : (diagonal + frontier.radius).toNat < frontier.columns.size := by omega
  simp [Frontier.get, Frontier.set, inside]

theorem Room.get_set_of_ne {edits : Nat} {frontier : Frontier} (room : frontier.Room edits)
    {diagonal other : Int} (within : diagonal.natAbs ≤ edits + 1)
    (outside : other.natAbs ≤ edits + 1) (different : other ≠ diagonal) (column : Nat) :
    (frontier.set diagonal column).get other = frontier.get other := by
  have radius := room.radius
  have apart : (diagonal + frontier.radius).toNat ≠ (other + frontier.radius).toNat := by omega
  simp [Frontier.get, Frontier.set, Array.getD_eq_getD_getElem?,
    Array.getElem?_setIfInBounds_ne apart]

end Frontier

variable {α : Type} [DecidableEq α] {old new : Array α}

/-- The frontier holds how far the paths with so many edits have come. -/
def Holds (old new : Array α) (edits : Nat) (frontier : Frontier) : Prop :=
  ∀ diagonal, OnRound edits diagonal → frontier.get diagonal = reach old new edits diagonal

/-- The frontier holds what the round with so many edits starts from. -/
def Ready (old new : Array α) (edits : Nat) (frontier : Frontier) : Prop :=
  match edits with
  | 0 => frontier.get 1 = 0
  | edits + 1 => Holds old new edits frontier

theorem Holds.ready {edits : Nat} {frontier : Frontier} (holds : Holds old new edits frontier) :
    Ready old new (edits + 1) frontier := holds

/-- A round leaves what it starts from where it is. -/
theorem Ready.set {edits : Nat} {frontier : Frontier} (ready : Ready old new edits frontier)
    (room : frontier.Room edits) {diagonal : Int} (on : OnRound edits diagonal) (column : Nat) :
    Ready old new edits (frontier.set diagonal column) := by
  unfold OnRound at on
  cases edits with
  | zero =>
      rw [Ready, room.get_set_of_ne (by omega) (by omega) (by omega)]
      exact ready
  | succ edits =>
      intro other before
      have values := ready other before
      unfold OnRound at before
      rw [room.get_set_of_ne (by omega) (by omega) (by omega)]
      exact values

/-- The last snake of a furthest path. -/
def lastSnake (old new : Array α) (edits : Nat) (diagonal : Int) : Snake :=
  ⟨entry old new edits diagonal, entry old new edits diagonal - diagonal,
    reach old new edits diagonal, reach old new edits diagonal - diagonal⟩

theorem furthest_eq {edits : Nat} {frontier : Frontier} (ready : Ready old new edits frontier)
    {diagonal : Int} (on : OnRound edits diagonal) :
    Snake.furthest old new frontier edits diagonal = lastSnake old new edits diagonal := by
  have column : (if diagonal = -edits ∨ (diagonal ≠ edits ∧
      frontier.get (diagonal - 1) < frontier.get (diagonal + 1)) then frontier.get (diagonal + 1)
      else frontier.get (diagonal - 1) + 1) = entry old new edits diagonal := by
    unfold OnRound at on
    cases edits with
    | zero =>
        obtain rfl : diagonal = 0 := by omega
        exact ready
    | succ edits =>
        rw [entry, enter]
        have below (inner : diagonal ≠ -(edits + 1 : Nat)) :
            frontier.get (diagonal - 1) = reach old new edits (diagonal - 1) :=
          ready _ (by unfold OnRound; omega)
        have above (inner : diagonal ≠ (edits + 1 : Nat)) :
            frontier.get (diagonal + 1) = reach old new edits (diagonal + 1) :=
          ready _ (by unfold OnRound; omega)
        by_cases lowest : diagonal = -(edits + 1 : Nat)
        · rw [if_pos (.inl lowest), if_pos (.inl lowest), above (by omega)]
        · by_cases highest : diagonal = (edits + 1 : Nat)
          · rw [if_neg (by omega), if_neg (by omega), below lowest]
          · rw [below lowest, above highest]
  have total := reach_eq old new edits diagonal
  simp only [Snake.furthest, column, lastSnake, total, keptFrom]
  congr 1
  push_cast
  omega

/-! ## One round -/

/-- A path of a round comes to where the other search has come, at most `slack` diagonals away
from the one of the far corner. -/
def Meets (old new : Array α) (other : Frontier) (slack? : Option Int) (edits : Nat)
    (diagonal : Int) : Prop :=
  ∃ slack, slack? = some slack ∧ ((diagonal - (old.size - new.size)).natAbs : Int) ≤ slack ∧
    old.size ≤ reach old new edits diagonal + other.get (-(diagonal - (old.size - new.size)))

/-- What a round finds: all furthest paths and no meeting, or a path that meets the other
search. -/
inductive Swept (old new : Array α) (other : Frontier) (slack? : Option Int) (edits : Nat) :
    Frontier × Option Snake → Prop where
  | apart {frontier : Frontier} (holds : Holds old new edits frontier)
      (unmet : ∀ diagonal, OnRound edits diagonal → ¬ Meets old new other slack? edits diagonal) :
      Swept old new other slack? edits (frontier, none)
  | met {frontier : Frontier} {diagonal : Int} (on : OnRound edits diagonal)
      (meets : Meets old new other slack? edits diagonal) :
      Swept old new other slack? edits (frontier, some (lastSnake old new edits diagonal))

/-- The diagonals above the `count` lowest ones have been seen. -/
structure Seen (old new : Array α) (other : Frontier) (slack? : Option Int) (edits count : Nat)
    (frontier : Frontier) : Prop where
  ready : Ready old new edits frontier
  holds : ∀ diagonal, OnRound edits diagonal → 2 * (count : Int) - edits ≤ diagonal →
    frontier.get diagonal = reach old new edits diagonal
  none : ∀ diagonal, OnRound edits diagonal → 2 * (count : Int) - edits ≤ diagonal →
    ¬ Meets old new other slack? edits diagonal

theorem sweep_succ (old new : Array α) (other : Frontier) (slack? : Option Int) (edits count : Nat)
    (mine : Frontier) {diagonal : Int} (here : diagonal = 2 * count - edits) :
    sweep old new other slack? edits (count + 1) mine =
      if slack?.any fun slack => ((diagonal - (old.size - new.size)).natAbs : Int) ≤ slack &&
          old.size ≤ (Snake.furthest old new mine edits diagonal).column +
            other.get (-(diagonal - (old.size - new.size))) then
        (mine.set diagonal (Snake.furthest old new mine edits diagonal).column,
          some (Snake.furthest old new mine edits diagonal))
      else
        sweep old new other slack? edits count
          (mine.set diagonal (Snake.furthest old new mine edits diagonal).column) := by
  subst here
  cases slack? <;> rfl

/-- A round leaves a frontier its room. -/
theorem room_sweep {other : Frontier} {slack? : Option Int} {edits room count : Nat}
    {mine frontier : Frontier} {snake? : Option Snake} (fits : mine.Room room)
    (swept : sweep old new other slack? edits count mine = (frontier, snake?)) :
    frontier.Room room := by
  induction count generalizing mine with
  | zero =>
      cases swept
      exact fits
  | succ count ih =>
      rw [sweep_succ old new other slack? edits count mine rfl] at swept
      split at swept
      · cases swept
        exact fits.set _ _
      · exact ih (fits.set _ _) swept

/-- A diagonal has been seen when its furthest path is recorded, unless it meets the other
search. -/
theorem Seen.set {other : Frontier} {slack? : Option Int} {edits count : Nat} {mine : Frontier}
    {diagonal : Int} (seen : Seen old new other slack? edits (count + 1) mine)
    (room : mine.Room edits) (here : diagonal = 2 * count - edits) (on : OnRound edits diagonal)
    (unmet : ¬ Meets old new other slack? edits diagonal) :
    Seen old new other slack? edits count (mine.set diagonal (reach old new edits diagonal)) := by
  have within : diagonal.natAbs ≤ edits + 1 := Nat.le_succ_of_le on.1
  have above {place : Int} (other : OnRound edits place)
      (low : 2 * (count : Int) - edits ≤ place) (different : place ≠ diagonal) :
      2 * ((count + 1 : Nat) : Int) - edits ≤ place := by
    unfold OnRound at on other
    omega
  refine ⟨seen.ready.set room on _, ?_, ?_⟩
  · intro place other low
    by_cases same : place = diagonal
    · rw [same, room.get_set_self within]
    · rw [room.get_set_of_ne within (Nat.le_succ_of_le other.1) same]
      exact seen.holds place other (above other low same)
  · intro place other low
    by_cases same : place = diagonal
    · rwa [same]
    · exact seen.none place other (above other low same)

theorem sweep_spec {other : Frontier} {slack? : Option Int} {edits count : Nat} {mine : Frontier}
    (room : mine.Room edits) (rest : count ≤ edits + 1)
    (seen : Seen old new other slack? edits count mine) :
    Swept old new other slack? edits (sweep old new other slack? edits count mine) := by
  induction count generalizing mine with
  | zero =>
      refine .apart (fun diagonal on => seen.holds diagonal on ?_)
        (fun diagonal on => seen.none diagonal on ?_) <;>
      · unfold OnRound at on
        omega
  | succ count ih =>
      obtain ⟨diagonal, here⟩ : ∃ diagonal : Int, diagonal = 2 * count - edits := ⟨_, rfl⟩
      have on : OnRound edits diagonal := by
        unfold OnRound
        omega
      rw [sweep_succ old new other slack? edits count mine here, furthest_eq seen.ready on,
        lastSnake]
      split
      next meets =>
        refine .met on ?_
        cases slack? with
        | none => contradiction
        | some slack => exact ⟨slack, rfl, by simpa using meets⟩
      next apart =>
        refine ih (room.set _ _) (Nat.le_of_succ_le rest) (seen.set room here on ?_)
        rintro ⟨slack, rfl, near, far⟩
        rw [Option.any_some, Bool.and_eq_true, decide_eq_true_eq, decide_eq_true_eq] at apart
        exact apart ⟨near, far⟩

/-- A round finds all furthest paths, or one of them that meets the other search. -/
theorem swept_sweep {other : Frontier} {slack? : Option Int} {edits : Nat} {mine : Frontier}
    (room : mine.Room edits) (ready : Ready old new edits mine) :
    Swept old new other slack? edits (sweep old new other slack? edits (edits + 1) mine) := by
  refine sweep_spec room (Nat.le_refl _) ⟨ready, ?_, ?_⟩ <;>
  · intro diagonal on high
    unfold OnRound at on
    omega

/-! ## What a meeting is -/

variable {back front : Array α} {lag edits : Nat} {diagonal : Int} {other : Frontier}

theorem meets_iff (values : lag ≤ edits → Holds back front (edits - lag) other)
    (parity : (old.size - new.size + lag : Int) % 2 = 0) (on : OnRound edits diagonal) :
    Meets old new other (some (edits - lag : Int)) edits diagonal ↔
      (diagonal - (old.size - new.size)).natAbs + lag ≤ edits ∧
        old.size ≤ reach old new edits diagonal +
          reach back front (edits - lag) (old.size - new.size - diagonal) := by
  have value (range : (diagonal - (old.size - new.size)).natAbs + lag ≤ edits) :
      other.get (-(diagonal - (old.size - new.size))) =
        reach back front (edits - lag) (old.size - new.size - diagonal) := by
    rw [Int.neg_sub]
    exact values (by omega) _ (by unfold OnRound at on ⊢; omega)
  constructor
  · rintro ⟨slack, same, near, far⟩
    have range : (diagonal - (old.size - new.size)).natAbs + lag ≤ edits := by
      have same := Option.some.inj same
      omega
    exact ⟨range, value range ▸ far⟩
  · rintro ⟨range, far⟩
    exact ⟨_, rfl, by omega, (value range).symm ▸ far⟩

/-- A round in which no path meets the other search. -/
theorem Unmet.apart (unmet : Unmet old new (reach back front) lag edits)
    (values : lag ≤ edits → Holds back front (edits - lag) other)
    (parity : (old.size - new.size + lag : Int) % 2 = 0)
    (none : ∀ diagonal, OnRound edits diagonal →
      ¬ Meets old new other (some (edits - lag : Int)) edits diagonal) :
    Unmet old new (reach back front) lag (edits + 1) := by
  refine unmet.succ fun diagonal on range => ?_
  have here := none diagonal on
  rw [meets_iff values parity on] at here
  exact Nat.lt_of_not_le fun far => here ⟨range, far⟩

/-- The first path that meets the other search splits the grid, both where its last snake starts
and where it ends. -/
theorem Unmet.met (unmet : Unmet old new (reach back front) lag edits)
    (values : lag ≤ edits → Holds back front (edits - lag) other)
    (parity : (old.size - new.size + lag : Int) % 2 = 0) (near : lag ≤ 1)
    (apart : Apart old new) (apartBack : Apart back front) (on : OnRound edits diagonal)
    (meets : Meets old new other (some (edits - lag : Int)) edits diagonal) :
    Splits old new (entry old new edits diagonal) (entry old new edits diagonal - diagonal) ∧
      Splits old new (reach old new edits diagonal) (reach old new edits diagonal - diagonal) := by
  obtain ⟨range, far⟩ := (meets_iff values parity on).1 meets
  have moved : 0 < edits := by
    refine Nat.pos_of_ne_zero ?_
    rintro rfl
    have first : diagonal = 0 := by
      unfold OnRound at on
      omega
    have corner : (old.size - new.size - diagonal : Int) = 0 := by omega
    rw [corner, first, apart.reach_zero, Nat.zero_sub, apartBack.reach_zero] at far
    exact absurd apart.old_pos (Nat.not_lt.2 far)
  exact ⟨unmet.splits_entry apart near parity moved on range,
    unmet.splits_reach apart near parity moved on range⟩

omit [DecidableEq α] in
/-- Seen from the far corner, the grid is split as well. -/
theorem Splits.mirror {column : Nat} {row : Int}
    (splits : Splits old.reverse new.reverse column row) :
    Splits old new (old.size - column) (new.size - row) := by
  obtain ⟨left, top, bottom, first, last⟩ := splits
  rw [Array.size_reverse] at left last
  rw [Array.size_reverse] at bottom last
  exact ⟨by omega, by omega, by omega, by omega, by omega⟩

omit [DecidableEq α] in
theorem Splits.toNat {column : Nat} {row : Int} (splits : Splits old new column row) :
    Splits old new column row.toNat := by
  rw [Int.toNat_of_nonneg splits.top]
  exact splits

/-! ## All rounds -/

/-- Both frontiers have room for so many edits. -/
structure Frontiers.Room (edits : Nat) (frontiers : Frontiers) : Prop where
  forward : frontiers.forward.Room edits
  backward : frontiers.backward.Room edits

/-- The searches have not met before the round with so many edits. -/
structure Searching (old new : Array α) (edits : Nat) (frontiers : Frontiers) : Prop where
  forward : Ready old new edits frontiers.forward
  backward : Ready old.reverse new.reverse edits frontiers.backward
  forwardUnmet : (old.size + new.size) % 2 = 1 →
    Unmet old new (reach old.reverse new.reverse) 1 edits
  backwardUnmet : ¬ (old.size + new.size) % 2 = 1 →
    Unmet old.reverse new.reverse (reach old new) 0 edits

/-- The forward sweep of a round. -/
theorem Searching.forward_sweep {frontiers : Frontiers}
    (searching : Searching old new edits frontiers) (apart : Apart old new) (room : frontiers.forward.Room edits) {forward : Frontier}
    {snake? : Option Snake}
    (swept : sweep old new frontiers.backward
      (if (old.size + new.size) % 2 = 1 then some (edits - 1 : Int) else none) edits (edits + 1)
        frontiers.forward = (forward, snake?)) :
    (∀ snake, snake? = some snake → Splits old new snake.startColumn snake.startRow) ∧
      (snake? = none → Holds old new edits forward ∧
        ((old.size + new.size) % 2 = 1 →
          Unmet old new (reach old.reverse new.reverse) 1 (edits + 1))) := by
  obtain ⟨ready, backwardReady, unmet, -⟩ := searching
  have lagging : 1 ≤ edits → Holds old.reverse new.reverse (edits - 1) frontiers.backward := by
    intro some
    cases edits with
    | zero => contradiction
    | succ edits => exact backwardReady
  have found := swept ▸ swept_sweep room ready
  cases found with
  | met on meets =>
      split at meets
      next odd =>
        have splits := ((unmet odd).met lagging (by omega) (Nat.le_refl 1) apart apart.reverse on
          meets).1
        exact ⟨by rintro snake ⟨⟩; exact splits, by rintro ⟨⟩⟩
      next =>
        obtain ⟨slack, absent, -⟩ := meets
        cases absent
  | apart holds none =>
      refine ⟨by rintro snake ⟨⟩, fun _ => ⟨holds, fun odd => ?_⟩⟩
      rw [if_pos odd] at none
      exact (unmet odd).apart lagging (by omega) none

/-- The backward sweep of a round. -/
theorem Searching.backward_sweep {frontiers : Frontiers}
    (searching : Searching old new edits frontiers) (apart : Apart old new)
    (room : frontiers.backward.Room edits) {forward backward : Frontier}
    (holds : Holds old new edits forward) {snake? : Option Snake}
    (swept : sweep old.reverse new.reverse forward
      (if (old.size + new.size) % 2 = 1 then none else some (edits : Int)) edits (edits + 1)
        frontiers.backward = (backward, snake?)) :
    (∀ snake, snake? = some snake →
        Splits old new (old.size - snake.column) (new.size - snake.row)) ∧
      (snake? = none → Holds old.reverse new.reverse edits backward ∧
        (¬ (old.size + new.size) % 2 = 1 →
          Unmet old.reverse new.reverse (reach old new) 0 (edits + 1))) := by
  obtain ⟨-, ready, -, unmet⟩ := searching
  have level (even : ¬ (old.size + new.size) % 2 = 1) :
      ((old.reverse.size : Int) - new.reverse.size + (0 : Nat)) % 2 = 0 := by
    rw [Array.size_reverse, Array.size_reverse]
    omega
  have same : (edits : Int) = edits - (0 : Nat) := by omega
  have found := swept ▸ swept_sweep room ready
  cases found with
  | met on meets =>
      split at meets
      next =>
        obtain ⟨slack, absent, -⟩ := meets
        cases absent
      next even =>
        rw [same] at meets
        have splits := ((unmet even).met (fun _ => holds) (level even) (Nat.zero_le 1)
          apart.reverse apart on meets).2.mirror
        exact ⟨by rintro snake ⟨⟩; exact splits, by rintro ⟨⟩⟩
  | apart holdsBack none =>
      refine ⟨by rintro snake ⟨⟩, fun _ => ⟨holdsBack, fun even => ?_⟩⟩
      rw [if_neg even, same] at none
      exact (unmet even).apart (fun _ => holds) (level even) none

theorem splits_rounds {left edits : Nat} {frontiers later : Frontiers} {column row : Nat}
    (apart : Apart old new) (room : frontiers.Room (edits + left - 1))
    (searching : Searching old new edits frontiers)
    (met : meeting?.rounds old new old.reverse new.reverse left edits frontiers =
      (later, some (column, row))) :
    Splits old new column row := by
  induction left generalizing edits frontiers with
  | zero => cases met
  | succ left ih =>
      have less : edits ≤ edits + (left + 1) - 1 := by omega
      have same : edits + (left + 1) - 1 = edits + 1 + left - 1 := by omega
      rw [meeting?.rounds.eq_def] at met
      dsimp only at met
      rcases first : sweep old new frontiers.backward _ edits (edits + 1) frontiers.forward with
        ⟨forward, _ | snake⟩
      · rw [first] at met
        obtain ⟨holds, forwardUnmet⟩ :=
          (searching.forward_sweep apart (room.forward.mono less) first).2 rfl
        have forwardRoom := room_sweep room.forward first
        rcases second : sweep old.reverse new.reverse forward _ edits (edits + 1)
          frontiers.backward with ⟨backward, _ | snake⟩
        · rw [second] at met
          obtain ⟨holdsBack, backwardUnmet⟩ :=
            (searching.backward_sweep apart (room.backward.mono less) holds second).2 rfl
          have backwardRoom := room_sweep room.backward second
          exact ih (same ▸ ⟨forwardRoom, backwardRoom⟩)
            ⟨holds.ready, holdsBack.ready, forwardUnmet, backwardUnmet⟩ met
        · rw [second] at met
          cases met
          exact ((searching.backward_sweep apart (room.backward.mono less) holds second).1 _
            rfl).toNat
      · rw [first] at met
        cases met
        exact ((searching.forward_sweep apart (room.forward.mono less) first).1 _ rfl).toNat

theorem room_rounds {room left edits : Nat} {oldBack newBack : Array α}
    {frontiers later : Frontiers} {place? : Option (Nat × Nat)} (fits : frontiers.Room room)
    (found : meeting?.rounds old new oldBack newBack left edits frontiers = (later, place?)) :
    later.Room room := by
  induction left generalizing edits frontiers with
  | zero =>
      cases found
      exact fits
  | succ left ih =>
      rw [meeting?.rounds.eq_def] at found
      dsimp only at found
      rcases first : sweep old new frontiers.backward _ edits (edits + 1) frontiers.forward with
        ⟨forward, _ | snake⟩
      · rw [first] at found
        have forwardRoom := room_sweep fits.forward first
        rcases second : sweep oldBack newBack forward _ edits (edits + 1) frontiers.backward with
          ⟨backward, _ | snake⟩
        · rw [second] at found
          exact ih ⟨forwardRoom, room_sweep fits.backward second⟩ found
        · rw [second] at found
          cases found
          exact ⟨forwardRoom, room_sweep fits.backward second⟩
      · rw [first] at found
        cases found
        exact ⟨room_sweep fits.forward first, fits.backward⟩

/-- The searches leave the frontiers their room. -/
theorem room_meeting? {room : Nat} {frontiers later : Frontiers} {place? : Option (Nat × Nat)}
    (fits : frontiers.Room room) (found : meeting? old new frontiers = (later, place?)) :
    later.Room room :=
  room_rounds ⟨fits.forward.set 1 0, fits.backward.set 1 0⟩ found

/-- The searches split the grid where they meet, whatever an earlier grid has left in the
frontiers. -/
theorem splits_meeting? {frontiers later : Frontiers} {column row : Nat} (apart : Apart old new)
    (room : frontiers.Room ((old.size + new.size + 1) / 2))
    (met : meeting? old new frontiers = (later, some (column, row))) :
    Splits old new column row := by
  refine splits_rounds apart ?_ ⟨?_, ?_, fun _ => Unmet.start _ _ _ _, fun _ => Unmet.start _ _ _ _⟩
    met
  · rw [Nat.zero_add, Nat.add_sub_cancel]
    exact ⟨room.forward.set 1 0, room.backward.set 1 0⟩
  · exact room.forward.get_set_self (by omega) 0
  · exact room.backward.get_set_self (by omega) 0

end ProviderMigration.Difference
