import ProviderMigration.Difference.Script

/-!
# Compact scripts

An addition next to kept items can often be slid along them without changing
what the script does: where the kept items end as the addition ends, the common
part may as well be added first. Sliding every run as far up and then as far
down as it goes brings runs of one kind together, and those are merged.
Compaction slides the removals first and the additions second. A removal slides
over additions only.

A run that merges high up may be stuck there, with runs behind it that had been
visited already. Compaction still ends: sliding down undoes sliding up unless two
changes have merged, and there are only so many changes.
-/

namespace ProviderMigration.Difference

variable {α : Type}

/-- A script with a run picked out. The runs before it are listed from the
nearest one. -/
structure Cursor (α : Type) where
  before : List (Run α)
  run : Run α
  after : List (Run α)

namespace Cursor

/-- The script that the cursor stands in. -/
def script (cursor : Cursor α) : Script α :=
  cursor.before.reverse ++ cursor.run :: cursor.after

/-- How many runs of the script are changes. -/
def changeCount (cursor : Cursor α) : Nat :=
  cursor.script.countP Run.isChange

theorem changeCount_mk (before : List (Run α)) (run : Run α) (after : List (Run α)) :
    changeCount ⟨before, run, after⟩ =
      (run :: before).countP Run.isChange + after.countP Run.isChange := by
  simp only [changeCount, script, List.countP_append, List.countP_reverse, List.countP_cons]
  omega

/-- Kept items in front of some runs, joined to a kept run that follows. -/
def keepBefore (items : List α) : List (Run α) → List (Run α)
  | .keep following :: after => .keep (items ++ following) :: after
  | after => .keep items :: after

/-- Kept items behind some runs, listed from the nearest one, joined to a kept
run that precedes. -/
def keepBehind (items : List α) : List (Run α) → List (Run α)
  | .keep preceding :: before => .keep (preceding ++ items) :: before
  | before => .keep items :: before

@[simp] theorem countP_keepBefore (items : List α) (after : List (Run α)) :
    (keepBefore items after).countP Run.isChange = after.countP Run.isChange := by
  unfold keepBefore
  split <;> simp

@[simp] theorem countP_keepBehind (items : List α) (before : List (Run α)) :
    (keepBehind items before).countP Run.isChange = before.countP Run.isChange := by
  unfold keepBehind
  split <;> simp

/-! ### Single steps -/

/-- One step of a run that slides up. -/
inductive Climbs : Cursor α → Cursor α → Prop where
  | vanish {before after : List (Run α)} {run : Run α} :
      Climbs ⟨.keep [] :: before, run, after⟩ ⟨before, run, after⟩
  | pass {kept added tail : List α} {before after : List (Run α)} (nonempty : tail ≠ []) :
      Climbs ⟨.keep (kept ++ tail) :: before, .add (added ++ tail), after⟩
        ⟨.keep kept :: before, .add (tail ++ added), keepBefore tail after⟩
  | mergeAdded {first second : List α} {before after : List (Run α)} :
      Climbs ⟨.add first :: before, .add second, after⟩ ⟨before, .add (first ++ second), after⟩
  | mergeRemoved {first second : List α} {before after : List (Run α)} :
      Climbs ⟨.remove first :: before, .remove second, after⟩
        ⟨before, .remove (first ++ second), after⟩
  | swapAdded {removed added : List α} {before after : List (Run α)} :
      Climbs ⟨.remove removed :: before, .add added, after⟩
        ⟨before, .add added, .remove removed :: after⟩
  | swapRemoved {removed added : List α} {before after : List (Run α)} :
      Climbs ⟨.add added :: before, .remove removed, after⟩
        ⟨before, .remove removed, .add added :: after⟩

/-- One step of a run that slides down. -/
inductive Falls : Cursor α → Cursor α → Prop where
  | vanish {before after : List (Run α)} {run : Run α} :
      Falls ⟨before, run, .keep [] :: after⟩ ⟨before, run, after⟩
  | pass {head kept added : List α} {before after : List (Run α)} (nonempty : head ≠ []) :
      Falls ⟨before, .add (head ++ added), .keep (head ++ kept) :: after⟩
        ⟨keepBehind head before, .add (added ++ head), .keep kept :: after⟩
  | mergeAdded {first second : List α} {before after : List (Run α)} :
      Falls ⟨before, .add first, .add second :: after⟩ ⟨before, .add (first ++ second), after⟩
  | mergeRemoved {first second : List α} {before after : List (Run α)} :
      Falls ⟨before, .remove first, .remove second :: after⟩
        ⟨before, .remove (first ++ second), after⟩
  | swapAdded {removed added : List α} {before after : List (Run α)} :
      Falls ⟨before, .add added, .remove removed :: after⟩
        ⟨.remove removed :: before, .add added, after⟩
  | swapRemoved {removed added : List α} {before after : List (Run α)} :
      Falls ⟨before, .remove removed, .add added :: after⟩
        ⟨.add added :: before, .remove removed, after⟩

/-- A step down makes no change and puts no run behind the cursor. -/
theorem Falls.progress {cursor next : Cursor α} (step : Falls cursor next) :
    next.changeCount ≤ cursor.changeCount ∧ next.after.length ≤ cursor.after.length := by
  have count := @List.countP_cons (Run α) Run.isChange
  cases step <;> simp [changeCount_mk, count] <;> omega

/-! ### Sliding -/

/-- How many items a run keeps. -/
def keptCount : Run α → Nat
  | .keep items => items.length
  | .remove _ => 0
  | .add _ => 0

/-- How many steps a run can slide at most over the given runs. -/
def room : List (Run α) → Nat
  | [] => 0
  | run :: runs => keptCount run + 1 + room runs

variable [DecidableEq α]

/-- Slides the run up as far as it goes. -/
def slideUp : List (Run α) → Run α → List (Run α) → Cursor α
  | [], run, after => ⟨[], run, after⟩
  | previous :: before, run, after =>
      match previous, run with
      | .keep kept, .add added =>
          let shared := commonSuffixLength kept added
          let stay := kept.length - shared
          if kept.isEmpty then slideUp before run after
          else if shared = 0 then ⟨previous :: before, run, after⟩
          else
            let tail := kept.drop stay
            let run := .add (tail ++ added.take (added.length - shared))
            let after := keepBefore tail after
            if stay = 0 then slideUp before run after
            else slideUp (.keep (kept.take stay) :: before) run after
      | .keep kept, _ =>
          if kept.isEmpty then slideUp before run after
          else ⟨previous :: before, run, after⟩
      | .add first, .add second => slideUp before (.add (first ++ second)) after
      | .remove first, .remove second => slideUp before (.remove (first ++ second)) after
      | _, _ => slideUp before run (previous :: after)
termination_by before => room before
decreasing_by all_goals grind [room, keptCount, List.isEmpty_iff, List.length_eq_zero_iff]

/-- Slides the run down as far as it goes. -/
def slideDown : List (Run α) → Run α → List (Run α) → Cursor α
  | before, run, [] => ⟨before, run, []⟩
  | before, run, next :: after =>
      match next, run with
      | .keep kept, .add added =>
          let shared := commonPrefixLength kept added
          if kept.isEmpty then slideDown before run after
          else if shared = 0 then ⟨before, run, next :: after⟩
          else
            let head := kept.take shared
            let run := .add (added.drop shared ++ head)
            let before := keepBehind head before
            if shared = kept.length then slideDown before run after
            else slideDown before run (.keep (kept.drop shared) :: after)
      | .keep kept, _ =>
          if kept.isEmpty then slideDown before run after
          else ⟨before, run, next :: after⟩
      | .add second, .add first => slideDown before (.add (first ++ second)) after
      | .remove second, .remove first => slideDown before (.remove (first ++ second)) after
      | _, _ => slideDown (next :: before) run after
termination_by _ _ after => room after
decreasing_by all_goals grind [room, keptCount, List.isEmpty_iff, List.length_eq_zero_iff]

/-! ### Slides are steps -/

/-- A run climbs over the items that it shares with the kept run above it. -/
theorem climbs_shared {kept added : List α} (some : commonSuffixLength kept added ≠ 0)
    (before after : List (Run α)) :
    Climbs ⟨.keep kept :: before, .add added, after⟩
      ⟨.keep (kept.take (kept.length - commonSuffixLength kept added)) :: before,
        .add (kept.drop (kept.length - commonSuffixLength kept added) ++
          added.take (added.length - commonSuffixLength kept added)),
        keepBefore (kept.drop (kept.length - commonSuffixLength kept added)) after⟩ := by
  have same := drop_commonSuffixLength kept added
  have fits := commonSuffixLength_le kept added
  have nonempty : kept.drop (kept.length - commonSuffixLength kept added) ≠ [] := by
    rw [ne_eq, List.drop_eq_nil_iff]
    omega
  have step := @Climbs.pass α (kept.take (kept.length - commonSuffixLength kept added))
    (added.take (added.length - commonSuffixLength kept added)) _ before after nonempty
  rw [List.take_append_drop] at step
  rwa [same, List.take_append_drop, ← same] at step

/-- A run falls over the items that it shares with the kept run below it. -/
theorem falls_shared {kept added : List α} (some : commonPrefixLength kept added ≠ 0)
    (before after : List (Run α)) :
    Falls ⟨before, .add added, .keep kept :: after⟩
      ⟨keepBehind (kept.take (commonPrefixLength kept added)) before,
        .add (added.drop (commonPrefixLength kept added) ++
          kept.take (commonPrefixLength kept added)),
        .keep (kept.drop (commonPrefixLength kept added)) :: after⟩ := by
  have same := take_commonPrefixLength kept added
  have fits := commonPrefixLength_le kept added
  have nonempty : kept.take (commonPrefixLength kept added) ≠ [] := by
    rw [ne_eq, List.take_eq_nil_iff, not_or]
    refine ⟨some, ?_⟩
    rintro rfl
    exact some (by simp)
  have step := @Falls.pass α _ (kept.drop (commonPrefixLength kept added))
    (added.drop (commonPrefixLength kept added)) before after nonempty
  rw [List.take_append_drop] at step
  rwa [same, List.take_append_drop, ← same] at step

/-- What every step up keeps holds where a change has slid up to. -/
theorem slideUp_of_climbs {motive : Cursor α → Prop}
    (keeps : ∀ {cursor next : Cursor α}, Climbs cursor next → motive cursor → motive next)
    (before : List (Run α)) {run : Run α} (change : run.isChange = true) (after : List (Run α))
    (start : motive ⟨before, run, after⟩) : motive (slideUp before run after) := by
  fun_induction slideUp before run after
  case case1 => exact start
  case case2 empty ih =>
    obtain rfl := List.isEmpty_iff.1 empty
    exact ih change (keeps .vanish start)
  case case3 => exact start
  case case4 before after kept added shared stay _ some tail run after' none ih =>
    have step := keeps (climbs_shared some before after) start
    have empty : kept.take stay = [] := by rw [none, List.take_zero]
    rw [empty] at step
    exact ih change (keeps .vanish step)
  case case5 before after kept added shared stay _ some tail run after' left ih =>
    exact ih change (keeps (climbs_shared some before after) start)
  case case6 empty _ ih =>
    obtain rfl := List.isEmpty_iff.1 empty
    exact ih change (keeps .vanish start)
  case case7 => exact start
  case case8 ih => exact ih change (keeps .mergeAdded start)
  case case9 ih => exact ih change (keeps .mergeRemoved start)
  case case10 previous before run after kept _ added removed ih =>
    refine ih change (keeps ?_ start)
    cases previous with
    | keep items => exact absurd rfl (kept items)
    | remove items =>
        cases run with
        | keep => contradiction
        | remove others => exact absurd rfl (removed items others rfl)
        | add => exact .swapAdded
    | add items =>
        cases run with
        | keep => contradiction
        | remove => exact .swapRemoved
        | add others => exact absurd rfl (added items others rfl)

/-- What every step down keeps holds where a change has slid down to. -/
theorem slideDown_of_falls {motive : Cursor α → Prop}
    (keeps : ∀ {cursor next : Cursor α}, Falls cursor next → motive cursor → motive next)
    (before : List (Run α)) {run : Run α} (change : run.isChange = true) (after : List (Run α))
    (start : motive ⟨before, run, after⟩) : motive (slideDown before run after) := by
  fun_induction slideDown before run after
  case case1 => exact start
  case case2 empty ih =>
    obtain rfl := List.isEmpty_iff.1 empty
    exact ih change (keeps .vanish start)
  case case3 => exact start
  case case4 before after kept added shared _ some head run before' all ih =>
    have step := keeps (falls_shared some before after) start
    have empty : kept.drop shared = [] := by rw [all, List.drop_length]
    rw [empty] at step
    exact ih change (keeps .vanish step)
  case case5 before after kept added shared _ some head run before' left ih =>
    exact ih change (keeps (falls_shared some before after) start)
  case case6 empty _ ih =>
    obtain rfl := List.isEmpty_iff.1 empty
    exact ih change (keeps .vanish start)
  case case7 => exact start
  case case8 ih => exact ih change (keeps .mergeAdded start)
  case case9 ih => exact ih change (keeps .mergeRemoved start)
  case case10 before run next after kept _ added removed ih =>
    refine ih change (keeps ?_ start)
    cases next with
    | keep items => exact absurd rfl (kept items)
    | remove items =>
        cases run with
        | keep => contradiction
        | remove others => exact absurd rfl (removed items others rfl)
        | add => exact .swapAdded
    | add items =>
        cases run with
        | keep => contradiction
        | remove => exact .swapRemoved
        | add others => exact absurd rfl (added items others rfl)

/-! ### What a visit leaves to be visited -/

/-- The runs that come behind the run once it has slid down. -/
def rest (cursor : Cursor α) : List (Run α) :=
  (slideDown cursor.before cursor.run cursor.after).after

/-- They do not depend on what is in front of the run. -/
theorem rest_congr (before other : List (Run α)) (run : Run α) (after : List (Run α)) :
    rest ⟨before, run, after⟩ = rest ⟨other, run, after⟩ := by
  simp only [rest]
  fun_induction slideDown before run after generalizing other
  all_goals grind [slideDown.eq_def]

theorem rest_vanish (before : List (Run α)) (run : Run α) (after : List (Run α)) :
    rest ⟨before, run, .keep [] :: after⟩ = rest ⟨before, run, after⟩ := by
  simp only [rest]
  rw [slideDown.eq_def before run (.keep [] :: after)]
  cases run <;> simp

theorem rest_swap {run next : Run α} {before after : List (Run α)} (change : next.isChange = true)
    (other : run.change? ≠ next.change?) :
    rest ⟨before, run, next :: after⟩ = rest ⟨before, run, after⟩ := by
  rw [rest_congr before (next :: before) run after]
  simp only [rest]
  rw [slideDown.eq_def before run (next :: after)]
  cases run <;> cases next <;> simp_all [Run.change?]

theorem rest_shared {kept added : List α} (some : commonPrefixLength kept added ≠ 0)
    (before after : List (Run α)) :
    rest ⟨before, .add added, .keep kept :: after⟩ =
      rest ⟨before, .add (added.drop (commonPrefixLength kept added) ++
          kept.take (commonPrefixLength kept added)),
        .keep (kept.drop (commonPrefixLength kept added)) :: after⟩ := by
  have nonempty : kept.isEmpty = false := by
    rw [List.isEmpty_eq_false_iff]
    rintro rfl
    exact some (by simp)
  rw [rest_congr before (keepBehind (kept.take (commonPrefixLength kept added)) before)
    (.add (added.drop _ ++ _)), rest, slideDown.eq_def before]
  simp only [nonempty, Bool.false_eq_true, if_false, if_neg some]
  split
  next all =>
    rw [all, List.drop_length, rest_vanish]
    rfl
  next => rfl

/-- Sliding in one go or in two makes no difference. -/
theorem rest_pass (kept added : List α) {count : Nat}
    (shared : count ≤ commonPrefixLength kept added) (before after : List (Run α)) :
    rest ⟨before, .add added, .keep kept :: after⟩ =
      rest ⟨before, .add (added.drop count ++ kept.take count), .keep (kept.drop count) :: after⟩ := by
  induction size : kept.length using Nat.strongRecOn generalizing kept added count with
  | ind length ih =>
  subst size
  by_cases still : count = 0
  · simp [still]
  have fits := commonPrefixLength_le kept added
  have left := commonPrefixLength_drop_append_le kept added (kept.take count) shared
  have inside : commonPrefixLength kept added - count ≤ (added.drop count).length := by
    rw [List.length_drop]
    omega
  have shorter : (kept.drop count).length < kept.length := by
    rw [List.length_drop]
    omega
  have total : count + (commonPrefixLength kept added - count) = commonPrefixLength kept added :=
    Nat.add_sub_cancel' shared
  rw [rest_shared (by omega), ih _ shorter _ _ left rfl, List.drop_append_of_le_length inside,
    List.drop_drop, List.drop_drop, List.append_assoc, ← List.take_add, total]

theorem rest_keepBefore (before other : List (Run α)) (added tail : List α)
    (after : List (Run α)) :
    rest ⟨before, .add (tail ++ added), keepBefore tail after⟩ =
      rest ⟨other, .add (added ++ tail), after⟩ := by
  have shared (kept : List α) :
      tail.length ≤ commonPrefixLength (tail ++ kept) (tail ++ added) := by
    rw [commonPrefixLength_append]
    exact Nat.le_add_right _ _
  rw [rest_congr before other]
  unfold keepBefore
  split
  next kept after =>
    rw [rest_pass _ _ (shared kept), List.drop_left, List.take_left, List.drop_left]
  next =>
    have alone := shared []
    rw [List.append_nil] at alone
    rw [rest_pass _ _ alone, List.drop_left, List.take_length, List.drop_length, rest_vanish]

/-- A step up is undone by sliding down, unless it has merged two changes. -/
theorem Climbs.progress {cursor next : Cursor α} (step : Climbs cursor next) :
    next.changeCount < cursor.changeCount ∨
      next.changeCount = cursor.changeCount ∧ next.rest = cursor.rest := by
  have count := @List.countP_cons (Run α) Run.isChange
  cases step with
  | vanish => exact .inr ⟨by simp [changeCount_mk, count], rest_congr _ _ _ _⟩
  | pass => exact .inr ⟨by simp [changeCount_mk, count], rest_keepBefore _ _ _ _ _⟩
  | mergeAdded =>
      refine .inl ?_
      simp only [changeCount_mk, count, Run.isChange_add, if_true]
      omega
  | mergeRemoved =>
      refine .inl ?_
      simp only [changeCount_mk, count, Run.isChange_remove, if_true]
      omega
  | swapAdded =>
      refine .inr ⟨by simp only [changeCount_mk, count]; omega, ?_⟩
      rw [rest_swap rfl (by simp [Run.change?])]
      exact rest_congr _ _ _ _
  | swapRemoved =>
      refine .inr ⟨by simp only [changeCount_mk, count]; omega, ?_⟩
      rw [rest_swap rfl (by simp [Run.change?])]
      exact rest_congr _ _ _ _

theorem slideDown_progress (before : List (Run α)) {run : Run α} (change : run.isChange = true)
    (after : List (Run α)) :
    (slideDown before run after).changeCount ≤ changeCount ⟨before, run, after⟩ ∧
      (slideDown before run after).after.length ≤ after.length := by
  apply slideDown_of_falls (motive := fun cursor =>
    cursor.changeCount ≤ changeCount ⟨before, run, after⟩ ∧ cursor.after.length ≤ after.length)
    _ before change after ⟨Nat.le_refl _, Nat.le_refl _⟩
  intro cursor next step kept
  have progress := step.progress
  omega

theorem isChange_slideUp (before : List (Run α)) {run : Run α} (change : run.isChange = true)
    (after : List (Run α)) : (slideUp before run after).run.isChange = true := by
  refine slideUp_of_climbs (motive := fun cursor => cursor.run.isChange = true) ?_ before change
    after change
  intro cursor next step isChange
  cases step <;> exact isChange

/-- A visit of a run slides it up and then down. -/
def visit (before : List (Run α)) (run : Run α) (after : List (Run α)) : Cursor α :=
  let up := slideUp before run after
  slideDown up.before up.run up.after

/-- After a visit there are fewer changes, or fewer runs behind the cursor. -/
theorem visit_progress (before : List (Run α)) {run : Run α} (change : run.isChange = true)
    (after : List (Run α)) :
    (visit before run after).changeCount < changeCount ⟨before, run, after⟩ ∨
      (visit before run after).changeCount ≤ changeCount ⟨before, run, after⟩ ∧
        (visit before run after).after.length ≤ after.length := by
  have up : (slideUp before run after).changeCount < changeCount ⟨before, run, after⟩ ∨
      (slideUp before run after).changeCount = changeCount ⟨before, run, after⟩ ∧
        (slideUp before run after).rest = rest ⟨before, run, after⟩ := by
    refine slideUp_of_climbs (motive := fun cursor =>
      cursor.changeCount < changeCount ⟨before, run, after⟩ ∨
        cursor.changeCount = changeCount ⟨before, run, after⟩ ∧
          cursor.rest = rest ⟨before, run, after⟩) ?_ before change after (.inr ⟨rfl, rfl⟩)
    rintro cursor next step (fewer | ⟨same, left⟩)
    · rcases step.progress with less | ⟨still, -⟩
      · exact .inl (Nat.lt_trans less fewer)
      · exact .inl (still ▸ fewer)
    · rcases step.progress with less | ⟨still, back⟩
      · exact .inl (same ▸ less)
      · exact .inr ⟨still.trans same, back.trans left⟩
  have down := slideDown_progress (slideUp before run after).before
    (isChange_slideUp before change after) (slideUp before run after).after
  rcases up with fewer | ⟨same, left⟩
  · exact .inl (Nat.lt_of_le_of_lt down.1 fewer)
  · refine .inr ⟨Nat.le_trans down.1 (Nat.le_of_eq same), ?_⟩
    have length := (slideDown_progress before change after).2
    exact Nat.le_trans (Nat.le_of_eq (congrArg List.length left)) length

end Cursor

namespace Script

variable [DecidableEq α]

/-- Slides every change of the given kind, from the first to the last. -/
def slide (change : Change) (script : Script α) : Script α := go [] script
where
  /-- The runs in front of the cursor, the nearest one first, have been visited. -/
  go (before : List (Run α)) : List (Run α) → Script α
    | [] => before.reverse
    | run :: after =>
        if _chosen : run.change? = some change then
          let visited := Cursor.visit before run after
          go (visited.run :: visited.before) visited.after
        else go (run :: before) after
  termination_by after => (before.countP Run.isChange + after.countP Run.isChange, after.length)
  decreasing_by
    · have isChange : run.isChange = true := by simp [Run.isChange, _chosen]
      have start := Cursor.changeCount_mk before run after
      have count := Cursor.changeCount_mk visited.before visited.run visited.after
      have same : before.countP Run.isChange + (run :: after).countP Run.isChange =
          Cursor.changeCount ⟨before, run, after⟩ := by
        rw [start, List.countP_cons, List.countP_cons]
        omega
      rw [same, ← count]
      rcases Cursor.visit_progress before isChange after with fewer | ⟨still, shorter⟩
      · exact Prod.Lex.left _ _ fewer
      · exact Prod.Lex.right' _ still (Nat.lt_succ_of_le shorter)
    · rw [List.countP_cons, List.countP_cons, Nat.add_right_comm, Nat.add_assoc]
      exact Prod.Lex.right _ (Nat.lt_succ_self _)

/-- The script with its removals slid, and then its additions. -/
def compact (script : Script α) : Script α :=
  (script.slide .removal).slide .addition

end Script

end ProviderMigration.Difference
