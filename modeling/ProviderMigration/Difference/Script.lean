/-!
# Edit scripts

An edit script says how one sequence becomes another, as runs of items that are
kept, removed or added. The runs carry their items, so both sequences can be
read off a script: the old one without the additions, and the new one without
the removals.
-/

namespace ProviderMigration.Difference

variable {α : Type}

/-- Consecutive items with the same fate. -/
inductive Run (α : Type) where
  | keep (items : List α)
  | remove (items : List α)
  | add (items : List α)
  deriving DecidableEq, Repr

/-- The items of a run that stand in the old sequence. -/
def Run.old : Run α → List α
  | .keep items => items
  | .remove items => items
  | .add _ => []

/-- The items of a run that stand in the new sequence. -/
def Run.new : Run α → List α
  | .keep items => items
  | .remove _ => []
  | .add items => items

/-- The two kinds of change. -/
inductive Change where
  | removal
  | addition
  deriving DecidableEq, Repr

/-- The change that a run makes, unless it keeps its items. -/
def Run.change? : Run α → Option Change
  | .keep _ => none
  | .remove _ => some .removal
  | .add _ => some .addition

/-- Whether a run makes a change. -/
def Run.isChange (run : Run α) : Bool := run.change?.isSome

@[simp] theorem Run.isChange_keep (items : List α) : (Run.keep items).isChange = false := rfl

@[simp] theorem Run.isChange_remove (items : List α) : (Run.remove items).isChange = true := rfl

@[simp] theorem Run.isChange_add (items : List α) : (Run.add items).isChange = true := rfl

/-- Runs in the order in which they apply. -/
abbrev Script (α : Type) := List (Run α)

namespace Script

/-- The sequence a script starts from. -/
def old (script : Script α) : List α := script.flatMap Run.old

/-- The sequence a script ends with. -/
def new (script : Script α) : List α := script.flatMap Run.new

@[simp] theorem old_nil : old ([] : Script α) = [] := rfl

@[simp] theorem new_nil : new ([] : Script α) = [] := rfl

@[simp] theorem old_cons (run : Run α) (script : Script α) :
    old (run :: script) = run.old ++ old script := by
  simp [old]

@[simp] theorem new_cons (run : Run α) (script : Script α) :
    new (run :: script) = run.new ++ new script := by
  simp [new]

@[simp] theorem old_append (first second : Script α) :
    old (first ++ second) = old first ++ old second := by
  simp [old]

@[simp] theorem new_append (first second : Script α) :
    new (first ++ second) = new first ++ new second := by
  simp [new]

/-- The script of one kept run; keeping nothing needs no run. -/
def keeping (items : List α) : Script α :=
  if items.isEmpty then [] else [.keep items]

@[simp] theorem old_keeping (items : List α) : old (keeping items) = items := by
  cases items <;> simp [keeping, Run.old]

@[simp] theorem new_keeping (items : List α) : new (keeping items) = items := by
  cases items <;> simp [keeping, Run.new]

end Script

/-- The number of items with which both lists start. -/
def commonPrefixLength [DecidableEq α] (first second : List α) : Nat :=
  go 0 first second
where
  /-- `count` items have been found equal so far. -/
  go (count : Nat) : List α → List α → Nat
    | a :: first, b :: second => if a = b then go (count + 1) first second else count
    | _, _ => count

/-- The number of items with which both lists end. -/
def commonSuffixLength [DecidableEq α] (first second : List α) : Nat :=
  commonPrefixLength first.reverse second.reverse

section Common

variable [DecidableEq α]

private theorem commonPrefixLength_go_eq (count : Nat) (first second : List α) :
    commonPrefixLength.go count first second = count + commonPrefixLength first second := by
  induction first generalizing count second with
  | nil => simp [commonPrefixLength, commonPrefixLength.go]
  | cons a first ih =>
      cases second with
      | nil => simp [commonPrefixLength, commonPrefixLength.go]
      | cons b second =>
          simp only [commonPrefixLength, commonPrefixLength.go]
          split
          next =>
            rw [ih (count + 1), ih (0 + 1)]
            omega
          next => rfl

@[simp] theorem commonPrefixLength_nil_left (second : List α) :
    commonPrefixLength [] second = 0 := by
  simp [commonPrefixLength, commonPrefixLength.go]

@[simp] theorem commonPrefixLength_nil_right (first : List α) :
    commonPrefixLength first [] = 0 := by
  cases first <;> simp [commonPrefixLength, commonPrefixLength.go]

theorem commonPrefixLength_cons_cons (a b : α) (first second : List α) :
    commonPrefixLength (a :: first) (b :: second) =
      if a = b then commonPrefixLength first second + 1 else 0 := by
  rw [commonPrefixLength, commonPrefixLength.go, commonPrefixLength_go_eq]
  split <;> omega

theorem commonPrefixLength_le (first second : List α) :
    commonPrefixLength first second ≤ first.length ∧
      commonPrefixLength first second ≤ second.length := by
  induction first generalizing second with
  | nil => simp
  | cons a first ih =>
      cases second with
      | nil => simp
      | cons b second =>
          have later := ih second
          rw [commonPrefixLength_cons_cons, List.length_cons, List.length_cons]
          split <;> omega

/-- What two lists start with is the same in both. -/
theorem take_commonPrefixLength (first second : List α) :
    first.take (commonPrefixLength first second) =
      second.take (commonPrefixLength first second) := by
  induction first generalizing second with
  | nil => simp
  | cons a first ih =>
      cases second with
      | nil => simp
      | cons b second =>
          rw [commonPrefixLength_cons_cons]
          split
          next same => rw [same, List.take_succ_cons, List.take_succ_cons, ih]
          next => rfl

/-- What two lists end with is the same in both. -/
theorem drop_commonSuffixLength (first second : List α) :
    first.drop (first.length - commonSuffixLength first second) =
      second.drop (second.length - commonSuffixLength first second) := by
  have same := take_commonPrefixLength first.reverse second.reverse
  rw [List.take_reverse, List.take_reverse] at same
  exact List.reverse_inj.1 same

theorem commonSuffixLength_le (first second : List α) :
    commonSuffixLength first second ≤ first.length ∧
      commonSuffixLength first second ≤ second.length := by
  simpa [commonSuffixLength] using commonPrefixLength_le first.reverse second.reverse

theorem commonPrefixLength_append (front first second : List α) :
    commonPrefixLength (front ++ first) (front ++ second) =
      front.length + commonPrefixLength first second := by
  induction front with
  | nil => simp
  | cons a front ih =>
      rw [List.cons_append, List.cons_append, commonPrefixLength_cons_cons, if_pos rfl, ih,
        List.length_cons]
      omega

/-- Lists still agree behind some items that they share, and more items at the
end of the second take nothing away from it. -/
theorem commonPrefixLength_drop_append_le (first second more : List α) {count : Nat}
    (shared : count ≤ commonPrefixLength first second) :
    commonPrefixLength first second - count ≤
      commonPrefixLength (first.drop count) (second.drop count ++ more) := by
  induction first generalizing second count with
  | nil => simp
  | cons a first ih =>
      cases second with
      | nil => simp
      | cons b second =>
          rw [commonPrefixLength_cons_cons] at shared ⊢
          split at shared
          next same =>
            rw [if_pos same]
            cases count with
            | zero =>
                have later := ih second (Nat.zero_le _)
                rw [List.drop_zero, List.drop_zero, List.cons_append, commonPrefixLength_cons_cons,
                  if_pos same]
                simp only [List.drop_zero] at later
                omega
            | succ count =>
                have later := ih second (Nat.le_of_succ_le_succ shared)
                rw [List.drop_succ_cons, List.drop_succ_cons]
                omega
          next different =>
            rw [if_neg different]
            omega

end Common

end ProviderMigration.Difference
