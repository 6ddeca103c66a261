import ProviderMigration.Difference.Shortest
import ProviderMigration.Proofs.Difference.Meeting

/-!
# Scripts by division

A derivation is a tree of grids: each grid is framed by what its sequences have in common at both
ends, and is either divided where the searches have met in it, or left undivided. Every meeting
place in a derivation leaves two smaller grids. The script of two sequences comes from a
derivation, so the case in which a meeting place counts as none never comes up.
-/

namespace ProviderMigration.Difference

variable {α : Type}

namespace Script

/-- The script that removes and adds items; what is empty needs no run. -/
def replacing (removed added : List α) : Script α :=
  (if removed.isEmpty then [] else [.remove removed]) ++ if added.isEmpty then [] else [.add added]

@[simp] theorem old_replacing (removed added : List α) :
    old (replacing removed added) = removed := by
  cases removed <;> cases added <;> simp [replacing, Run.old]

@[simp] theorem new_replacing (removed added : List α) :
    new (replacing removed added) = added := by
  cases removed <;> cases added <;> simp [replacing, Run.new]

/-- Every change changes something. -/
def Solid (script : Script α) : Prop :=
  ∀ run ∈ script, run.isChange = true → run.old ++ run.new ≠ []

@[simp] theorem solid_nil : Solid ([] : Script α) := by simp [Solid]

@[simp] theorem solid_cons (run : Run α) (script : Script α) :
    Solid (run :: script) ↔ (run.isChange = true → run.old ++ run.new ≠ []) ∧ Solid script := by
  simp [Solid]

@[simp] theorem solid_append (first second : Script α) :
    Solid (first ++ second) ↔ Solid first ∧ Solid second := by
  simp [Solid, or_imp, forall_and]

@[simp] theorem solid_reverse (script : Script α) : Solid script.reverse ↔ Solid script := by
  simp [Solid]

@[simp] theorem solid_keeping (items : List α) : Solid (keeping items) := by
  cases items <;> simp [keeping]

@[simp] theorem solid_replacing (removed added : List α) : Solid (replacing removed added) := by
  cases removed <;> cases added <;> simp [replacing, Run.old, Run.new]

end Script

open Script

/-- A script that leads from one sequence to another, by changes that change something. -/
structure Leads (old new : List α) (script : Script α) : Prop where
  old_eq : script.old = old
  new_eq : script.new = new
  solid : script.Solid

variable [DecidableEq α]

/-- The sequences start and end with what they have in common, as far as it goes. -/
structure Framed (old new head removed added foot : List α) : Prop where
  old_eq : old = head ++ (removed ++ foot)
  new_eq : new = head ++ (added ++ foot)
  head_longest : commonPrefixLength (removed ++ foot) (added ++ foot) = 0
  foot_longest : commonSuffixLength removed added = 0

/-- How two sequences and a pair of frontiers lead to a script and to the frontiers after it. -/
inductive Divides : List α → List α → Frontiers → Script α → Frontiers → Prop where
  | plain {old new head removed added foot : List α} {frontiers : Frontiers}
      (framed : Framed old new head removed added foot) (plain : removed = [] ∨ added = []) :
      Divides old new frontiers (keeping head ++ replacing removed added ++ keeping foot) frontiers
  | unmet {old new head removed added foot : List α} {frontiers later : Frontiers}
      (framed : Framed old new head removed added foot) (left : removed ≠ []) (right : added ≠ [])
      (unmet : meeting? removed.toArray added.toArray frontiers = (later, none)) :
      Divides old new frontiers (keeping head ++ replacing removed added ++ keeping foot) later
  | met {old new head removed added foot : List α} {frontiers later middle last : Frontiers}
      {column row : Nat} {first second : Script α}
      (framed : Framed old new head removed added foot) (left : removed ≠ []) (right : added ≠ [])
      (met : meeting? removed.toArray added.toArray frontiers = (later, some (column, row)))
      (splits : Splits removed.toArray added.toArray column row)
      (above : Divides (removed.take column) (added.take row) later first middle)
      (below : Divides (removed.drop column) (added.drop row) middle second last) :
      Divides old new frontiers (keeping head ++ (first ++ second) ++ keeping foot) last

/-! ## Framing -/

/-- Past the items in common, nothing is left in common. -/
theorem commonPrefixLength_drop (first second : List α) :
    commonPrefixLength (first.drop (commonPrefixLength first second))
      (second.drop (commonPrefixLength first second)) = 0 := by
  have total := commonPrefixLength_append (first.take (commonPrefixLength first second))
    (first.drop (commonPrefixLength first second)) (second.drop (commonPrefixLength first second))
  have fits := commonPrefixLength_le first second
  rw [List.take_append_drop, take_commonPrefixLength, List.take_append_drop,
    List.length_take, Nat.min_eq_left fits.2] at total
  omega

/-- In front of the items in common, nothing is left in common. -/
theorem commonSuffixLength_take (first second : List α) :
    commonSuffixLength (first.take (first.length - commonSuffixLength first second))
      (second.take (second.length - commonSuffixLength first second)) = 0 := by
  have rest := commonPrefixLength_drop first.reverse second.reverse
  rw [List.drop_reverse, List.drop_reverse] at rest
  exact rest

theorem exists_framed (old new : List α) {head foot : Nat} {oldTail newTail : List α}
    (headEq : head = commonPrefixLength old new) (oldEq : oldTail = old.drop head)
    (newEq : newTail = new.drop head) (footEq : foot = commonSuffixLength oldTail newTail) :
    Framed old new (old.take head) (oldTail.take (oldTail.length - foot))
      (newTail.take (newTail.length - foot)) (oldTail.drop (oldTail.length - foot)) := by
  have same : oldTail.drop (oldTail.length - foot) = newTail.drop (newTail.length - foot) := by
    rw [footEq]
    exact drop_commonSuffixLength oldTail newTail
  refine ⟨?_, ?_, ?_, ?_⟩
  · rw [List.take_append_drop, oldEq, List.take_append_drop]
  · rw [same, List.take_append_drop, newEq, headEq, take_commonPrefixLength,
      List.take_append_drop]
  · rw [List.take_append_drop, same, List.take_append_drop, oldEq, newEq, headEq]
    exact commonPrefixLength_drop old new
  · rw [footEq]
    exact commonSuffixLength_take oldTail newTail

theorem Framed.length_le {old new head removed added foot : List α}
    (framed : Framed old new head removed added foot) :
    removed.length + added.length ≤ old.length + new.length := by
  rw [framed.old_eq, framed.new_eq]
  simp only [List.length_append]
  omega

/-- Framed sequences have neither a first nor a last item in common. -/
theorem Framed.apart {old new head removed added foot : List α}
    (framed : Framed old new head removed added foot)
    (left : removed ≠ []) (right : added ≠ []) : Apart removed.toArray added.toArray where
  old_pos := List.length_pos_iff.2 left
  new_pos := List.length_pos_iff.2 right
  first := by
    obtain ⟨a, removed, rfl⟩ := List.exists_cons_of_ne_nil left
    obtain ⟨b, added, rfl⟩ := List.exists_cons_of_ne_nil right
    have head := framed.head_longest
    rw [List.cons_append, List.cons_append, commonPrefixLength_cons_cons] at head
    intro same
    rw [if_pos (by simpa using same)] at head
    omega
  last := by
    have foot := framed.foot_longest
    rw [← List.dropLast_concat_getLast left, ← List.dropLast_concat_getLast right,
      commonSuffixLength, List.reverse_append, List.reverse_append, List.reverse_singleton,
      List.reverse_singleton, List.singleton_append, List.singleton_append,
      commonPrefixLength_cons_cons] at foot
    intro same
    rw [List.getElem?_toArray, List.getElem?_toArray, List.size_toArray, List.size_toArray,
      ← List.getLast?_eq_getElem?, ← List.getLast?_eq_getElem?, List.getLast?_eq_some_getLast left,
      List.getLast?_eq_some_getLast right] at same
    rw [if_pos (Option.some.inj same)] at foot
    omega

/-! ## Deriving the script -/

/-- Every grid is framed. It is left undivided if there is nothing to search for, or where the
searches do not meet. -/
theorem exists_between (old new : List α) (frontiers : Frontiers) :
    ∃ head removed added foot, Framed old new head removed added foot ∧
      ((removed = [] ∨ added = []) →
        between old new frontiers =
          (keeping head ++ replacing removed added ++ keeping foot, frontiers)) ∧
      (removed ≠ [] → added ≠ [] → ∀ {later : Frontiers},
        (meeting? removed.toArray added.toArray frontiers = (later, none) →
          between old new frontiers =
            (keeping head ++ replacing removed added ++ keeping foot, later)) ∧
        ∀ {column row : Nat},
          meeting? removed.toArray added.toArray frontiers = (later, some (column, row)) →
          0 < column + row ∧ column + row < removed.length + added.length →
          between old new frontiers =
            let upper := between (removed.take column) (added.take row) later
            let lower := between (removed.drop column) (added.drop row) upper.2
            (keeping head ++ (upper.1 ++ lower.1) ++ keeping foot, lower.2)) := by
  generalize result : between old new frontiers = outcome
  rw [between] at result
  generalize headEq : commonPrefixLength old new = head at result
  generalize oldEq : old.drop head = oldTail at result
  generalize newEq : new.drop head = newTail at result
  generalize footEq : commonSuffixLength oldTail newTail = foot at result
  have framed := exists_framed old new headEq.symm oldEq.symm newEq.symm footEq.symm
  refine ⟨_, _, _, _, framed, ?_, ?_⟩
  all_goals
    generalize oldTail.take (oldTail.length - foot) = removed at result
    generalize newTail.take (newTail.length - foot) = added at result
    subst result
  · rintro (rfl | rfl)
    · cases added <;> simp [replacing]
    · cases removed <;> simp [replacing]
  · intro left right later
    have some : removed.isEmpty = false := by simpa using left
    have some' : added.isEmpty = false := by simpa using right
    simp only [some, some', Bool.false_eq_true, false_and, if_false]
    refine ⟨fun found => ?_, fun {column row} found progress => ?_⟩
    · rw [found]
      simp [replacing, some, some']
    · rw [found]
      dsimp only
      rw [if_pos progress]

/-- The script of two sequences comes from a derivation, and the frontiers keep their room. -/
theorem divides_between (old new : List α) {room : Nat} {frontiers : Frontiers}
    (fits : frontiers.Room room) (enough : (old.length + new.length + 1) / 2 ≤ room) :
    Divides old new frontiers (between old new frontiers).1 (between old new frontiers).2 ∧
      (between old new frontiers).2.Room room := by
  -- The induction is on both lengths together, since a part may have all of one sequence.
  induction size : old.length + new.length using Nat.strongRecOn generalizing old new frontiers with
  | ind length ih =>
  subst size
  obtain ⟨head, removed, added, foot, framed, plain, searched⟩ := exists_between old new frontiers
  have lengths := framed.length_le
  by_cases empty : removed = [] ∨ added = []
  · rw [plain empty]
    exact ⟨.plain framed empty, fits⟩
  obtain ⟨left, right⟩ := not_or.1 empty
  rcases found : meeting? removed.toArray added.toArray frontiers with
    ⟨later, _ | ⟨column, row⟩⟩
  · rw [(searched left right).1 found]
    exact ⟨.unmet framed left right found, room_meeting? fits found⟩
  · have narrow : frontiers.Room ((removed.length + added.length + 1) / 2) :=
      ⟨fits.forward.mono (by omega), fits.backward.mono (by omega)⟩
    have splits := splits_meeting? (framed.apart left right) narrow found
    have progress : 0 < column + row ∧ column + row < removed.length + added.length := by
      have first := splits.first
      have last := splits.last
      simp only [List.size_toArray] at last
      omega
    rw [(searched left right).2 found progress]
    have removedSome := List.length_pos_iff.2 left
    have addedSome := List.length_pos_iff.2 right
    have upper := ih _ (by simp only [List.length_take]; omega) (removed.take column)
      (added.take row) (room_meeting? fits found) (by simp only [List.length_take]; omega) rfl
    have lower := ih _ (by simp only [List.length_drop]; omega) (removed.drop column)
      (added.drop row) upper.2 (by simp only [List.length_drop]; omega) rfl
    exact ⟨.met framed left right found splits upper.1 lower.1, lower.2⟩

theorem divides_shortest (old new : List α) :
    ∃ later, Divides old new (.start old.length new.length) (shortest old new) later := by
  have room : (old.length + new.length + 1) / 2 < (old.length + new.length + 1) / 2 + 1 :=
    Nat.lt_succ_self _
  exact ⟨_, (divides_between old new ⟨Frontier.room_start room, Frontier.room_start room⟩
    (Nat.le_refl _)).1⟩

theorem Framed.leads {old new head removed added foot : List α}
    (framed : Framed old new head removed added foot) {middle : Script α}
    (inner : Leads removed added middle) :
    Leads old new (keeping head ++ middle ++ keeping foot) where
  old_eq := by simp [framed.old_eq, inner.old_eq]
  new_eq := by simp [framed.new_eq, inner.new_eq]
  solid := by simpa using inner.solid

/-- Whatever the searches answer, a derived script leads from the one sequence to the other. -/
theorem Divides.leads {old new : List α} {frontiers later : Frontiers} {script : Script α}
    (divides : Divides old new frontiers script later) : Leads old new script := by
  induction divides with
  | plain framed => exact framed.leads ⟨by simp, by simp, by simp⟩
  | unmet framed => exact framed.leads ⟨by simp, by simp, by simp⟩
  | met framed left right met splits above below upper lower =>
      refine framed.leads ⟨?_, ?_, ?_⟩
      · rw [old_append, upper.old_eq, lower.old_eq, List.take_append_drop]
      · rw [new_append, upper.new_eq, lower.new_eq, List.take_append_drop]
      · exact (solid_append _ _).2 ⟨upper.solid, lower.solid⟩

end ProviderMigration.Difference
