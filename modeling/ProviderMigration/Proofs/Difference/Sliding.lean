import ProviderMigration.Difference.Compaction
import ProviderMigration.Proofs.Difference.Splitting

/-!
# Compact scripts lead to the same place

Every step of a slide rewrites a few neighbouring runs into runs with the same old and new items.
So a compact script leads from and to the same sequences as the script it was made from.
-/

namespace ProviderMigration.Difference

variable {α : Type} {old new : List α}

open Script

namespace Cursor

@[simp] theorem old_keepBefore (items : List α) (after : List (Run α)) :
    Script.old (keepBefore items after) = items ++ Script.old after := by
  unfold keepBefore
  split <;> simp [Run.old]

@[simp] theorem new_keepBefore (items : List α) (after : List (Run α)) :
    Script.new (keepBefore items after) = items ++ Script.new after := by
  unfold keepBefore
  split <;> simp [Run.new]

@[simp] theorem old_keepBehind (items : List α) (before : List (Run α)) :
    Script.old (keepBehind items before).reverse = Script.old before.reverse ++ items := by
  unfold keepBehind
  split <;> simp [Run.old]

@[simp] theorem new_keepBehind (items : List α) (before : List (Run α)) :
    Script.new (keepBehind items before).reverse = Script.new before.reverse ++ items := by
  unfold keepBehind
  split <;> simp [Run.new]

@[simp] theorem solid_keepBefore (items : List α) (after : List (Run α)) :
    Solid (keepBefore items after) ↔ Solid after := by
  unfold keepBefore
  split <;> simp

@[simp] theorem solid_keepBehind (items : List α) (before : List (Run α)) :
    Solid (keepBehind items before) ↔ Solid before := by
  unfold keepBehind
  split <;> simp

theorem Climbs.leads {cursor next : Cursor α} (step : Climbs cursor next)
    (leads : Leads old new cursor.script) : Leads old new next.script where
  old_eq := by
    rw [← leads.old_eq]
    cases step <;> simp [script, Run.old]
  new_eq := by
    rw [← leads.new_eq]
    cases step <;> simp [script, Run.new]
  solid := by
    have solid := leads.solid
    cases step <;> simp_all [script, Run.old, Run.new]

theorem Falls.leads {cursor next : Cursor α} (step : Falls cursor next)
    (leads : Leads old new cursor.script) : Leads old new next.script where
  old_eq := by
    rw [← leads.old_eq]
    cases step <;> simp [script, Run.old]
  new_eq := by
    rw [← leads.new_eq]
    cases step <;> simp [script, Run.new]
  solid := by
    have solid := leads.solid
    cases step <;> simp_all [script, Run.old, Run.new]

end Cursor

variable [DecidableEq α]

theorem leads_visit {before after : List (Run α)} {run : Run α} (change : run.isChange = true)
    (leads : Leads old new (before.reverse ++ run :: after)) :
    Leads old new (Cursor.visit before run after).script := by
  have up : Leads old new (Cursor.slideUp before run after).script :=
    Cursor.slideUp_of_climbs (fun step leads => step.leads leads) before change after leads
  exact Cursor.slideDown_of_falls (fun step leads => step.leads leads) _
    (Cursor.isChange_slideUp before change after) _ up

theorem leads_slide {script : Script α} (change : Change) (leads : Leads old new script) :
    Leads old new (script.slide change) := by
  have walk (before after : List (Run α)) (leads : Leads old new (before.reverse ++ after)) :
      Leads old new (slide.go change before after) := by
    fun_induction slide.go change before after with
    | case1 before => simpa using leads
    | case2 before run after chosen visited ih =>
        have isChange : run.isChange = true := by simp [Run.isChange, chosen]
        have there := leads_visit isChange leads
        refine ih ?_
        simpa [Cursor.script] using there
    | case3 before run after other ih => exact ih (by simpa using leads)
  exact walk [] script leads

/-- Compaction changes only how a script gets from the one sequence to the other. -/
theorem leads_compact {script : Script α} (leads : Leads old new script) :
    Leads old new script.compact :=
  leads_slide .addition (leads_slide .removal leads)

end ProviderMigration.Difference
