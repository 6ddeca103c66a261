import ProviderMigration.Migration.Run
import ProviderMigration.Proofs.Migration.Attempt

/-!
# Attempts that only look

Everything that a run does before its backup only looks at files: checking the
directory, walking it, and finding out whether its files may be copied to the backup.
So does every step of a dry run.
-/

namespace ProviderMigration.Migration

open Storage

/-- The part of an examination that reads the file, whatever its size. -/
def Plan.examineText {m : Type → Type} [Monad m] [Host m] (settings : Settings) (entry : Entry) :
    Attempt m Outcome := do
  let text ← attempt (.unreadable entry.path) (Host.readText entry.path)
  match outcomeOf settings entry.extension text with
  | .ok outcome => return outcome
  | .error fault => throw (.malformed fault)

namespace LooksOnly

variable {plan : Plan}

protected theorem ite {α : Type} {condition : Prop} [Decidable condition]
    {yes no : Attempt Machine.Action α} (first : LooksOnly yes) (second : LooksOnly no) :
    LooksOnly (if condition then yes else no) := by
  split
  next => exact first
  next => exact second

protected theorem ofResult {α : Type} (result : Except Failure α) :
    LooksOnly (ExceptT.mk (pure result)) :=
  Within.pure SameFiles.refl result

/-! ## Before the backup -/

protected theorem leadsTo (path : Pathname) (kind : Kind) :
    LooksOnly (perform (Host.leadsTo path kind)) :=
  .perform (.leadsTo SameFiles.refl SameFiles.trans path kind)

protected theorem collectFiles (dir : Pathname) (ignoredPaths : List String) :
    LooksOnly (collectFiles dir ignoredPaths) := by
  refine .bind (.ofResult _) fun patterns => .ite (.pure []) (.bind (.look _ _) fun kind => ?_)
  cases kind with
  | special => exact .pure []
  | file => exact .pure _
  | directory => exact .bind (.look _ _) fun files => .pure _

protected theorem backupDir (settings : Settings) : LooksOnly (plan.backupDir settings) := by
  rw [Plan.backupDir]
  cases plan.backupDir? with
  | some backup => exact .pure backup
  | none =>
      refine .bind (.look _ _) fun canonical => ?_
      cases canonical.names.getLast? with
      | none => exact .throw _
      | some name => exact .pure _

protected theorem resolveOuter (path : Pathname) (reversed rest : List String) :
    LooksOnly (resolveNames.resolveOuter path reversed rest) := by
  induction reversed generalizing rest with
  | nil => exact .throw _
  | cons name outer ih =>
      refine .bind (.perform fun machine => .refl machine) fun canonical => ?_
      cases canonical with
      | ok canonical => exact .pure _
      | error error => exact ih _

protected theorem resolveNames (path : Pathname) : LooksOnly (resolveNames path) := by
  refine .bind (.perform fun machine => .refl machine) fun here => ?_
  refine .bind (.perform fun machine => .refl machine) fun canonical => ?_
  cases canonical with
  | ok canonical => exact .pure _
  | error error => exact .resolveOuter path _ _

protected theorem checkBackup (target backup : Pathname) :
    LooksOnly (checkBackup target backup) := by
  have empty : LooksOnly (do
      if ← perform (Host.leadsTo backup .directory) then
        if ← attempt .os (Host.hasEntry backup) then throw (.backupNotEmpty backup)) :=
    .bind (.leadsTo _ _) fun _ =>
      .ite (.bind (.look _ _) fun _ => .ite (.throw _) (.pure ())) (.pure ())
  have vacant : LooksOnly (do
      if ← perform (Host.leadsTo backup .file) then throw (.backupIsAFile backup)
      if ← perform (Host.leadsTo backup .directory) then
        if ← attempt .os (Host.hasEntry backup) then throw (.backupNotEmpty backup)) :=
    .bind (.leadsTo _ _) fun _ => .ite (.bind (.throw _) fun _ => empty) empty
  exact .bind (.resolveNames target) fun _ => .bind (.resolveNames backup) fun _ =>
    .ite (.bind (.throw _) fun _ => vacant) vacant

/-! ## Dry runs -/

protected theorem progress (styles : List Console.Style) (text : String) :
    LooksOnly (plan.progress styles text) :=
  .bind .showsStyles fun _ => .sayUnless plan.quiet _

protected theorem examine (settings : Settings) (entry : Entry) :
    LooksOnly (Plan.examine settings entry) := by
  have reading : LooksOnly (Plan.examineText settings entry) := by
    refine .bind (Within.attempt SameFiles.refl SameFiles.trans _ fun machine => .refl machine) ?_
    intro text
    cases outcomeOf settings entry.extension text with
    | ok outcome => exact .pure outcome
    | error fault => exact .throw _
  exact .ite (.bind (.look _ _) fun _ => .ite (.bind (.throw _) fun _ => reading) reading) reading

end LooksOnly

section Within

variable {relation : Machine → Machine → Prop} (refl : ∀ machine, relation machine machine)
  (trans : ∀ first middle last, relation first middle → relation middle last →
    relation first last)
  (same : ∀ machine later, SameFiles machine later → relation machine later)
  {plan : Plan}

include same in
theorem Within.of_looksOnly {α : Type} {operation : Attempt Machine.Action α}
    (looks : LooksOnly operation) : Within relation operation.run :=
  fun machine => same _ _ (looks machine)

include refl trans same

/-- Except for replacing a file, its migration only looks. -/
theorem Within.migrateFile (settings : Settings) {entry : Entry}
    (replace : plan.dryRun = false → ∀ new,
      Within relation (Host.replace entry.path new : Machine.Action _)) :
    Within relation (plan.migrateFile settings entry : Attempt Machine.Action _).run := by
  refine .bind_attempt refl trans (.of_looksOnly same (.examine settings entry)) fun outcome => ?_
  cases outcome with
  | unchanged => exact .pure refl _
  | changed old new =>
      cases dry : plan.dryRun with
      | true =>
          exact .of_looksOnly same (.bind .showsStyles fun _ => .bind (.say _) fun _ =>
            .bind (.say _) fun _ => .pure true)
      | false =>
          exact .bind_attempt refl trans (.attempt refl trans _ (replace dry _)) fun _ =>
            .pure refl _

theorem Within.step (settings : Settings) (tally : Tally) {entry : Entry}
    (replace : plan.dryRun = false → ∀ new,
      Within relation (Host.replace entry.path new : Machine.Action _)) :
    Within relation (plan.step settings tally entry : Attempt Machine.Action _).run := by
  rw [Plan.step]
  split
  next => exact .of_looksOnly same (.bind (.progress _ _) fun _ => .pure _)
  next =>
    refine .bind_attempt refl trans
      (.settle refl trans (.migrateFile refl trans same settings replace)) fun result => ?_
    refine .of_looksOnly same ?_
    cases result with
    | ok migrated =>
        cases migrated with
        | true => exact .bind (.progress _ _) fun _ => .pure _
        | false => exact .bind (.progress _ _) fun _ => .pure _
    | error failure =>
        exact .ite (.bind .showsStyles fun _ => .bind (.warn _) fun _ => .pure _) (.throw _)

/-- Except for replacing files, a migration only looks. -/
theorem Within.migrateAll (settings : Settings) (tally : Tally) {entries : List Entry}
    (replace : plan.dryRun = false → ∀ entry ∈ entries, ∀ new,
      Within relation (Host.replace entry.path new : Machine.Action _)) :
    Within relation (plan.migrateAll settings tally entries : Attempt Machine.Action _).run := by
  induction entries generalizing tally with
  | nil => exact .pure refl _
  | cons entry rest ih =>
      refine .bind_attempt refl trans (.step refl trans same settings tally fun wet =>
        replace wet entry List.mem_cons_self) fun tally => ih tally fun wet entry member =>
          replace wet entry (List.mem_cons_of_mem _ member)

end Within

namespace LooksOnly

variable {plan : Plan} (dry : plan.dryRun = true)
include dry

protected theorem migrateAll (settings : Settings) (tally : Tally) (entries : List Entry) :
    LooksOnly (plan.migrateAll settings tally entries) :=
  Within.migrateAll SameFiles.refl SameFiles.trans (fun _ _ => id) settings tally fun wet =>
    nomatch dry.symm.trans wet

/-- A dry run only looks at files. -/
protected theorem run (settings : Settings) : LooksOnly (plan.run settings) := by
  have listing : LooksOnly (do
      let entries ← collectFiles plan.dir settings.ignoredPaths
      let backedUp ←
        if plan.dryRun then pure 0
        else do
          let backup ← plan.backupDir settings
          checkBackup plan.dir backup
          plan.backUpAll backup 0 entries
      plan.migrateAll settings { Tally.zero with backedUp := backedUp } entries) := by
    rw [dry]
    exact .bind (.collectFiles _ _) fun _ => .bind (.pure 0) fun _ => .migrateAll dry _ _ _
  exact .bind (.leadsTo _ _) fun _ => .ite listing (.bind (.throw _) fun _ => listing)

end LooksOnly

end ProviderMigration.Migration
