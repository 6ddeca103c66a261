import ProviderMigration.Proofs.Migration.Report

/-!
# Dry runs

A dry run is a rehearsal. It leaves all files alone whatever it comes to, and if the
real run gets as far as migrating its files, the dry run comes to the same, except that
it has backed up nothing. The real run reads a file only after it has copied all of them
and rewritten those before it, but the verdict it awaits is still the one at its start.
-/

namespace ProviderMigration.Migration

open Storage

variable (plan : Plan) {settings : Settings} {machine ready : Machine} {target : Place}
  {prepared : Prepared}

/-- A dry run with the same files comes to what is counted from the same verdicts. -/
theorem Plan.dry_run_on (tree : machine.disk.IsTree) (wet : plan.dryRun = false)
    (found : machine.disk.find machine.here true plan.dir = .ok target)
    (done : (plan.prepare settings).on machine = (.ok prepared, ready)) :
    ∃ later, ({ plan with dryRun := true }.run settings).on machine =
      (countAll plan.keepGoing (·.verdictIn settings machine.disk target)
        { Tally.zero with backedUp := 0 } prepared.entries, later) := by
  have holds := ready_of_prepare wet found done
  obtain ⟨listed, rehearsed, same⟩ := prepare_dry_on wet done
  have awaits : ∀ entry ∈ prepared.entries,
      entry.Awaits settings listed target (entry.verdictIn settings machine.disk target) := by
    intro entry member
    refine (holds.awaits_before settings tree found entry member).of_grows same.here ?_ ?_
    · exact same.disk ▸ .refl _
    · rw [same.disk]
  obtain ⟨later, migrated, -⟩ := { plan with dryRun := true }.migrateAll_on settings
    (·.verdictIn settings machine.disk target) awaits holds.listed.nodup
    { Tally.zero with backedUp := 0 }
  exact ⟨later, by rw [run_eq, Attempt.on_bind_of_ok rehearsed, migrated]⟩

/-- A dry run leaves the disk as it is at every moment, and comes to what the real run
comes to if that gets past its backup stage with a backup that lies outside. -/
theorem Plan.dry_run_agrees (plan : Plan) (settings : Settings) (machine : Machine) :
    SameFiles machine (({ plan with dryRun := true }.run settings).on machine).2 ∧
      ∀ target prepared ready, machine.disk.IsTree →
        machine.disk.find machine.here true plan.dir = .ok target →
        ({ plan with dryRun := false }.prepare settings).on machine = (.ok prepared, ready) →
        prepared.LiesOutside ready target →
        (({ plan with dryRun := true }.run settings).on machine).1 =
          (({ plan with dryRun := false }.run settings).on machine).1.map
            fun tally : Tally => { tally with backedUp := 0 } := by
  constructor
  · exact LooksOnly.run rfl settings machine
  · intro target prepared ready tree found done outside
    obtain ⟨_, ran, -⟩ :=
      run_on settings { plan with dryRun := false } tree rfl found done outside
    obtain ⟨_, rehearsed⟩ := dry_run_on { plan with dryRun := false } tree rfl found done
    rw [ran, ← countAll_backedUp]
    exact congrArg Prod.fst rehearsed

theorem Plan.dry_run_agrees_of_sample :
    (samplePrepared ⟨"out"⟩).LiesOutside (sampleReady ⟨"out"⟩) ["w", "infra"] ∧
      (({ samplePlan ⟨"out"⟩ with dryRun := true }.run .standard).on sampleMachine).1 =
        (({ samplePlan ⟨"out"⟩ with dryRun := false }.run .standard).on sampleMachine).1.map
          fun tally : Tally => { tally with backedUp := 0 } :=
  ⟨sample_ready.2, (Plan.dry_run_agrees (samplePlan ⟨"out"⟩) .standard sampleMachine).2
    ["w", "infra"] (samplePrepared ⟨"out"⟩) (sampleReady ⟨"out"⟩) sample_isTree sample_find
    (sample_prepare_on sample_ready.1) sample_ready.2⟩

end ProviderMigration.Migration
