import ProviderMigration.Proofs.Migration.Course
import ProviderMigration.Proofs.Migration.Stages

/-!
# What a run leaves behind

Once its files are listed and copied, a run does to each of them what the verdict on
it says, as the file was before the run. This takes a backup that lies outside the
directory: a copy that comes to lie in it takes the place of an original.

The path of the backup may still lead through the directory on its way out of it. Such
a path makes directories there that were not there before, and this is all that a run
may add.
-/

namespace ProviderMigration.Migration

open Storage

/-- The verdict on the file of an entry, as it is on the disk. -/
def Entry.verdictIn (entry : Entry) (settings : Settings) (disk : Disk) (target : Place) :
    Verdict :=
  match disk.node? (target ++ entry.names) with
  | some (.file data _) => entry.verdict settings data
  | _ => .skipped

/-- Below a directory, the given files are migrated, with their modes kept. Everything
else there is as it was, and whatever is new is a directory. -/
structure MigratedWithin (settings : Settings) (target : Place) (disk later : Disk)
    (done : List Entry) : Prop where
  file : ∀ entry ∈ done, ∃ data mode,
    disk.node? (target ++ entry.names) = some (.file data mode) ∧
      later.node? (target ++ entry.names) =
        some (.file ((entry.verdict settings data).content data) mode)
  other : ∀ place, target <+: place → (∀ entry ∈ done, place ≠ target ++ entry.names) →
    later.node? place = disk.node? place ∨
      (disk.node? place = none ∧ later.node? place = some .directory)

variable {plan : Plan} (settings : Settings) {machine ready : Machine} {target : Place}
  {prepared : Prepared}

/-- Each file that is listed awaits the verdict on it. -/
theorem Ready.awaits_before (holds : Ready plan machine ready target prepared)
    (tree : machine.disk.IsTree)
    (found : machine.disk.find machine.here true plan.dir = .ok target) :
    ∀ entry ∈ prepared.entries,
      entry.Awaits settings machine target (entry.verdictIn settings machine.disk target) := by
  intro entry member
  obtain ⟨below, -⟩ := holds.listed.below entry member
  have leads := holds.listed.leads tree holds.directory entry member
  obtain ⟨data, mode, known⟩ := leads.exists_file
  constructor
  · intro followLast
    have fits := holds.short entry member
    rw [below] at fits
    rw [below]
    exact Disk.find_descend found leads fits
  · exact ⟨data, mode, known, by rw [Entry.verdictIn, known]⟩

section Outside

variable (holds : Ready plan machine ready target prepared)
  (outside : prepared.LiesOutside ready target)
include holds outside

/-- The backup stage has added directories to the directory at most. -/
theorem Ready.node?_within {place : Place} (within : target <+: place) :
    ready.disk.node? place = machine.disk.node? place ∨
      (machine.disk.node? place = none ∧ ready.disk.node? place = some .directory) := by
  rcases holds.adds.keeps.kept place with same | made | copied
  · exact .inl same
  · exact .inr made
  · exact absurd within (outside place copied)

/-- The backup stage leaves the files of the directory alone. -/
theorem Ready.node?_of_some {names : List String} {node : Node}
    (known : machine.disk.node? (target ++ names) = some node) :
    ready.disk.node? (target ++ names) = some node := by
  rcases holds.node?_within outside (List.prefix_append target names) with same | ⟨absent, -⟩
  · exact same.trans known
  · exact nomatch known.symm.trans absent

/-- Each file still awaits the verdict on it after the backup stage. -/
theorem Ready.awaits (tree : machine.disk.IsTree)
    (found : machine.disk.find machine.here true plan.dir = .ok target) :
    ∀ entry ∈ prepared.entries,
      entry.Awaits settings ready target (entry.verdictIn settings machine.disk target) := by
  intro entry member
  have awaits := holds.awaits_before settings tree found entry member
  obtain ⟨data, mode, known, -⟩ := awaits.known
  exact awaits.of_grows holds.adds.here holds.adds.keeps.grows
    ((holds.node?_of_some outside known).trans known.symm)

/-- A migration that comes after the backup stage. -/
theorem MigratedOnly.within {later : Disk} {done : List Entry}
    (migrated : MigratedOnly settings target ready.disk later done)
    (files : ∀ entry ∈ done, ∃ data mode,
      machine.disk.node? (target ++ entry.names) = some (.file data mode)) :
    MigratedWithin settings target machine.disk later done where
  file entry member := by
    obtain ⟨data, mode, known⟩ := files entry member
    exact ⟨data, mode, known,
      migrated.file entry member data mode (holds.node?_of_some outside known)⟩
  other place within apart := by
    rw [migrated.other place apart]
    exact holds.node?_within outside within

end Outside

/-! ## The report of a run -/

/-- The tally counts the files by their verdicts, and lists those that failed in the
order of their names. -/
structure Tally.Counts (tally : Tally) (verdict : Entry → Verdict) (entries : List Entry) :
    Prop where
  verdicts : tally = .ofVerdicts entries.length verdict entries
  total : tally.migrated + tally.unchanged + tally.skipped + tally.failed.length = tally.backedUp
  sorted : ∃ failing : List Entry, tally.failed = failing.map (·.path.text) ∧
    failing.Pairwise fun first second => compare first.names second.names = .lt

/-- What a run comes to that finds the given entries, with the given verdicts, and how
it leaves the disk. -/
structure Reports (plan : Plan) (settings : Settings) (target : Place) (entries : List Entry)
    (verdict : Entry → Verdict) (disk later : Disk) (result : Except Failure Tally) : Prop where
  listed : Listed disk plan.dir target entries
  /-- A run that no failure ends counts and migrates all files. -/
  complete : plan.keepGoing = true ∨ (∀ entry ∈ entries, ¬ (verdict entry).isFailed = true) →
    (∃ tally, result = .ok tally ∧ tally.Counts verdict entries) ∧
      MigratedWithin settings target disk later entries
  /-- A run that ends at the first failure names the file, and has migrated the files in
  front of it. -/
  stopped : plan.keepGoing = false → ∀ front entry rest failure,
    entries = front ++ entry :: rest →
      (∀ earlier ∈ front, ¬ (verdict earlier).isFailed = true) →
        verdict entry = .failed failure →
          result = .error (.file entry.path failure) ∧
            MigratedWithin settings target disk later front

theorem Tally.counts_ofVerdicts {verdict : Entry → Verdict} {entries : List Entry}
    (sorted : entries.Pairwise fun first second => compare first.names second.names = .lt) :
    (Tally.ofVerdicts entries.length verdict entries).Counts verdict entries where
  verdicts := rfl
  total := ofVerdicts_total entries
  sorted := ⟨_, rfl, sorted.sublist List.filter_sublist⟩

/-- Counting the verdicts and migrating the files that are dealt with is what a run
reports. -/
theorem reports_of_migrated (holds : Ready plan machine ready target prepared)
    (outside : prepared.LiesOutside ready target)
    (files : ∀ entry ∈ prepared.entries, ∃ data mode,
      machine.disk.node? (target ++ entry.names) = some (.file data mode))
    {verdict : Entry → Verdict} {later : Disk}
    (migrated : MigratedOnly settings target ready.disk later
      (processed plan.keepGoing verdict prepared.entries)) :
    Reports plan settings target prepared.entries verdict machine.disk later
      (countAll plan.keepGoing verdict (.ofVerdicts prepared.entries.length verdict [])
        prepared.entries) where
  listed := holds.listed
  complete goesOn := by
    have counted : ∀ entry ∈ prepared.entries,
        (verdict entry).isCounted plan.keepGoing = true := by
      intro entry member
      rcases goesOn with keepGoing | sound
      · rw [keepGoing]
        exact Verdict.isCounted_of_keepGoing _
      · exact Verdict.isCounted_of_not_isFailed (sound entry member)
    rw [processed_of_counted counted] at migrated
    exact ⟨⟨_, countAll_of_counted counted, Tally.counts_ofVerdicts holds.listed.sorted⟩,
      migrated.within settings holds outside files⟩
  stopped stops front entry rest failure split sound failed := by
    have counted : ∀ earlier ∈ front, (verdict earlier).isCounted plan.keepGoing = true :=
      fun earlier member => Verdict.isCounted_of_not_isFailed (sound earlier member)
    have ends : ¬ (verdict entry).isCounted plan.keepGoing = true := by
      simp [failed, stops, Verdict.isCounted]
    rw [split, processed_append counted ends] at migrated
    constructor
    · rw [split]
      exact countAll_of_failed counted failed stops
    · refine migrated.within settings holds outside fun earlier member => files earlier ?_
      rw [split]
      exact List.mem_append_left _ member

/-- A run comes to what is counted from the verdicts at its start. -/
theorem Plan.run_on (plan : Plan) (tree : machine.disk.IsTree) (wet : plan.dryRun = false)
    (found : machine.disk.find machine.here true plan.dir = .ok target)
    (done : (plan.prepare settings).on machine = (.ok prepared, ready))
    (outside : prepared.LiesOutside ready target) :
    ∃ later, (plan.run settings).on machine =
        (countAll plan.keepGoing (·.verdictIn settings machine.disk target)
          { Tally.zero with backedUp := prepared.backedUp } prepared.entries, later) ∧
      MigratedOnly settings target ready.disk later.disk
        (processed plan.keepGoing (·.verdictIn settings machine.disk target) prepared.entries) := by
  have holds := ready_of_prepare wet found done
  obtain ⟨later, migrated, only⟩ := plan.migrateAll_on settings
    (·.verdictIn settings machine.disk target) (holds.awaits settings outside tree found)
    holds.listed.nodup { Tally.zero with backedUp := prepared.backedUp }
  exact ⟨later, by rw [run_eq, Attempt.on_bind_of_ok done, migrated], only wet⟩

/-- A run that gets past its backup stage, with a backup that lies outside, reports and
does what the verdicts at its start say. -/
theorem Plan.run_reports (tree : machine.disk.IsTree) (wet : plan.dryRun = false)
    (found : machine.disk.find machine.here true plan.dir = .ok target)
    (done : (plan.prepare settings).on machine = (.ok prepared, ready))
    (outside : prepared.LiesOutside ready target) :
    ∃ result later, (plan.run settings).on machine = (result, later) ∧
      Reports plan settings target prepared.entries (·.verdictIn settings machine.disk target)
        machine.disk later.disk result := by
  have holds := ready_of_prepare wet found done
  obtain ⟨later, ran, only⟩ := plan.run_on settings tree wet found done outside
  refine ⟨_, later, ?_, reports_of_migrated settings holds outside ?_ only⟩
  · rw [ran, holds.backedUp]
    rfl
  · intro entry member
    obtain ⟨data, mode, known, -⟩ := (holds.awaits_before settings tree found entry member).known
    exact ⟨data, mode, known⟩

/-- A machine in the directory `w`, with one file in its directory `infra`. -/
def sampleMachine : Machine :=
  let disk := (Disk.empty.put ["w"] .directory).put ["w", "infra"] .directory
  let data := bytesOf "id = metal_vlan.a.id\n".toList
  .fresh (disk.put ["w", "infra", "a.tf"] (.file data 0o600)) ["w"] ⟨"/xdg"⟩ false

/-- The migration of `infra` with a backup at the given path. -/
def samplePlan (backup : Pathname) : Plan where
  dir := ⟨"infra"⟩
  backupDir? := some backup
  dryRun := false
  keepGoing := true
  quiet := true

/-- What the migration of `infra` finds and copies. -/
def samplePrepared (backup : Pathname) : Prepared where
  entries := [⟨⟨"infra/a.tf"⟩, ["a.tf"]⟩]
  backup? := some backup
  backedUp := 1

/-- The machine when everything is prepared. -/
def sampleReady (backup : Pathname) : Machine :=
  (((samplePlan backup).prepare .standard).on sampleMachine).2

theorem sample_prepare_on {backup : Pathname}
    (done : (((samplePlan backup).prepare .standard).on sampleMachine).1 =
      .ok (samplePrepared backup)) :
    ((samplePlan backup).prepare .standard).on sampleMachine =
      (.ok (samplePrepared backup), sampleReady backup) :=
  Prod.ext done rfl

theorem sample_isTree : sampleMachine.disk.IsTree := by decide +kernel

theorem sample_find :
    sampleMachine.disk.find sampleMachine.here true ⟨"infra"⟩ = .ok ["w", "infra"] := by
  decide +kernel

/-- A backup beside the directory. -/
theorem sample_ready :
    (((samplePlan ⟨"out"⟩).prepare .standard).on sampleMachine).1 = .ok (samplePrepared ⟨"out"⟩) ∧
      (samplePrepared ⟨"out"⟩).LiesOutside (sampleReady ⟨"out"⟩) ["w", "infra"] := by
  decide +kernel

theorem Plan.run_reports_of_sample :
    (samplePrepared ⟨"out"⟩).LiesOutside (sampleReady ⟨"out"⟩) ["w", "infra"] ∧
      ∃ result later, ((samplePlan ⟨"out"⟩).run .standard).on sampleMachine = (result, later) ∧
        Reports (samplePlan ⟨"out"⟩) .standard ["w", "infra"] (samplePrepared ⟨"out"⟩).entries
          (·.verdictIn .standard sampleMachine.disk ["w", "infra"]) sampleMachine.disk later.disk
          result :=
  ⟨sample_ready.2, Plan.run_reports .standard sample_isTree rfl sample_find
    (sample_prepare_on sample_ready.1) sample_ready.2⟩

/-- A path that leads through the directory on its way out of it. -/
def detour : Pathname := ⟨"new/../infra/x/../../out"⟩

theorem detour_ready :
    (((samplePlan detour).prepare .standard).on sampleMachine).1 = .ok (samplePrepared detour) ∧
      (sampleReady detour).disk.find (sampleReady detour).here true detour = .ok ["w", "out"] ∧
      (samplePrepared detour).LiesOutside (sampleReady detour) ["w", "infra"] ∧
      (sampleReady detour).disk.isDirectory ["w", "infra", "x"] = true := by
  decide +kernel

/-- A run may change the directory in a place where there is no file of it, although the
backup and all its copies lie outside. -/
theorem not_every_place_kept :
    ¬ ∀ (plan : Plan) (settings : Settings) (machine ready : Machine) (target : Place)
        (prepared : Prepared),
      machine.disk.IsTree → plan.dryRun = false → plan.keepGoing = true →
        machine.disk.find machine.here true plan.dir = .ok target →
        (plan.prepare settings).on machine = (.ok prepared, ready) →
        (∀ backup ∈ prepared.backup?, ∃ place,
          ready.disk.find ready.here true backup = .ok place ∧ ¬ target <+: place) →
        prepared.LiesOutside ready target →
        ∀ place, target <+: place → (∀ entry ∈ prepared.entries, place ≠ target ++ entry.names) →
          ((plan.run settings).on machine).2.disk.node? place = machine.disk.node? place := by
  obtain ⟨done, found, outside, made⟩ := detour_ready
  have done := sample_prepare_on done
  have apart : ∀ entry ∈ (samplePrepared detour).entries,
      ["w", "infra", "x"] ≠ ["w", "infra"] ++ entry.names := by decide
  intro claim
  have kept := claim (samplePlan detour) .standard sampleMachine (sampleReady detour)
    ["w", "infra"] (samplePrepared detour) sample_isTree rfl rfl sample_find done
    (fun backup chosen => ⟨["w", "out"], Option.some.inj chosen ▸ found, by decide⟩) outside
    ["w", "infra", "x"] (by decide) apart
  obtain ⟨later, ran, only⟩ :=
    (samplePlan detour).run_on .standard sample_isTree rfl sample_find done outside
  -- The migration leaves the new directory alone, since no file is there.
  have still := only.other ["w", "infra", "x"] fun entry member =>
    apart entry ((List.takeWhile_prefix _).subset member)
  rw [ran] at kept
  have absent : sampleMachine.disk.isDirectory ["w", "infra", "x"] = false := by decide +kernel
  rw [Disk.isDirectory, ← still, kept, ← Disk.isDirectory, absent] at made
  exact Bool.false_ne_true made

end ProviderMigration.Migration
