import ProviderMigration.Proofs.Migration.Backup

/-!
# The backup comes first

A run changes a file of the directory only when all its files are in the backup. This holds
at every moment, and not only at the end, so whatever a run fails at, and whenever it is
broken off, no file is lost. Until the last copy is made, the groundwork of the backup says
that nothing is touched. From then on, files are replaced below the directory and nowhere
else, and the copies lie outside it.
-/

namespace ProviderMigration.Migration

open Storage

variable {plan : Plan} {settings : Settings} {machine later ready : Machine}
  {target place : Place} {backup : Pathname} {front back : List String} {prepared : Prepared}
  {disk : Disk}

/-! ## What a run may leave behind -/

/-- Nothing that was there has changed, and nothing is new in the directory that is
migrated. -/
structure Untouched (plan : Plan) (machine : Machine) (disk : Disk) : Prop where
  kept : ∀ {place node}, machine.disk.node? place = some node → disk.node? place = some node
  within : ∀ {target place}, machine.disk.find machine.here true plan.dir = .ok target →
    target <+: place → disk.node? place = machine.disk.node? place

/-- All files of the directory that is migrated are in the backup as they were, and nothing
that was there outside the directory has changed. -/
structure BackedUp (plan : Plan) (settings : Settings) (machine : Machine) (target : Place)
    (disk : Disk) : Prop where
  found : machine.disk.find machine.here true plan.dir = .ok target
  kept : ∀ {place node}, ¬ target <+: place → machine.disk.node? place = some node →
    disk.node? place = some node
  copied : ∃ backup root entries,
    ((plan.backupDir settings).on machine).1 = .ok backup ∧
      ((collectFiles plan.dir settings.ignoredPaths).on machine).1 = .ok entries ∧
      disk.find machine.here true backup = .ok root ∧
      (∀ names, ¬ target <+: root ++ names) ∧
      ∀ entry ∈ entries, ∃ data mode,
        machine.disk.node? (target ++ entry.names) = some (.file data mode) ∧
          disk.node? (root ++ entry.names) = some (.file data mode)

/-- As long as not everything is in the backup, nothing is touched. -/
def Safe (plan : Plan) (settings : Settings) (machine : Machine) (disk : Disk) : Prop :=
  Untouched plan machine disk ∨ ∃ target, BackedUp plan settings machine target disk

/-- A disk that has grown, with changes in one directory only. -/
structure ChangesWithin (target : Place) (disk later : Disk) : Prop where
  grows : disk.Grows later
  outside : ∀ {place}, ¬ target <+: place → later.node? place = disk.node? place

theorem BackedUp.mono {later : Disk} (changes : ChangesWithin target disk later)
    (held : BackedUp plan settings machine target disk) :
    BackedUp plan settings machine target later where
  found := held.found
  kept apart known := (changes.outside apart).trans (held.kept apart known)
  copied := by
    obtain ⟨backup, root, entries, named, lists, located, apart, copies⟩ := held.copied
    refine ⟨backup, root, entries, named, lists, changes.grows.find located, apart, ?_⟩
    intro entry member
    obtain ⟨data, mode, known, copied⟩ := copies entry member
    exact ⟨data, mode, known, (changes.outside (apart entry.names)).trans copied⟩

/-- What is not in the directory that is migrated is safe in any case. -/
theorem Safe.node?_eq_some {node : Node} (safe : Safe plan settings machine disk)
    (outside : ∀ target, machine.disk.find machine.here true plan.dir = .ok target →
      ¬ target <+: place)
    (known : machine.disk.node? place = some node) : disk.node? place = some node := by
  rcases safe with untouched | ⟨target, held⟩
  · exact untouched.kept known
  · exact held.kept (outside target held.found) known

theorem Untouched.refl (plan : Plan) (machine : Machine) : Untouched plan machine machine.disk :=
  ⟨id, fun _ _ => rfl⟩

theorem Groundwork.untouched (ground : Groundwork machine target backup front place back disk)
    (found : machine.disk.find machine.here true plan.dir = .ok target) :
    Untouched plan machine disk where
  kept := ground.kept
  within found' within := by
    obtain rfl := Except.ok.inj (found.symm.trans found')
    exact ground.within _ within

/-! ## The migration of files -/

/-- Replacing files of a directory changes nothing outside it. -/
theorem Plan.within_migrateAll (plan : Plan) (settings : Settings) (tally : Tally) {here : Place}
    {entries : List Entry}
    (found : ∀ entry ∈ entries, ∀ followLast,
      disk.find here followLast entry.path = .ok (target ++ entry.names))
    (known : ∀ entry ∈ entries, ∃ data mode,
      disk.node? (target ++ entry.names) = some (.file data mode)) :
    Within (Stays here (ChangesWithin target disk))
      (plan.migrateAll settings tally entries : Attempt Machine.Action _).run := by
  refine .migrateAll Stays.refl Stays.trans (fun _ _ => Stays.of_sameFiles) settings tally
    fun _ entry member new => ?_
  rw [Plan.replace_eq]
  refine Stays.alter fun changes done => ?_
  obtain ⟨_, replaced, answered⟩ := bind_eq_ok_iff.1 done
  obtain ⟨rfl, -⟩ := Prod.mk.inj (Except.ok.inj answered)
  obtain ⟨_, _, there⟩ := known entry member
  obtain ⟨data, mode, there⟩ := changes.grows.file there
  have led := fun followLast => changes.grows.find (found entry member followLast)
  rw [Disk.replace_eq_ok led there] at replaced
  obtain rfl := Except.ok.inj replaced
  constructor
  · refine changes.grows.trans (.put_file (fun node here => ⟨data, mode, ?_⟩) ..)
    exact Option.some.inj (here.symm.trans there)
  · intro place apart
    rw [Disk.node?_put_of_ne, changes.outside apart]
    rintro rfl
    exact apart (List.prefix_append _ _)

/-! ## The backup of a plan -/

theorem defaultBackup_on (dir : Pathname) (suffix : String) (machine : Machine) :
    (defaultBackup dir suffix : Attempt Machine.Action _).on machine =
      (match machine.disk.resolve machine.here dir with
        | .error error => .error (.unresolvedDirectory dir error)
        | .ok place =>
            match (Pathname.ofNames place).names.getLast? with
            | none => .error (.unnamedBackup dir)
            | some name =>
                .ok ((Pathname.ofNames (Pathname.ofNames place).names.dropLast).join
                  ⟨name ++ suffix⟩), machine) := by
  have start := Attempt.on_attempt (.unresolvedDirectory dir)
    (Host.canonicalize dir : Machine.Action _) machine
  change _ = (Except.mapError _ (machine.disk.resolve machine.here dir >>= _), machine) at start
  rw [defaultBackup]
  cases resolved : machine.disk.resolve machine.here dir with
  | error error =>
      rw [resolved] at start
      rw [Attempt.on_bind_of_error start]
  | ok place =>
      rw [resolved] at start
      rw [Attempt.on_bind_of_ok start]
      dsimp only
      cases (Pathname.ofNames place).names.getLast? <;> rfl

/-- Which backup a plan has depends on nothing but the files. -/
theorem Plan.backupDir_on_of_sameFiles (same : SameFiles machine later) :
    ((plan.backupDir settings).on later).1 = ((plan.backupDir settings).on machine).1 := by
  rw [Plan.backupDir]
  cases plan.backupDir? with
  | some backup => rfl
  | none => rw [defaultBackup_on, defaultBackup_on, same.disk, same.here]

/-- The backup of a plan has a path unless the plan asks for one that has none. -/
theorem Plan.text_backupDir_ne_empty (given : plan.backupDir? ≠ some ⟨""⟩)
    (named : ((plan.backupDir settings).on machine).1 = .ok backup) : backup.text ≠ "" := by
  rw [Plan.backupDir] at named
  cases chosen : plan.backupDir? with
  | some other =>
      rw [chosen] at named given
      obtain rfl := Except.ok.inj named
      exact fun blank => given (by rw [← blank])
  | none =>
      rw [chosen, defaultBackup_on] at named
      dsimp only at named
      split at named
      next => contradiction
      next place _ =>
        split at named
        next => contradiction
        next name last =>
          obtain rfl := Except.ok.inj named
          have member := List.mem_of_getLast? last
          have proper := (Pathname.isPart_of_mem_names name member).1
          refine Pathname.text_join_ne_empty ?_
          rw [ne_eq, String.append_eq_empty_iff]
          exact fun blank => proper.nonempty blank.1

theorem Site.of_sameFiles (same : SameFiles machine later)
    (site : Site later target backup front place back) :
    Site machine target backup front place back := by
  obtain ⟨disk, -, here⟩ := same
  obtain ⟨tree, begin, directory, split, furthest, forward, outside, vacant⟩ := site
  rw [here] at begin furthest
  rw [disk] at tree begin directory furthest outside vacant
  exact ⟨tree, begin, directory, split, furthest, forward, outside, vacant⟩

section Chosen

variable (tree : machine.disk.IsTree)
  (begin : machine.disk.node? machine.here = some .directory)
  (given : plan.backupDir? ≠ some ⟨""⟩)
  (forward : ∀ backup, ((plan.backupDir settings).on machine).1 = .ok backup →
    ".." ∉ backup.names)
  (wet : plan.dryRun = false) {result : Except Failure Tally}
include tree begin given forward

/-- A backup that has been checked has a site, where nothing is made yet. -/
theorem Plan.exists_site_of_checked {listed looked checked : Machine}
    (found : machine.disk.find machine.here true plan.dir = .ok target)
    (directory : machine.disk.node? target = some .directory) (same : SameFiles machine listed)
    (named : (plan.backupDir settings).on listed = (.ok backup, looked))
    (vacant : (checkBackup plan.dir backup).on looked = (.ok (), checked)) :
    ((plan.backupDir settings).on machine).1 = .ok backup ∧ backup.text ≠ "" ∧
      checked.here = machine.here ∧ ∃ front place back,
        Site machine target backup front place back ∧
          Groundwork machine target backup front place back checked.disk := by
  have named' : ((plan.backupDir settings).on machine).1 = .ok backup := by
    rw [← Plan.backupDir_on_of_sameFiles same, named]
  have text := Plan.text_backupDir_ne_empty given named'
  have same : SameFiles machine looked :=
    .trans _ listed _ same ((LooksOnly.backupDir _).sameFiles named)
  have same' : SameFiles machine checked :=
    .trans _ looked _ same ((LooksOnly.checkBackup _ _).sameFiles vacant)
  refine ⟨named', text, same'.here, ?_⟩
  rw [← same.disk] at tree begin directory found
  rw [← same.here] at begin found
  obtain ⟨front, place, back, site⟩ := exists_site tree begin found directory text
    (fun outer inner split => absurd (split ▸ by simp) (forward backup named')) vacant
  have site := site.of_sameFiles same
  exact ⟨front, place, back, site, same'.disk ▸ site.groundwork⟩

include wet

/-- Until the first file is migrated, nothing is touched. -/
theorem Plan.since_prepare :
    Since (Untouched plan machine) machine ((plan.prepare settings).on machine).2 := by
  have untouched : ∀ {later}, SameFiles machine later → Untouched plan machine later.disk :=
    fun same => same.disk ▸ .refl plan machine
  rw [Plan.prepare]
  refine .bind (.leadsTo _ _) (.refl _ _) fun leads started led same => ?_
  cases leads with
  | false => exact .of_sameFiles (.refl started) (untouched same)
  | true =>
      obtain ⟨rfl, target, found, directory⟩ := exists_of_leadsTo led
      refine .bind (.collectFiles _ _) (untouched same) fun entries listed lists same => ?_
      rw [wet, if_neg Bool.false_ne_true]
      refine .bind (.backupDir _) (untouched same) fun backup looked named further => ?_
      refine .bind (.checkBackup _ _) (untouched (.trans _ _ _ same further))
        fun _ checked vacant _ => ?_
      obtain ⟨-, text, here, front, place, back, site, ground⟩ :=
        plan.exists_site_of_checked tree begin given forward found directory same named vacant
      have leads := (listed_of_collectFiles found directory lists).leads tree directory
      have copies := site.within_backUpAll text plan 0 leads
      have stays := Within.bind_attempt Stays.refl Stays.trans copies fun total =>
        .pure Stays.refl (Except.ok (Prepared.mk entries (some backup) total))
      exact (stays.related rfl here ground).2.imp fun disk ground => ground.untouched found

/-- When the first file is migrated, all are in the backup. -/
theorem Plan.backedUp_of_prepare
    (found : machine.disk.find machine.here true plan.dir = .ok target)
    (done : (plan.prepare settings).on machine = (.ok prepared, ready))
    (nonempty : prepared.entries ≠ []) : BackedUp plan settings machine target ready.disk := by
  obtain ⟨⟨_, found', directory⟩, listed, backup, looked, checked, lists, -, named, vacant,
    copies⟩ := exists_of_prepare wet done
  obtain rfl := Except.ok.inj (found'.symm.trans found)
  obtain ⟨chosen, text, here, front, place, back, site, ground⟩ :=
    plan.exists_site_of_checked tree begin given forward found directory
      ((LooksOnly.collectFiles _ _).sameFiles lists) named vacant
  have entries := listed_of_collectFiles found directory lists
  have leads := entries.leads tree directory
  have ground' := ((site.within_backUpAll text plan 0 leads).related copies here ground).2.disk
  have held := site.backUpAll_on text found here ground
    (fun entry member => (entries.below entry member).1) leads entries.nodup copies
  obtain ⟨first, member⟩ := List.exists_mem_of_ne_nil _ nonempty
  have stands := (held first member).1
  refine ⟨found, fun _ known => ground'.kept known, backup, place ++ back, prepared.entries, chosen,
    by rw [lists], Disk.find_of_enters stands.entered text stands.short,
    fun names => site.not_within_below stands.vacant stands.short names, fun entry member => ?_⟩
  obtain ⟨data, mode, known⟩ := (leads entry member).exists_file
  exact ⟨data, mode, known, (held entry member).2.trans known⟩

/-- From the first file on, all are in the backup. -/
theorem Plan.since_migrateAll {tally : Tally}
    (start : (plan.prepare settings).on machine = (.ok prepared, ready))
    (done : (plan.migrateAll settings tally prepared.entries).on ready = (result, later)) :
    Since (Safe plan settings machine) ready later := by
  by_cases none : prepared.entries = []
  · have before := plan.since_prepare tree begin given forward wet
    rw [start] at before
    rw [none] at done
    obtain ⟨-, rfl⟩ := Prod.mk.inj done
    exact .of_sameFiles (.refl ready) (.inl before.disk)
  · obtain ⟨⟨target, found, -⟩, -⟩ := exists_of_prepare wet start
    have holds := ready_of_prepare wet found start
    have awaits := holds.awaits_before settings tree found
    have grows := holds.adds.keeps.grows
    have files : ∀ entry ∈ prepared.entries, ∃ data mode,
        ready.disk.node? (target ++ entry.names) = some (.file data mode) := by
      intro entry member
      obtain ⟨_, _, known, -⟩ := (awaits entry member).known
      exact grows.file known
    have within := plan.within_migrateAll settings tally
      (fun entry member followLast => grows.find ((awaits entry member).found followLast)) files
    have held := plan.backedUp_of_prepare tree begin given forward wet found start none
    exact (within.related done holds.adds.here ⟨.refl _, fun _ => rfl⟩).2.imp
      fun _ changes => .inr ⟨target, held.mono changes⟩

/-- At every moment of a run, either nothing is touched or all files of the directory are in
the backup as they were, and nothing that was there outside the directory ever changes. A run
that cannot be prepared touches nothing. This takes a backup whose path does not lead back,
and is not empty: the check finds nothing by an empty path, but once there are names behind
it, it leads to the current directory. -/
theorem Plan.run_safe (done : (plan.run settings).on machine = (result, later)) :
    Since (Safe plan settings machine) machine later ∧
      ∀ failure ready, (plan.prepare settings).on machine = (.error failure, ready) →
        result = .error failure ∧ Since (Untouched plan machine) machine later := by
  have before := plan.since_prepare tree begin given forward wet
  rw [Plan.run_eq] at done
  cases start : (plan.prepare settings).on machine with
  | mk prepared ready =>
      rw [start] at before
      cases prepared with
      | error failure =>
          rw [Attempt.on_bind_of_error start] at done
          obtain ⟨rfl, rfl⟩ := Prod.mk.inj done
          refine ⟨before.imp fun _ => .inl, fun failure _ failed => ?_⟩
          obtain ⟨same, -⟩ := Prod.mk.inj failed
          exact ⟨congrArg Except.error (Except.error.inj same), before⟩
      | ok prepared =>
          rw [Attempt.on_bind_of_ok start] at done
          have rest := plan.since_migrateAll tree begin given forward wet start done
          exact ⟨(before.imp fun _ => .inl).trans rest, fun _ _ => nofun⟩

end Chosen

theorem Plan.run_safe_of_sample :
    Since (Safe (samplePlan ⟨"out"⟩) .standard sampleMachine) sampleMachine
        (((samplePlan ⟨"out"⟩).run .standard).on sampleMachine).2 ∧
      ∀ failure ready,
        ((samplePlan ⟨"out"⟩).prepare .standard).on sampleMachine = (.error failure, ready) →
          (((samplePlan ⟨"out"⟩).run .standard).on sampleMachine).1 = .error failure ∧
            Since (Untouched (samplePlan ⟨"out"⟩) sampleMachine) sampleMachine
              (((samplePlan ⟨"out"⟩).run .standard).on sampleMachine).2 := by
  have forward : ∀ backup, (((samplePlan ⟨"out"⟩).backupDir .standard).on sampleMachine).1 =
      .ok backup → ".." ∉ backup.names := by
    intro backup named
    obtain rfl := Except.ok.inj named
    rw [sample_names]
    decide
  exact Plan.run_safe sample_isTree sample_directory.1 (by decide) forward rfl (Prod.eta _).symm

/-- The machine with a file in its current directory that has the name of one in `infra`. -/
def crowdedMachine : Machine :=
  { sampleMachine with
    disk := sampleMachine.disk.put ["w", "a.tf"] (.file (bytesOf "old".toList) 0o600) }

/-- The size of a file. -/
def sizeAt (disk : Disk) (place : Place) : Option Nat :=
  match disk.node? place with
  | some (.file data _) => some data.size
  | _ => none

theorem crowded_disk :
    crowdedMachine.disk.IsTree ∧ crowdedMachine.disk.isDirectory crowdedMachine.here = true ∧
      crowdedMachine.disk.find crowdedMachine.here true ⟨"infra"⟩ = .ok ["w", "infra"] := by
  decide +kernel

theorem crowded_sizes :
    sizeAt crowdedMachine.disk ["w", "a.tf"] = some 3 ∧
      sizeAt (((samplePlan ⟨""⟩).run .standard).on crowdedMachine).2.disk ["w", "a.tf"] =
        some 21 := by
  decide +kernel

/-- With the empty path, the backup may take the place of files outside the directory. -/
theorem not_run_safe :
    ¬ ∀ (plan : Plan) (settings : Settings) (machine later : Machine)
        (result : Except Failure Tally),
      machine.disk.IsTree → machine.disk.node? machine.here = some .directory →
        plan.dryRun = false →
        (∀ backup, ((plan.backupDir settings).on machine).1 = .ok backup →
          ".." ∉ backup.names) →
        (plan.run settings).on machine = (result, later) →
        Since (Safe plan settings machine) machine later := by
  obtain ⟨tree, begin, found⟩ := crowded_disk
  obtain ⟨before, after⟩ := crowded_sizes
  have forward : ∀ backup, (((samplePlan ⟨""⟩).backupDir .standard).on crowdedMachine).1 =
      .ok backup → ".." ∉ backup.names := by
    intro backup named
    obtain rfl := Except.ok.inj named
    exact List.not_mem_nil
  have outside : ∀ target,
      crowdedMachine.disk.find crowdedMachine.here true (samplePlan ⟨""⟩).dir = .ok target →
        ¬ target <+: ["w", "a.tf"] := by
    intro target located
    obtain rfl := Except.ok.inj (found.symm.trans located)
    decide
  intro claim
  have since := claim (samplePlan ⟨""⟩) .standard crowdedMachine _ _ tree
    (Disk.isDirectory_iff.1 begin) rfl forward (Prod.eta _).symm
  have known : crowdedMachine.disk.node? ["w", "a.tf"] = _ := Disk.node?_put_self (by simp) ..
  have kept := since.disk.node?_eq_some outside known
  rw [sizeAt, kept, ← known, ← sizeAt, before] at after
  contradiction

end ProviderMigration.Migration
