import ProviderMigration.Proofs.Migration.Copies
import ProviderMigration.Proofs.Migration.Looking

/-!
# The stages of a run

A run prepares its migration before it changes the first file: it lists the files and,
unless it is dry, copies them to the backup. This module says what the list holds and
what the preparation leaves behind, on a disk whose nodes all stand in directories.
-/

namespace ProviderMigration.Migration

open Storage

/-! ## The list of files -/

section Selected

variable {patterns : List Ignore.Pattern} {outer : List String} {files : List (List String)}

theorem mem_of_mem_selectFiles {names : List String}
    (selected : names ∈ selectFiles patterns outer files) : names ∈ files :=
  (List.mem_filter.1 (List.mem_mergeSort.1 selected)).1

/-- The files that are selected from distinct ones are in strict order. -/
theorem pairwise_selectFiles (distinct : files.Nodup) :
    (selectFiles patterns outer files).Pairwise fun first second =>
      compare first second = .lt := by
  have notGreater : ∀ first second : List String,
      (compare first second != .gt) = (compare first second).isLE := by
    intro first second
    cases compare first second <;> rfl
  have sorted : (selectFiles patterns outer files).Pairwise fun first second =>
      (compare first second != .gt) = true := by
    refine List.pairwise_mergeSort ?_ ?_ _
    · intro first second third
      simp only [notGreater]
      exact Std.TransCmp.isLE_trans
    · intro first second
      have swapped : compare second first = (compare first second).swap :=
        Std.OrientedCmp.eq_swap
      rw [notGreater, notGreater, swapped]
      cases compare first second <;> rfl
  have kept : (selectFiles patterns outer files).Nodup :=
    (List.mergeSort_perm _ _).nodup_iff.2 (distinct.sublist List.filter_sublist)
  refine (sorted.and kept).imp fun {first second} ⟨ordered, different⟩ => ?_
  rw [notGreater] at ordered
  cases order : compare first second with
  | lt => rfl
  | eq => exact absurd (Std.LawfulEqOrd.eq_of_compare order) different
  | gt =>
      rw [order] at ordered
      contradiction

end Selected

/-- The entries are files below the directory at `dir`, in the order of their names. -/
structure Listed (disk : Disk) (dir : Pathname) (target : Place) (entries : List Entry) :
    Prop where
  below : ∀ entry ∈ entries,
    entry = .below dir entry.names ∧ entry.names ∈ disk.filesBelow target
  sorted : entries.Pairwise fun first second => compare first.names second.names = .lt

variable {machine later : Machine} {dir : Pathname} {target : Place} {entries : List Entry}

theorem Listed.nodup {disk : Disk} (listed : Listed disk dir target entries) :
    (entries.map Entry.names).Nodup := by
  rw [List.Nodup, List.pairwise_map]
  refine listed.sorted.imp fun {first second} ordered same => ?_
  have equal : compare first.names second.names = .eq := by
    rw [same]
    exact Std.ReflCmp.compare_self
  exact nomatch ordered.symm.trans equal

/-- What a node is. -/
def kindOf : Node → Kind
  | .file _ _ => .file
  | .directory => .directory
  | .link _ => .special

theorem kind_on (path : Pathname) (machine : Machine) :
    (Host.kind path : Machine.Action _) machine =
      ((machine.disk.open? machine.here path).map fun opened => kindOf opened.2, machine) := by
  change (machine.disk.open? machine.here path >>= _, machine) = _
  cases machine.disk.open? machine.here path with
  | error error => rfl
  | ok opened =>
      obtain ⟨place, node⟩ := opened
      cases node <;> rfl

/-- Reading the patterns of a walk asks nothing of the host. -/
theorem on_readPatterns (ignoredPaths : List String) (machine : Machine) :
    Attempt.on (ExceptT.mk (pure (readPatterns ignoredPaths))) machine =
      (readPatterns ignoredPaths, machine) := rfl

/-- A walk that lists something has read its patterns. -/
theorem exists_patterns_of_collectFiles {ignoredPaths : List String}
    (done : (collectFiles dir ignoredPaths).on machine = (.ok entries, later)) :
    ∃ patterns, readPatterns ignoredPaths = .ok patterns := by
  obtain ⟨patterns, middle, read, -⟩ := Attempt.exists_of_on_bind done
  rw [on_readPatterns] at read
  exact ⟨patterns, (Prod.mk.inj read).1⟩

/-- A walk of a directory selects among the files below it. -/
theorem collectFiles_on {ignoredPaths : List String} {patterns : List Ignore.Pattern}
    (found : machine.disk.find machine.here true dir = .ok target)
    (directory : machine.disk.node? target = some .directory)
    (read : readPatterns ignoredPaths = .ok patterns) :
    (collectFiles dir ignoredPaths).on machine =
      (.ok (if isStandardInput dir then []
        else (selectFiles patterns (namesInSight dir) (machine.disk.filesBelow target)).map
          (Entry.below dir)), machine) := by
  have opened := Disk.open?_eq_ok_iff.2 ⟨found, directory⟩
  have kind : (attempt (.unwalkable dir) (Host.kind dir) :
      Attempt Machine.Action _).on machine = (.ok .directory, machine) := by
    rw [Attempt.on_attempt, kind_on, opened]
    rfl
  have below : (attempt (.unwalkable dir) (Host.filesBelow dir) :
      Attempt Machine.Action _).on machine = (.ok (machine.disk.filesBelow target), machine) := by
    rw [Attempt.on_attempt]
    change ((machine.disk.open? machine.here dir >>= _).mapError _, _) = _
    rw [opened]
    rfl
  have parsed := on_readPatterns ignoredPaths machine
  rw [read] at parsed
  rw [collectFiles, read, Attempt.on_bind_of_ok parsed]
  split
  next => rfl
  next =>
    rw [Attempt.on_bind_of_ok kind]
    dsimp only
    rw [Attempt.on_bind_of_ok below]
    rfl

/-- The walk of a directory lists files below it. -/
theorem listed_of_collectFiles {ignoredPaths : List String}
    (found : machine.disk.find machine.here true dir = .ok target)
    (directory : machine.disk.node? target = some .directory)
    (done : (collectFiles dir ignoredPaths).on machine = (.ok entries, later)) :
    Listed machine.disk dir target entries := by
  obtain ⟨patterns, read⟩ := exists_patterns_of_collectFiles done
  rw [collectFiles_on found directory read] at done
  obtain rfl := Except.ok.inj (Prod.mk.inj done).1
  split
  next => exact ⟨nofun, .nil⟩
  next =>
    constructor
    · intro entry member
      obtain ⟨names, selected, rfl⟩ := List.mem_map.1 member
      exact ⟨rfl, mem_of_mem_selectFiles selected⟩
    · rw [List.pairwise_map]
      exact pairwise_selectFiles (Disk.nodup_filesBelow machine.disk target)

/-- The names of each entry lead to a file. -/
theorem Listed.leads {disk : Disk} (listed : Listed disk dir target entries) (tree : disk.IsTree)
    (directory : disk.node? target = some .directory) :
    ∀ entry ∈ entries, disk.Leads target entry.names :=
  fun entry member => tree.leads_of_mem_filesBelow directory (listed.below entry member).2

/-! ## Preparing and migrating -/

/-- What a run has found out and done before it migrates the first file. -/
structure Prepared where
  entries : List Entry
  /-- The directory of the backup, which a dry run does not have. -/
  backup? : Option Pathname
  backedUp : Nat
  deriving DecidableEq

/-- A run up to the point where it migrates the first file. -/
def Plan.prepare {m : Type → Type} [Monad m] [Host m] (plan : Plan) (settings : Settings) :
    Attempt m Prepared := do
  unless ← perform (Host.leadsTo plan.dir .directory) do throw (.notADirectory plan.dir)
  let entries ← collectFiles plan.dir settings.ignoredPaths
  if plan.dryRun then return ⟨entries, none, 0⟩
  else
    let backup ← plan.backupDir settings
    checkBackup plan.dir backup
    return ⟨entries, some backup, ← plan.backUpAll backup 0 entries⟩

/-- A run prepares and then migrates. -/
theorem Plan.run_eq (plan : Plan) (settings : Settings) :
    (plan.run settings : Attempt Machine.Action Tally) =
      plan.prepare settings >>= fun prepared =>
        plan.migrateAll settings { Tally.zero with backedUp := prepared.backedUp }
          prepared.entries := by
  rw [run, prepare]
  simp only [bind_assoc]
  congr
  funext isDirectory
  cases isDirectory with
  | false => rfl
  | true => cases plan.dryRun <;> simp

/-- A copy of one of the files lies in the given place. -/
def Prepared.CopiesTo (prepared : Prepared) (ready : Machine) (place : Place) : Prop :=
  ∃ backup ∈ prepared.backup?, ∃ entry ∈ prepared.entries,
    ready.disk.find ready.here true (backup.descend entry.names) = .ok place

/-- The backup lies outside the directory in the given place: no path of a copy leads
into it, as the disk is after the backup stage. -/
def Prepared.LiesOutside (prepared : Prepared) (ready : Machine) (target : Place) : Prop :=
  ∀ place, prepared.CopiesTo ready place → ¬ target <+: place

instance (prepared : Prepared) (ready : Machine) (target : Place) :
    Decidable (prepared.LiesOutside ready target) :=
  decidable_of_iff (∀ backup ∈ prepared.backup?.toList, ∀ entry ∈ prepared.entries,
      ∀ place ∈ (ready.disk.find ready.here true (backup.descend entry.names)).toOption.toList,
        ¬ target <+: place) <| by
    simp only [Option.mem_toList]
    constructor
    · rintro outside place ⟨backup, chosen, entry, member, leads⟩
      exact outside backup chosen entry member place (by rw [leads]; rfl)
    · intro outside backup chosen entry member place leads
      refine outside place ⟨backup, chosen, entry, member, ?_⟩
      cases found : ready.disk.find ready.here true (backup.descend entry.names) with
      | error error =>
          rw [found] at leads
          contradiction
      | ok other =>
          rw [found] at leads
          exact congrArg Except.ok (Option.some.inj leads)

/-- What is known when everything is prepared for the first file. -/
structure Ready (plan : Plan) (machine ready : Machine) (target : Place) (prepared : Prepared) :
    Prop where
  directory : machine.disk.node? target = some .directory
  listed : Listed machine.disk plan.dir target prepared.entries
  adds : Adds (prepared.CopiesTo ready) machine ready
  short : ∀ entry ∈ prepared.entries, entry.path.text.utf8ByteSize ≤ Disk.maxPathSize
  backedUp : prepared.backedUp = prepared.entries.length

variable {plan : Plan} {settings : Settings} {ready : Machine} {prepared : Prepared}

/-- A path leads to something of a kind if what it opens is of that kind. -/
theorem leadsTo_on (path : Pathname) (kind : Kind) (machine : Machine) :
    (Host.leadsTo path kind : Machine.Action Bool) machine =
      ((match machine.disk.open? machine.here path with
        | .ok (_, .file _ _) => Kind.file == kind
        | .ok (_, .directory) => Kind.directory == kind
        | .ok (_, .link _) => Kind.special == kind
        | .error _ => false), machine) := by
  rw [Host.leadsTo, Machine.on_bind, kind_on]
  cases machine.disk.open? machine.here path with
  | error error => rfl
  | ok opened =>
      obtain ⟨place, node⟩ := opened
      cases node <;> rfl

/-- Where a path leads to a directory. -/
theorem exists_of_leadsTo
    (leads : (perform (Host.leadsTo dir .directory) : Attempt Machine.Action Bool).on machine =
      (.ok true, later)) :
    machine = later ∧ ∃ target, machine.disk.find machine.here true dir = .ok target ∧
      machine.disk.node? target = some .directory := by
  rw [Attempt.on_perform, leadsTo_on] at leads
  obtain ⟨answer, rfl⟩ := Prod.mk.inj leads
  refine ⟨rfl, ?_⟩
  have answer := Except.ok.inj answer
  split at answer
  next => contradiction
  next target opened => exact ⟨target, Disk.open?_eq_ok_iff.1 opened⟩
  next => contradiction
  next => contradiction

/-- A preparation that succeeds has found a directory, listed its files, checked the backup
and copied them. -/
theorem exists_of_prepare (wet : plan.dryRun = false)
    (done : (plan.prepare settings).on machine = (.ok prepared, ready)) :
    (∃ target, machine.disk.find machine.here true plan.dir = .ok target ∧
      machine.disk.node? target = some .directory) ∧
      ∃ listed backup looked checked,
        (collectFiles plan.dir settings.ignoredPaths).on machine = (.ok prepared.entries, listed) ∧
        prepared.backup? = some backup ∧
        (plan.backupDir settings).on listed = (.ok backup, looked) ∧
        (checkBackup plan.dir backup).on looked = (.ok (), checked) ∧
        (plan.backUpAll backup 0 prepared.entries).on checked = (.ok prepared.backedUp, ready) := by
  obtain ⟨directory, started, leads, done⟩ := Attempt.exists_of_on_bind done
  cases directory with
  | false => exact nomatch (Prod.mk.inj done).1
  | true =>
      obtain ⟨rfl, target⟩ := exists_of_leadsTo leads
      obtain ⟨entries, listed, lists, done⟩ := Attempt.exists_of_on_bind done
      rw [wet, if_neg Bool.false_ne_true] at done
      obtain ⟨backup, looked, named, done⟩ := Attempt.exists_of_on_bind done
      obtain ⟨_, checked, vacant, done⟩ := Attempt.exists_of_on_bind done
      obtain ⟨total, copied, copies, done⟩ := Attempt.exists_of_on_bind done
      obtain ⟨same, rfl⟩ := Prod.mk.inj done
      obtain rfl := Except.ok.inj same
      exact ⟨target, listed, backup, looked, checked, lists, rfl, named, vacant,
        copies⟩

theorem ready_of_prepare (wet : plan.dryRun = false)
    (found : machine.disk.find machine.here true plan.dir = .ok target)
    (done : (plan.prepare settings).on machine = (.ok prepared, ready)) :
    Ready plan machine ready target prepared := by
  obtain ⟨⟨_, found', directory⟩, listed, backup, looked, checked, lists, chosen, named, vacant,
    copies⟩ := exists_of_prepare wet done
  obtain rfl := Except.ok.inj (found'.symm.trans found)
  obtain ⟨backedUp, adds, short⟩ := Plan.backUpAll_on copies
  refine ⟨directory, listed_of_collectFiles found directory lists, ?_, short,
    backedUp.trans (Nat.zero_add _)⟩
  have before : SameFiles machine checked :=
    .trans _ listed _ ((LooksOnly.collectFiles _ _).sameFiles lists)
      (.trans _ looked _ ((LooksOnly.backupDir _).sameFiles named)
        ((LooksOnly.checkBackup _ _).sameFiles vacant))
  refine .trans _ checked _ (.of_sameFiles before) (adds.imp ?_)
  rintro place ⟨entry, member, leads⟩
  exact ⟨backup, chosen, entry, member, leads⟩

/-- Where a run can be prepared, so can a dry run, with the same files. -/
theorem prepare_dry_on (wet : plan.dryRun = false)
    (done : (plan.prepare settings).on machine = (.ok prepared, ready)) :
    ∃ listed, ({ plan with dryRun := true }.prepare settings).on machine =
        (.ok ⟨prepared.entries, none, 0⟩, listed) ∧ SameFiles machine listed := by
  obtain ⟨⟨_, found, directory⟩, listed, _, _, _, lists, -⟩ := exists_of_prepare wet done
  have leads : (perform (Host.leadsTo plan.dir .directory) :
      Attempt Machine.Action Bool).on machine = (.ok true, machine) := by
    rw [Attempt.on_perform, leadsTo_on, Disk.open?_eq_ok_iff.2 ⟨found, directory⟩]
    rfl
  refine ⟨listed, ?_, (LooksOnly.collectFiles _ _).sameFiles lists⟩
  rw [Plan.prepare, Attempt.on_bind_of_ok leads]
  exact Attempt.on_bind_of_ok lists

end ProviderMigration.Migration
