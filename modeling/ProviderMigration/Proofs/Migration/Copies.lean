import ProviderMigration.Proofs.Migration.Verdict

/-!
# What the backup does to a disk

The backup stage makes directories and copies files. Whatever path it is given, the
only places it writes to are those where the paths of its copies lead, and everywhere
else it adds nothing but directories.
-/

namespace ProviderMigration.Migration

open Storage

variable {plan : Plan} {machine later : Machine} {written : Place → Prop}

/-- A machine that is still in the same directory, and whose disk has only been added
to, but for places that were written to. -/
structure Adds (written : Place → Prop) (machine later : Machine) : Prop where
  here : later.here = machine.here
  keeps : machine.disk.Keeps later.disk written

namespace Adds

theorem refl (machine : Machine) : Adds written machine machine := ⟨rfl, .refl _ _⟩

theorem trans (first middle last : Machine) (start : Adds written first middle)
    (rest : Adds written middle last) : Adds written first last :=
  ⟨rest.here.trans start.here, start.keeps.trans rest.keeps⟩

theorem of_sameFiles (same : SameFiles machine later) : Adds written machine later :=
  ⟨same.here, same.disk ▸ .refl _ _⟩

theorem imp {other : Place → Prop} (adds : Adds written machine later)
    (weaken : ∀ place, written place → other place) : Adds other machine later :=
  ⟨adds.here, adds.keeps.imp weaken⟩

end Adds

/-! ## Directories -/

section Directories

variable {relation : Machine → Machine → Prop} (refl : ∀ machine, relation machine machine)
  (trans : ∀ first middle last, relation first middle → relation middle last →
    relation first last)
include refl trans

theorem Within.ensureDirectory {path : Pathname}
    (within : Within relation (Host.createDirectory path : Machine.Action _)) :
    Within relation (Host.ensureDirectory path : Machine.Action _) := by
  refine Within.bind trans within fun created => ?_
  cases created with
  | ok => exact .pure refl _
  | error error =>
      exact Within.bind trans (.leadsTo refl trans path .directory) fun _ => .pure refl _

theorem Within.ensureBehind {outer : Machine.Action (Except OsError Unit)} {path : Pathname}
    (above : Within relation outer)
    (within : Within relation (Host.createDirectory path : Machine.Action _)) :
    Within relation (Host.ensureBehind outer path) := by
  have here := Within.ensureDirectory refl trans within
  refine Within.bind trans here fun answer => ?_
  split
  next =>
    refine Within.bind trans above fun answer => ?_
    cases answer with
    | ok => exact here
    | error error => exact .pure refl _
  next => exact .pure refl _

theorem Within.outward {path : Pathname} (names : List String)
    (within : ∀ outer, outer ≠ [] → outer <+: names.reverse →
      Within relation (Host.createDirectory (path.withNames outer) : Machine.Action _)) :
    Within relation (Host.createDirectories.outward path names : Machine.Action _) := by
  induction names with
  | nil => exact .pure refl _
  | cons name names ih =>
      refine Within.ensureBehind refl trans (ih fun outer nonempty front => ?_)
        (within _ (by simp) List.prefix_rfl)
      refine within outer nonempty (front.trans ?_)
      rw [List.reverse_cons]
      exact List.prefix_append _ _

/-- The directories that lead to another one have names in front of its own. -/
theorem Within.outer {path : Pathname}
    (within : ∀ outer, outer ≠ [] → outer <+: path.names →
      Within relation (Host.createDirectory (path.withNames outer) : Machine.Action _)) :
    Within relation
      (Host.createDirectories.outward path path.names.reverse.tail : Machine.Action _) := by
  refine Within.outward refl trans _ fun outer nonempty front => ?_
  refine within outer nonempty (front.trans ?_)
  rw [List.tail_reverse, List.reverse_reverse]
  exact List.dropLast_prefix _

/-- Creating a directory, with those that lead to it, does nothing but create
directories. -/
theorem Within.createDirectories {path : Pathname}
    (whole : Within relation (Host.createDirectory path : Machine.Action _))
    (within : ∀ outer, outer ≠ [] → outer <+: path.names →
      Within relation (Host.createDirectory (path.withNames outer) : Machine.Action _)) :
    Within relation (Host.createDirectories path : Machine.Action _) := by
  rw [Host.createDirectories]
  split
  next => exact .pure refl _
  next => exact .ensureBehind refl trans (.outer refl trans within) whole

end Directories

theorem createDirectory_eq (path : Pathname) :
    (Host.createDirectory path : Machine.Action _) = Machine.alter fun disk here =>
      disk.createDirectory here path >>= fun disk => pure (disk, ()) := rfl

theorem createDirectory_on (path : Pathname) (machine : Machine) :
    (Host.createDirectory path : Machine.Action _) machine =
      match machine.disk.createDirectory machine.here path with
      | .ok disk => (.ok (), machine.change disk)
      | .error error => (.error error, machine) := by
  rw [createDirectory_eq, Machine.alter]
  cases machine.disk.createDirectory machine.here path <;> rfl

theorem within_createDirectory (path : Pathname) :
    Within (Adds written) (Host.createDirectory path : Machine.Action _) := by
  intro machine
  rw [createDirectory_on]
  cases created : machine.disk.createDirectory machine.here path with
  | error error => exact .refl machine
  | ok disk => exact ⟨rfl, Disk.keeps_of_createDirectory created written⟩

/-- Creating a directory with those that lead to it adds nothing but directories. -/
theorem within_createDirectories (path : Pathname) :
    Within (Adds written) (Host.createDirectories path : Machine.Action _) :=
  .createDirectories Adds.refl Adds.trans (within_createDirectory path) fun outer _ _ =>
    within_createDirectory (path.withNames outer)

/-! ## Copies -/

theorem copy_eq_ok {source destination : Pathname} {size : Nat}
    (copied : (Host.copy source destination : Machine.Action _) machine = (.ok size, later)) :
    ∃ disk, machine.disk.copy machine.here source destination = .ok (disk, size) ∧
      later = machine.change disk := by
  change Machine.alter (fun disk here => disk.copy here source destination) machine = _ at copied
  rw [Machine.alter] at copied
  split at copied
  next disk answer done =>
    obtain ⟨same, rfl⟩ := Prod.mk.inj copied
    exact ⟨disk, Except.ok.inj same ▸ done, rfl⟩
  next =>
    obtain ⟨same, -⟩ := Prod.mk.inj copied
    contradiction

/-- A file that is copied could be found, and its copy can be found. -/
theorem backUp_on {backup : Pathname} {entry : Entry} {answer : Pathname × Nat}
    (done : (backUp backup entry).on machine = (.ok answer, later)) :
    (∃ place, later.disk.find later.here true (backup.descend entry.names) = .ok place ∧
      Adds (· = place) machine later) ∧
      entry.path.text.utf8ByteSize ≤ Disk.maxPathSize := by
  obtain ⟨_, middle, created, done⟩ := Attempt.exists_of_on_bind done
  obtain ⟨_, last, copied, done⟩ := Attempt.exists_of_on_bind done
  obtain ⟨-, rfl⟩ := Prod.mk.inj done
  obtain ⟨disk, copies, rfl⟩ := copy_eq_ok (Attempt.of_on_attempt copied)
  obtain ⟨⟨place, found, keeps⟩, _, source⟩ := Disk.keeps_of_copy copies
  refine ⟨⟨place, found, Adds.trans _ middle _ ?_ ⟨rfl, keeps⟩⟩, Disk.short_of_find source⟩
  have within : Adds (· = place) machine _ :=
    within_createDirectories (backupParent backup entry.names) machine
  rwa [Attempt.of_on_attempt created] at within

namespace Plan

/-- The files are copied one by one and counted. Each could be found, and the places
that were written to are those where the paths of the copies lead now. -/
theorem backUpAll_on {backup : Pathname} {entries : List Entry} {count total : Nat}
    (done : (plan.backUpAll backup count entries).on machine = (.ok total, later)) :
    total = count + entries.length ∧
      Adds (fun place => ∃ entry ∈ entries,
        later.disk.find later.here true (backup.descend entry.names) = .ok place) machine later ∧
      ∀ entry ∈ entries, entry.path.text.utf8ByteSize ≤ Disk.maxPathSize := by
  induction entries generalizing machine count with
  | nil =>
      obtain ⟨same, rfl⟩ := Prod.mk.inj done
      exact ⟨(Except.ok.inj same).symm, .refl machine, nofun⟩
  | cons entry rest ih =>
      rw [backUpAll] at done
      obtain ⟨_, middle, copied, done⟩ := Attempt.exists_of_on_bind done
      obtain ⟨_, said, silent, done⟩ := Attempt.exists_of_on_bind done
      obtain ⟨⟨place, found, first⟩, short⟩ := backUp_on copied
      obtain ⟨_, progressed, same⟩ := progress_on plan _ _ middle
      obtain ⟨-, rfl⟩ := Prod.mk.inj (progressed.symm.trans silent)
      obtain ⟨total, others, shorts⟩ := ih done
      have still : later.disk.find later.here true (backup.descend entry.names) = .ok place := by
        rw [others.here, same.here]
        exact others.keeps.grows.find (same.disk ▸ found)
      refine ⟨?_, ?_, List.forall_mem_cons.2 ⟨short, shorts⟩⟩
      · rw [total, List.length_cons, Nat.add_assoc, Nat.add_comm 1]
      · refine Adds.trans _ middle _ (first.imp ?_) ?_
        · rintro _ rfl
          exact ⟨entry, List.mem_cons_self, still⟩
        · refine Adds.trans _ _ _ (.of_sameFiles same) (others.imp ?_)
          rintro place ⟨next, member, leads⟩
          exact ⟨next, List.mem_cons_of_mem _ member, leads⟩

end Plan

end ProviderMigration.Migration
