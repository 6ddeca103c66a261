import ProviderMigration.Proofs.Migration.Groundwork

/-!
# What a backup holds

Nothing but copies comes to stand below a backup, and no link, so the path of a copy leads
to the place that its names say. Such a place is outside the directory that is migrated, and
nothing was there. Copying therefore goes on with the groundwork of the backup: every file
of the directory is still what it was when its turn comes, and its copy stays what it is
when others are made.
-/

namespace ProviderMigration.Migration

open Storage

variable {machine reached later : Machine} {target place goal : Place} {dir backup : Pathname}
  {front back names : List String} {disk : Disk}

/-! ## Where copies come to stand -/

/-- The directory of the backup is there, where nothing stood in its way. -/
structure Stands (machine : Machine) (backup : Pathname) (place : Place) (back : List String)
    (disk : Disk) : Prop where
  entered : disk.Enters (backup.origin machine.here) backup.names (place ++ back)
  vacant : ∀ name rest, back = name :: rest → machine.disk.node? (place ++ [name]) = none
  short : backup.text.utf8ByteSize ≤ Disk.maxPathSize

theorem Stands.mono {later : Disk} (grows : disk.Grows later)
    (stands : Stands machine backup place back disk) : Stands machine backup place back later :=
  ⟨stands.entered.mono grows, stands.vacant, stands.short⟩

namespace Groundwork

variable (site : Site machine target backup front place back)
  (ground : Groundwork machine target backup front place back disk) (given : backup.text ≠ "")
  (nonempty : names ≠ []) (named : ∀ name ∈ names, IsName name)
include site ground given nonempty named

/-- The path of a copy leads below the backup, as its names say. -/
theorem exists_of_find (found : disk.find machine.here true (backup.descend names) = .ok goal) :
    Stands machine backup place back disk ∧ ∃ inside name, names = inside ++ [name] ∧
      goal = place ++ back ++ inside ++ [name] ∧
      disk.node? (place ++ back ++ inside) = some .directory := by
  have proper : ∀ name ∈ names, IsPart name := fun name member => (named name member).isPart
  obtain ⟨inside, name, rfl⟩ := (List.eq_nil_or_concat names).resolve_left nonempty
  rw [List.concat_eq_append] at named proper found ⊢
  rw [List.forall_mem_append, List.forall_mem_singleton] at named
  obtain ⟨short, outer, between, enters, same, route⟩ :=
    Disk.exists_of_find_descend given proper found
  have onward := enters.of_filter_eq same.symm
  obtain ⟨root, entered⟩ := onward.exists_front
  obtain ⟨rfl, vacant⟩ := ground.stands site entered
  have absent : ∀ more, more ≠ [] → machine.disk.node? (place ++ back ++ more) = none :=
    fun more nonempty => site.node?_below vacant short nonempty
  obtain rfl := ground.eq_of_enters entered absent
    (fun other member => ⟨(named.1 other member).dot, (named.1 other member).dots⟩) onward
  refine ⟨⟨entered, vacant, short⟩, inside, name, rfl, ?_, onward.directory⟩
  refine route.eq_of_snoc enters named.2.dot named.2.dots fun link here => ?_
  have nothing := absent (inside ++ [name]) (by simp)
  rw [← List.append_assoc] at nothing
  exact Option.some_ne_none _ ((ground.unlinked here).symm.trans nothing)

/-- A copy is part of the groundwork. It holds what the file was before. -/
theorem copy {source : Pathname} {size : Nat} {later : Disk}
    (copied : disk.copy machine.here source (backup.descend names) = .ok (later, size)) :
    Groundwork machine target backup front place back later ∧
      Stands machine backup place back later ∧
      ∀ data mode, machine.disk.node? (target ++ names) = some (.file data mode) →
        disk.find machine.here true source = .ok (target ++ names) →
          later.node? (place ++ back ++ names) = some (.file data mode) := by
  obtain ⟨found, data, mode, goal, content, led, known, located, free, rfl, same⟩ :=
    Disk.exists_of_copy copied
  obtain ⟨stands, inside, name, rfl, rfl, directory⟩ :=
    ground.exists_of_find site given nonempty named located
  have named' := named name (by simp)
  have grows := Disk.Grows.put_file free .empty mode
  have below : place ++ back ++ inside ++ [name] ≠ [] := by simp
  have made := Disk.node?_put_self below disk (.file .empty mode)
  have grows' := Disk.Grows.put_file
    (fun node here => ⟨.empty, mode, Option.some.inj (here.symm.trans made)⟩) content mode
  have plain : ∀ data link, Node.file data mode ≠ .link link := nofun
  have emptied := ground.put_below site stands.entered stands.vacant stands.short directory named'
    (fun here => by obtain ⟨_, _, kind⟩ := free _ here; nomatch kind) (plain _) grows
  have filled := emptied.put_below site (stands.entered.mono grows) stands.vacant stands.short
    (grows.directory directory) named' (fun here => nomatch made.symm.trans here) (plain _) grows'
  refine ⟨filled, (stands.mono grows).mono grows', fun original kept there leads => ?_⟩
  obtain rfl := Except.ok.inj (led.symm.trans leads)
  rw [ground.within _ (List.prefix_append _ _), there] at known
  obtain ⟨rfl, rfl⟩ := Node.file.inj (Option.some.inj known)
  have apart : target ++ (inside ++ [name]) ≠ place ++ back ++ inside ++ [name] := by
    intro equal
    have within := site.not_within_below stands.vacant stands.short (inside ++ [name])
    rw [← List.append_assoc, ← equal] at within
    exact within (List.prefix_append _ _)
  rw [same apart, ← List.append_assoc]
  exact Disk.node?_put_self below ..

end Groundwork

/-! ## Copying on a machine -/

/-- A directory whose path is too long is not created, and neither is any that leads to
it. -/
theorem createDirectories_of_long {path : Pathname}
    (long : Disk.maxPathSize < path.text.utf8ByteSize) (machine : Machine) :
    (Host.createDirectories path : Machine.Action _) machine = (.error .nameTooLong, machine) := by
  have given : ¬ path.text.isEmpty = true := by
    intro blank
    rw [String.isEmpty_iff.1 blank] at long
    exact absurd long (by decide)
  have named : machine.disk.createDirectory machine.here path = .error .nameTooLong := by
    rw [Disk.createDirectory, Disk.findName, if_neg given, if_pos long]
    rfl
  have found : machine.disk.open? machine.here path = .error .nameTooLong := by
    rw [Disk.open?, Disk.find, if_neg given, if_pos long]
    rfl
  have created : (Host.createDirectory path : Machine.Action _) machine =
      (.error .nameTooLong, machine) := by
    rw [createDirectory_on, named]
  have leads : (Host.leadsTo path .directory : Machine.Action Bool) machine = (false, machine) := by
    rw [leadsTo_on, found]
  have ensured : (Host.ensureDirectory path : Machine.Action _) machine =
      (.error .nameTooLong, machine) := by
    rw [Host.ensureDirectory, Machine.on_bind, created]
    dsimp only
    rw [Machine.on_bind, leads]
    rfl
  rw [Host.createDirectories, if_neg given, Host.ensureBehind, Machine.on_bind, ensured]
  rfl

section Machine

variable (site : Site machine target backup front place back) (given : backup.text ≠ "")
include site given

/-- The directory that a file is copied into is part of the groundwork. -/
theorem Site.within_createParent (named : ∀ name ∈ names, IsName name) :
    Within (Stays machine.here (Groundwork machine target backup front place back))
      (Host.createDirectories (backupParent backup names) : Machine.Action _) := by
  rw [backupParent]
  split
  next =>
    obtain ⟨absolute, same, -⟩ := backup.trimmed_spec
    exact site.within_createDirectories absolute (same.trans (List.append_nil _).symm)
      List.not_mem_nil nofun
  next nonempty =>
    have named' : ∀ name ∈ names.dropLast, IsName name := fun name member =>
      named name ((List.dropLast_prefix _).subset member)
    have proper : ∀ name ∈ names.dropLast, IsPart name := fun name member =>
      (named' name member).isPart
    by_cases long : Disk.maxPathSize < (backup.descend names.dropLast).text.utf8ByteSize
    · intro reached
      rw [createDirectories_of_long long]
      exact .refl reached
    · have short := Nat.le_trans (Pathname.utf8ByteSize_le_descend nonempty proper)
        (Nat.not_lt.1 long)
      exact site.within_createDirectories (Pathname.steps_descend given nonempty proper).1
        (Pathname.names_descend given nonempty proper fun member => (named' _ member).dot rfl)
        (fun member => (named' _ member).dots rfl) fun _ => short

variable {plan : Plan}

/-- A file that is copied is part of the groundwork. -/
theorem Site.within_backUp {entry : Entry} (leads : machine.disk.Leads target entry.names) :
    Within (Stays machine.here (Groundwork machine target backup front place back))
      (backUp backup entry : Attempt Machine.Action _).run := by
  have created := site.within_createParent given leads.isName
  have copied : Within (Stays machine.here (Groundwork machine target backup front place back))
      (Host.copy entry.path (backup.descend entry.names) : Machine.Action _) :=
    Stays.alter fun ground done => (ground.copy site given leads.ne_nil leads.isName done).1
  exact .bind_attempt Stays.refl Stays.trans (.attempt Stays.refl Stays.trans _ created) fun _ =>
    .bind_attempt Stays.refl Stays.trans (.attempt Stays.refl Stays.trans _ copied) fun _ =>
      .pure Stays.refl _

/-- All files that are copied are. -/
theorem Site.within_backUpAll (plan : Plan) {entries : List Entry} (count : Nat)
    (leads : ∀ entry ∈ entries, machine.disk.Leads target entry.names) :
    Within (Stays machine.here (Groundwork machine target backup front place back))
      (plan.backUpAll backup count entries : Attempt Machine.Action _).run := by
  induction entries generalizing count with
  | nil => exact .pure Stays.refl _
  | cons entry rest ih =>
      rw [List.forall_mem_cons] at leads
      refine .bind_attempt Stays.refl Stays.trans (site.within_backUp given leads.1) fun _ => ?_
      exact .bind_attempt Stays.refl Stays.trans
        (.of_looksOnly (fun _ _ => Stays.of_sameFiles) (.progress _ _)) fun _ => ih _ leads.2

section Listed

variable (found : machine.disk.find machine.here true dir = .ok target)
  (here : reached.here = machine.here)
  (ground : Groundwork machine target backup front place back reached.disk)
include found here ground

/-- What the copy of a file holds when it has been made. -/
theorem Site.backUp_on {entry : Entry} {answer : Pathname × Nat}
    (below : entry = .below dir entry.names) (leads : machine.disk.Leads target entry.names)
    (done : (backUp backup entry).on reached = (.ok answer, later)) :
    Stands machine backup place back later.disk ∧
      later.disk.node? (place ++ back ++ entry.names) =
        machine.disk.node? (target ++ entry.names) := by
  obtain ⟨_, middle, created, done⟩ := Attempt.exists_of_on_bind done
  obtain ⟨_, last, copied, done⟩ := Attempt.exists_of_on_bind done
  obtain ⟨-, rfl⟩ := Prod.mk.inj done
  obtain ⟨disk, copies, rfl⟩ := copy_eq_ok (Attempt.of_on_attempt copied)
  have within := site.within_createParent given leads.isName reached
  rw [Attempt.of_on_attempt created] at within
  obtain ⟨there, since⟩ := within here ground
  rw [there] at copies
  obtain ⟨-, stands, content⟩ := since.disk.copy site given leads.ne_nil leads.isName copies
  obtain ⟨data, mode, known⟩ := leads.exists_file
  refine ⟨stands, (content data mode known ?_).trans known.symm⟩
  obtain ⟨_, _, _, _, _, source, -⟩ := Disk.exists_of_copy copies
  have fits := Disk.short_of_find source
  rw [below] at fits ⊢
  exact since.disk.grows.find (Disk.find_descend found leads fits)

/-- All copies hold what the files were before. -/
theorem Site.backUpAll_on {entries : List Entry} {count total : Nat}
    (below : ∀ entry ∈ entries, entry = .below dir entry.names)
    (leads : ∀ entry ∈ entries, machine.disk.Leads target entry.names)
    (distinct : (entries.map Entry.names).Nodup)
    (done : (plan.backUpAll backup count entries).on reached = (.ok total, later)) :
    ∀ entry ∈ entries, Stands machine backup place back later.disk ∧
      later.disk.node? (place ++ back ++ entry.names) =
        machine.disk.node? (target ++ entry.names) := by
  induction entries generalizing reached count with
  | nil => exact nofun
  | cons entry rest ih =>
      rw [List.forall_mem_cons] at below leads ⊢
      rw [List.map_cons, List.nodup_cons] at distinct
      rw [Plan.backUpAll] at done
      obtain ⟨_, middle, copied, done⟩ := Attempt.exists_of_on_bind done
      obtain ⟨_, said, silent, done⟩ := Attempt.exists_of_on_bind done
      have same := (LooksOnly.progress _ _).sameFiles silent
      obtain ⟨there, since⟩ := (site.within_backUp given leads.1).related copied here ground
      rw [← same.here] at there
      have ground' := same.disk.symm ▸ since.disk
      obtain ⟨now, since'⟩ :=
        (site.within_backUpAll given plan (count + 1) leads.2).related done there ground'
      refine ⟨?_, ih there ground' below.2 leads.2 distinct.2 done⟩
      obtain ⟨stands, kept⟩ := site.backUp_on given found here ground below.1 leads.1 copied
      obtain ⟨-, adds, -⟩ := Plan.backUpAll_on done
      rw [← same.disk] at stands kept
      refine ⟨stands.mono adds.keeps.grows, ?_⟩
      obtain ⟨data, mode, known⟩ := leads.1.exists_file
      obtain unchanged | ⟨absent, -⟩ | ⟨next, member, located⟩ :=
        adds.keeps.kept (place ++ back ++ entry.names)
      · exact unchanged.trans kept
      · exact absurd ((kept.trans known).symm.trans absent) (Option.some_ne_none _)
      · -- The other copies have other names, and lie where these say.
        have leads := leads.2 next member
        rw [now] at located
        obtain ⟨-, inside, name, split, equal, -⟩ :=
          since'.disk.exists_of_find site given leads.ne_nil leads.isName located
        rw [List.append_assoc _ inside, ← split] at equal
        exact absurd (List.mem_map_of_mem member) (List.append_cancel_left equal ▸ distinct.1)

end Listed

end Machine

end ProviderMigration.Migration
