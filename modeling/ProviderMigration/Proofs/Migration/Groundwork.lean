import ProviderMigration.Proofs.Migration.Guard

/-!
# Making the directory of a backup

Between the check of a backup and its first copy, the directory is created by its path as
it was given, one directory after the other. What the check has read off the path stays
right meanwhile: each directory that is created is the next one of those that were
missing, and nothing else changes.
-/

namespace ProviderMigration.Migration

open Storage

variable {machine middle later : Machine} {target place goal : Place} {backup path : Pathname}
  {front back extra more : List String} {disk : Disk}

/-- A disk on which the backup is being made. What was there is unchanged, nothing is new
in the directory that is migrated, no link is new, and the names of the backup lead on as
they are written from where they led before. -/
structure Groundwork (machine : Machine) (target : Place) (backup : Pathname)
    (front : List String) (place : Place) (back : List String) (disk : Disk) : Prop where
  tree : disk.IsTree
  kept : ∀ {place node}, machine.disk.node? place = some node → disk.node? place = some node
  unlinked : ∀ {place link}, disk.node? place = some (.link link) →
    machine.disk.node? place = some (.link link)
  within : ∀ place, target <+: place → disk.node? place = machine.disk.node? place
  reached : ∃ made left, back = made ++ left ∧
    disk.Furthest (backup.origin machine.here) (front ++ made) (place ++ made) left ∧
      ∀ name rest, made = name :: rest → machine.disk.node? (place ++ [name]) = none

/-- Before anything is made. -/
theorem Site.groundwork (site : Site machine target backup front place back) :
    Groundwork machine target backup front place back machine.disk where
  tree := site.tree
  kept := id
  unlinked := id
  within _ _ := rfl
  reached := ⟨[], back, rfl, by simpa using site.furthest, nofun⟩

namespace Groundwork

variable (ground : Groundwork machine target backup front place back disk)
include ground

theorem absent (here : disk.node? goal = none) : machine.disk.node? goal = none := by
  by_contra present
  obtain ⟨node, known⟩ := Option.ne_none_iff_exists'.1 present
  exact nomatch here.symm.trans (ground.kept known)

theorem grows : machine.disk.Grows disk where
  file known := ⟨_, _, ground.kept known⟩
  directory := ground.kept
  link := ⟨ground.kept, ground.unlinked⟩

/-- If nothing stands in the way of the next name, nothing stood in the way of the first
one before. -/
theorem open_of_reached {made left : List String} (split : back = made ++ left)
    (made_open : ∀ name rest, made = name :: rest → machine.disk.node? (place ++ [name]) = none)
    (next : ∀ name rest, left = name :: rest → disk.node? (place ++ made ++ [name]) = none) :
    ∀ name rest, back = name :: rest → machine.disk.node? (place ++ [name]) = none := by
  intro name rest same
  cases made with
  | nil => exact ground.absent (by simpa using next name rest (split.symm.trans same))
  | cons other made =>
      obtain ⟨rfl, -⟩ := List.cons_eq_cons.1 (split.symm.trans same)
      exact made_open _ _ rfl

/-- Once the names of the backup enter a directory, it stands where they lead as they are
written. -/
theorem stands (site : Site machine target backup front place back)
    (enters : disk.Enters (backup.origin machine.here) backup.names goal) :
    goal = place ++ back ∧
      ∀ name rest, back = name :: rest → machine.disk.node? (place ++ [name]) = none := by
  obtain ⟨made, left, rfl, furthest, made_open⟩ := ground.reached
  rw [site.split, ← List.append_assoc] at enters
  cases left with
  | nil =>
      rw [List.append_nil] at enters ⊢
      exact ⟨enters.unique furthest.enters, made_open⟩
  | cons name left =>
      exact absurd enters (furthest.not_enters (List.cons_ne_nil _ _) (List.append_nil _).symm)

/-- One node more, where there was nothing before and outside the directory that is
migrated. -/
theorem put {outer : Place} {name : String} {node : Node}
    (directory : disk.node? outer = some .directory) (named : IsName name)
    (absent : machine.disk.node? (outer ++ [name]) = none)
    (free : disk.node? (outer ++ [name]) ≠ some .directory) (plain : ∀ link, node ≠ .link link)
    (apart : ¬ target <+: outer ++ [name])
    (reached : ∃ made left, back = made ++ left ∧
      (disk.put (outer ++ [name]) node).Furthest (backup.origin machine.here) (front ++ made)
        (place ++ made) left ∧
      ∀ name rest, made = name :: rest → machine.disk.node? (place ++ [name]) = none) :
    Groundwork machine target backup front place back (disk.put (outer ++ [name]) node) where
  tree := ground.tree.put directory named free
  kept {other _} known := by
    have different : other ≠ outer ++ [name] := by
      rintro rfl
      exact nomatch absent.symm.trans known
    rw [Disk.node?_put_of_ne different]
    exact ground.kept known
  unlinked {other link} known := by
    by_cases same : other = outer ++ [name]
    · rw [same, Disk.node?_put_self (by simp)] at known
      exact absurd (Option.some.inj known) (plain link)
    · rw [Disk.node?_put_of_ne same] at known
      exact ground.unlinked known
  within other within := by
    rw [Disk.node?_put_of_ne]
    · exact ground.within other within
    · rintro rfl
      exact apart within
  reached := reached

end Groundwork

namespace Site

variable (site : Site machine target backup front place back)
include site

/-- Where the backup comes to stand, there was nothing below. -/
theorem node?_below (open_ : ∀ name rest, back = name :: rest →
      machine.disk.node? (place ++ [name]) = none)
    (short : backup.text.utf8ByteSize ≤ Disk.maxPathSize) {names : List String}
    (nonempty : names ≠ []) : machine.disk.node? (place ++ back ++ names) = none := by
  cases back with
  | nil =>
      rw [List.append_nil]
      exact site.vacant short rfl names nonempty
  | cons name rest =>
      have none := site.tree.node?_eq_none (open_ name rest rfl) (rest ++ names)
      simpa using none

/-- What comes to stand below the backup does not stand in the directory that is
migrated. -/
theorem not_within_below (open_ : ∀ name rest, back = name :: rest →
      machine.disk.node? (place ++ [name]) = none)
    (short : backup.text.utf8ByteSize ≤ Disk.maxPathSize) (names : List String) :
    ¬ target <+: place ++ back ++ names := by
  intro within
  rcases List.prefix_or_prefix_of_prefix within (List.prefix_append _ _) with inside | ⟨rest, rfl⟩
  · exact site.outside open_ inside
  · cases rest with
    | nil =>
        rw [List.append_nil] at within
        exact site.outside open_ (by simp)
    | cons name rest =>
        have absent := site.node?_below open_ short (List.cons_ne_nil name rest)
        exact nomatch absent.symm.trans site.directory

end Site

namespace Groundwork

variable (site : Site machine target backup front place back)
  (ground : Groundwork machine target backup front place back disk)

include ground in
/-- Below the backup there are no links, so names lead on as they are written. -/
theorem eq_of_enters {root : Place}
    (enters : disk.Enters (backup.origin machine.here) backup.names root)
    (vacant : ∀ names, names ≠ [] → machine.disk.node? (root ++ names) = none)
    (plain : ∀ name ∈ more, name ≠ "." ∧ name ≠ "..")
    (further : disk.Enters (backup.origin machine.here) (backup.names ++ more) goal) :
    goal = root ++ more := by
  induction more using List.reverseRecOn generalizing goal with
  | nil =>
      rw [List.append_nil] at further ⊢
      exact further.unique enters
  | append_singleton more name ih =>
      rw [List.forall_mem_append, List.forall_mem_singleton] at plain
      rw [← List.append_assoc] at further ⊢
      obtain ⟨between, front⟩ := further.exists_front
      obtain rfl := ih plain.1 front
      refine further.route.eq_of_snoc front plain.2.1 plain.2.2 fun link here => ?_
      have absent := vacant (more ++ [name]) (by simp)
      rw [← List.append_assoc] at absent
      exact nomatch absent.symm.trans (ground.unlinked here)

include site ground in
/-- One node more below the backup. -/
theorem put_below {inside : List String} {name : String} {node : Node}
    (entered : disk.Enters (backup.origin machine.here) backup.names (place ++ back))
    (open_ : ∀ name rest, back = name :: rest → machine.disk.node? (place ++ [name]) = none)
    (short : backup.text.utf8ByteSize ≤ Disk.maxPathSize)
    (directory : disk.node? (place ++ back ++ inside) = some .directory) (named : IsName name)
    (free : disk.node? (place ++ back ++ inside ++ [name]) ≠ some .directory)
    (plain : ∀ link, node ≠ .link link)
    (grows : disk.Grows (disk.put (place ++ back ++ inside ++ [name]) node)) :
    Groundwork machine target backup front place back
      (disk.put (place ++ back ++ inside ++ [name]) node) := by
  have below : inside ++ [name] ≠ [] := by simp
  have absent := site.node?_below open_ short below
  have apart := site.not_within_below open_ short (inside ++ [name])
  rw [← List.append_assoc] at absent apart
  refine ground.put directory named absent free plain apart
    ⟨back, [], (List.append_nil _).symm, ⟨?_, nofun⟩, open_⟩
  rw [← site.split]
  exact entered.mono grows

include site ground in
/-- The next directory on the way to the backup. -/
theorem put_next {made left : List String} {name : String} (split : back = made ++ name :: left)
    (furthest : disk.Furthest (backup.origin machine.here) (front ++ made) (place ++ made)
      (name :: left))
    (made_open : ∀ name rest, made = name :: rest → machine.disk.node? (place ++ [name]) = none)
    (named : IsName name) (absent : disk.node? (place ++ made ++ [name]) = none) :
    Groundwork machine target backup front place back
      (disk.put (place ++ made ++ [name]) .directory) := by
  have free : disk.node? (place ++ made ++ [name]) ≠ some .directory := fun here =>
    nomatch absent.symm.trans here
  have open_ := ground.open_of_reached split made_open fun other rest same => by
    obtain ⟨rfl, -⟩ := List.cons_eq_cons.1 same
    exact absent
  have apart : ¬ target <+: place ++ made ++ [name] := fun within =>
    site.outside open_ (within.trans ⟨left, by simp [split]⟩)
  have plain : ∀ other ∈ left, other ≠ "." ∧ other ≠ ".." := by
    intro other member
    have inside : other ∈ back := split ▸ List.mem_append_right _ (List.mem_cons_of_mem _ member)
    refine ⟨?_, fun dots => site.forward (dots ▸ inside)⟩
    exact (Pathname.isPart_of_mem_names other (site.split ▸ List.mem_append_right _ inside)).2
  refine ground.put furthest.enters.directory named (ground.absent absent) free nofun apart
    ⟨made ++ [name], left, by simp [split], ?_, ?_⟩
  · rw [← List.append_assoc, ← List.append_assoc]
    exact furthest.put ground.tree named absent plain
  · intro other rest same
    refine open_ other (rest ++ left) ?_
    rw [← List.cons_append, ← same, split]
    simp

include site ground in
/-- A directory that is created on the way to the backup or below it. -/
theorem createDirectory {inner : Pathname}
    (origin : inner.origin machine.here = backup.origin machine.here)
    (names : inner.names <+: backup.names ++ extra) (forward : ".." ∉ extra)
    (short : extra ≠ [] → backup.text.utf8ByteSize ≤ Disk.maxPathSize) {later : Disk}
    (created : disk.createDirectory machine.here inner = .ok later) :
    Groundwork machine target backup front place back later := by
  obtain ⟨-, -, outer, name, goal, own, enters, named, absent, rfl⟩ :=
    Disk.exists_of_createDirectory ground.tree (ground.grows.directory site.begin) created
  obtain ⟨made, left, rfl, furthest, made_open⟩ := ground.reached
  obtain ⟨rest, split⟩ := names
  have spelled : ∀ other ∈ outer, other ≠ "." := fun other member =>
    (Pathname.isPart_of_mem_names other (own ▸ List.mem_append_left _ member)).2
  rw [own] at split
  rw [origin] at enters
  cases left with
  | nil =>
      -- The backup is there, and the directory comes to stand below it.
      have entered := furthest.enters
      rw [List.append_nil] at site ground
      rw [← site.split] at entered
      have open_ := ground.open_of_reached (List.append_nil made).symm made_open nofun
      obtain ⟨inside, left, between, rfl, furthest'⟩ := entered.exists_furthest extra
      obtain ⟨rfl, rfl, rfl⟩ := furthest'.eq_of_created (by simpa using split) enters
        named absent
      have short := short (by simp)
      have vacant : ∀ names, names ≠ [] → machine.disk.node? (place ++ made ++ names) = none :=
        fun _ nonempty => site.node?_below open_ short nonempty
      have plain : ∀ other ∈ inside, other ≠ "." ∧ other ≠ ".." := by
        refine fun other member => ⟨spelled other (List.mem_append_right _ member), ?_⟩
        rintro rfl
        exact forward (List.mem_append_left _ member)
      obtain rfl := ground.eq_of_enters entered vacant plain enters
      have free : disk.node? (place ++ made ++ inside ++ [name]) ≠ some .directory := fun here =>
        nomatch absent.symm.trans here
      rw [List.append_nil]
      exact ground.put_below site entered open_ short enters.directory named free nofun
        (.put_directory absent)
  | cons next left =>
      -- The directory is the next one on the way to the backup.
      have whole : outer ++ name :: rest = front ++ made ++ (next :: left ++ extra) := by
        rw [site.split] at split
        simpa using split
      obtain ⟨rfl, rfl, onward⟩ := (furthest.append (List.cons_ne_nil _ _)).eq_of_created
        whole enters named absent
      obtain ⟨rfl, -⟩ := List.cons_eq_cons.1 onward
      exact ground.put_next site rfl furthest made_open named absent

end Groundwork

/-! ## Creating directories on a machine -/

theorem names_withNames {names : List String} (nonempty : names ≠ [])
    (inside : ∀ name ∈ names, name ∈ path.names) :
    (path.withNames names).isAbsolute = path.isAbsolute ∧
      (path.withNames names).names = names := by
  have proper : ∀ name ∈ names, IsPart name := fun name member =>
    (Pathname.isPart_of_mem_names name (inside name member)).1
  refine ⟨Pathname.isAbsolute_withNames path nonempty proper, ?_⟩
  rw [Pathname.names, Pathname.steps_withNames path nonempty proper, List.filter_eq_self]
  exact fun name member => decide_eq_true (Pathname.isPart_of_mem_names name (inside name member)).2

/-- Where a directory has been created with those that lead to it, it was ensured last. -/
theorem exists_of_ensureBehind {relation : Machine → Machine → Prop}
    (refl : ∀ machine, relation machine machine)
    (trans : ∀ first middle last, relation first middle → relation middle last →
      relation first last)
    {outer : Machine.Action (Except OsError Unit)} (above : Within relation outer)
    (here : Within relation (Host.createDirectory path : Machine.Action _))
    (done : Host.ensureBehind outer path machine = (.ok (), later)) :
    ∃ middle, relation machine middle ∧
      (Host.ensureDirectory path : Machine.Action _) middle = (.ok (), later) := by
  have first := Within.ensureDirectory refl trans here machine
  rw [Host.ensureBehind, Machine.on_bind] at done
  cases start : (Host.ensureDirectory path : Machine.Action _) machine with
  | mk answer reached =>
      rw [start] at done first
      dsimp only at done first
      split at done
      next =>
        rw [Machine.on_bind] at done
        have second := above reached
        cases middle : outer reached with
        | mk answer last =>
            rw [middle] at done second
            cases answer with
            | ok => exact ⟨last, trans _ _ _ first second, done⟩
            | error error => exact nomatch (Prod.mk.inj done).1
      next =>
        obtain ⟨rfl, rfl⟩ := Prod.mk.inj done
        exact ⟨machine, refl machine, start⟩

/-- A directory that is ensured can be entered. -/
theorem enters_of_ensureDirectory (tree : machine.disk.IsTree)
    (begin : machine.disk.node? machine.here = some .directory)
    (done : (Host.ensureDirectory path : Machine.Action _) machine = (.ok (), later)) :
    later.here = machine.here ∧ path.text ≠ "" ∧ path.text.utf8ByteSize ≤ Disk.maxPathSize ∧
      ∃ place, later.disk.Enters (path.origin later.here) path.names place := by
  rw [Host.ensureDirectory, Machine.on_bind, createDirectory_on] at done
  cases created : machine.disk.createDirectory machine.here path with
  | ok disk =>
      rw [created] at done
      obtain ⟨-, rfl⟩ := Prod.mk.inj done
      obtain ⟨given, short, outer, name, place, names, enters, named, absent, rfl⟩ :=
        Disk.exists_of_createDirectory tree begin created
      refine ⟨rfl, given, short, place ++ [name], ?_⟩
      rw [names]
      have inside : place ++ [name] ≠ [] := by simp
      have made := Disk.node?_put_self inside machine.disk .directory
      exact (enters.mono (.put_directory absent)).snoc named.isInward made
  | error error =>
      rw [created] at done
      dsimp only at done
      rw [Machine.on_bind, leadsTo_on] at done
      obtain ⟨answered, rfl⟩ := Prod.mk.inj done
      split at answered
      next => exact nomatch answered
      next place opened =>
        obtain ⟨found, directory⟩ := Disk.open?_eq_ok_iff.1 opened
        have located := Disk.find_eq_ok_iff.1 found
        exact ⟨rfl, located.1, located.2.1, place, Disk.enters_of_find found directory⟩
      next => exact nomatch answered
      next => exact nomatch answered

section Made

variable (site : Site machine target backup front place back)
  (absolute : path.isAbsolute = backup.isAbsolute) (names : path.names = backup.names ++ extra)
  (forward : ".." ∉ extra) (short : extra ≠ [] → backup.text.utf8ByteSize ≤ Disk.maxPathSize)
include site absolute names forward short

/-- All directories that are created for the path of the backup, or for one that goes on
below it, are part of its groundwork. -/
theorem Site.within_createDirectory :
    Within (Stays machine.here (Groundwork machine target backup front place back))
        (Host.createDirectory path : Machine.Action _) ∧
      ∀ outer, outer ≠ [] → outer <+: path.names →
        Within (Stays machine.here (Groundwork machine target backup front place back))
          (Host.createDirectory (path.withNames outer) : Machine.Action _) := by
  have create : ∀ inner : Pathname, inner.isAbsolute = backup.isAbsolute →
      inner.names <+: backup.names ++ extra →
        Within (Stays machine.here (Groundwork machine target backup front place back))
          (Host.createDirectory inner : Machine.Action _) := by
    intro inner absolute names
    have origin : inner.origin machine.here = backup.origin machine.here := by
      rw [Pathname.origin, Pathname.origin, absolute]
    rw [createDirectory_eq]
    refine Stays.alter fun ground done => ?_
    obtain ⟨made, created, answered⟩ := bind_eq_ok_iff.1 done
    obtain ⟨rfl, -⟩ := Prod.mk.inj (Except.ok.inj answered)
    exact ground.createDirectory site origin names forward short created
  refine ⟨create path absolute (names ▸ List.prefix_rfl), fun outer nonempty inside => ?_⟩
  obtain ⟨absolute', names'⟩ := names_withNames nonempty fun name member => inside.subset member
  refine create _ (absolute'.trans absolute) ?_
  rw [names', ← names]
  exact inside

theorem Site.within_createDirectories :
    Within (Stays machine.here (Groundwork machine target backup front place back))
      (Host.createDirectories path : Machine.Action _) := by
  obtain ⟨whole, within⟩ := site.within_createDirectory absolute names forward short
  exact .createDirectories Stays.refl Stays.trans whole within

/-- Afterwards the directory can be entered. -/
theorem Site.enters_of_createDirectories {reached : Machine} (here : reached.here = machine.here)
    (ground : Groundwork machine target backup front place back reached.disk)
    (given : path.text ≠ "")
    (done : (Host.createDirectories path : Machine.Action _) reached = (.ok (), later)) :
    later.here = machine.here ∧
      Groundwork machine target backup front place back later.disk ∧
      path.text.utf8ByteSize ≤ Disk.maxPathSize ∧
      ∃ goal, later.disk.Enters (backup.origin machine.here) (backup.names ++ extra) goal := by
  obtain ⟨whole, within⟩ := site.within_createDirectory absolute names forward short
  have stays := Within.createDirectories Stays.refl Stays.trans whole within reached
  rw [done] at stays
  have there := (stays here ground).1
  rw [Host.createDirectories, if_neg (by simpa using given)] at done
  obtain ⟨middle, before, last⟩ := exists_of_ensureBehind Stays.refl Stays.trans
    (.outer Stays.refl Stays.trans within) whole done
  have now := (before here ground).1
  have ground' := before.disk here ground
  have begin' : middle.disk.node? middle.here = some .directory := by
    rw [now]
    exact ground'.grows.directory site.begin
  obtain ⟨-, -, short, goal, enters⟩ := enters_of_ensureDirectory ground'.tree begin' last
  have origin : path.origin later.here = backup.origin machine.here := by
    rw [Pathname.origin, Pathname.origin, absolute, there]
  rw [origin, names] at enters
  exact ⟨there, stays.disk here ground, short, goal, enters⟩

end Made

/-- If the files of a directory may be copied to a backup, and the directory of the backup
can be created then, it is outside the other one, and nothing was there before. This takes
a path in which every `..` stands behind a directory that exists: what the check has not
found, it does not follow. -/
theorem checkBackup_sound {dir : Pathname} {ready : Machine} (tree : machine.disk.IsTree)
    (begin : machine.disk.node? machine.here = some .directory)
    (found : machine.disk.find machine.here true dir = .ok target)
    (directory : machine.disk.node? target = some .directory)
    (behind : ∀ outer inner, backup.names = outer ++ ".." :: inner →
      ∃ between, machine.disk.Enters (backup.origin machine.here) outer between)
    (checked : (checkBackup dir backup).on machine = (.ok (), ready))
    (created : (Host.createDirectories backup : Machine.Action _) ready = (.ok (), later)) :
    (backup.text ≠ "" → ∃ place, later.disk.find later.here true backup = .ok place) ∧
      ∀ place, later.disk.find later.here true backup = .ok place →
        later.disk.node? place = some .directory ∧ ¬ target <+: place ∧
          ∀ names, names ≠ [] → machine.disk.node? (place ++ names) = none := by
  have known : backup.text ≠ "" → ∃ place, later.disk.find later.here true backup = .ok place ∧
      later.disk.node? place = some .directory ∧ ¬ target <+: place ∧
        ∀ names, names ≠ [] → machine.disk.node? (place ++ names) = none := by
    intro given
    have same := (LooksOnly.checkBackup dir backup).sameFiles checked
    obtain ⟨front, place, back, site⟩ :=
      exists_site tree begin found directory given behind checked
    obtain ⟨here, ground, short, goal, enters⟩ := site.enters_of_createDirectories rfl
      (List.append_nil _).symm (by simp) nofun same.here (same.disk ▸ site.groundwork) given created
    rw [List.append_nil] at enters
    obtain ⟨rfl, open_⟩ := ground.stands site enters
    exact ⟨_, Disk.find_of_enters (here ▸ enters) given short, enters.directory,
      site.outside open_, fun names nonempty => site.node?_below open_ short nonempty⟩
  constructor
  · intro given
    obtain ⟨place, located, -⟩ := known given
    exact ⟨place, located⟩
  · intro place located
    obtain ⟨goal, located', rest⟩ := known (Disk.find_eq_ok_iff.1 located).1
    obtain rfl := Except.ok.inj (located'.symm.trans located)
    exact rest

theorem sample_directory :
    sampleMachine.disk.node? sampleMachine.here = some .directory ∧
      sampleMachine.disk.node? ["w", "infra"] = some .directory := by
  rw [← Disk.isDirectory_iff, ← Disk.isDirectory_iff]
  decide +kernel

/-- The machine behind the check of a backup of `infra`. -/
def sampleChecked (backup : Pathname) : Machine :=
  ((checkBackup ⟨"infra"⟩ backup).on sampleMachine).2

/-- The machine on which the directory of the backup has been created then. -/
def sampleCreated (backup : Pathname) : Machine :=
  ((Host.createDirectories backup : Machine.Action _) (sampleChecked backup)).2

theorem sample_created {backup : Pathname}
    (checked : ((checkBackup ⟨"infra"⟩ backup).on sampleMachine).1 = .ok ())
    (created : ((Host.createDirectories backup : Machine.Action _) (sampleChecked backup)).1 =
      .ok ()) :
    (checkBackup ⟨"infra"⟩ backup).on sampleMachine = (.ok (), sampleChecked backup) ∧
      (Host.createDirectories backup : Machine.Action _) (sampleChecked backup) =
        (.ok (), sampleCreated backup) :=
  ⟨Prod.ext checked rfl, Prod.ext created rfl⟩

theorem sample_checked :
    ((checkBackup ⟨"infra"⟩ ⟨"out"⟩).on sampleMachine).1 = .ok () ∧
      ((Host.createDirectories ⟨"out"⟩ : Machine.Action _) (sampleChecked ⟨"out"⟩)).1 = .ok () := by
  decide +kernel

theorem sample_names : (⟨"out"⟩ : Pathname).names = ["out"] := by
  decide +kernel

theorem checkBackup_sound_of_sample :
    (∃ place, (sampleCreated ⟨"out"⟩).disk.find (sampleCreated ⟨"out"⟩).here true ⟨"out"⟩ =
        .ok place) ∧
      ∀ place,
        (sampleCreated ⟨"out"⟩).disk.find (sampleCreated ⟨"out"⟩).here true ⟨"out"⟩ = .ok place →
          (sampleCreated ⟨"out"⟩).disk.node? place = some .directory ∧ ¬ ["w", "infra"] <+: place ∧
            ∀ names, names ≠ [] → sampleMachine.disk.node? (place ++ names) = none := by
  obtain ⟨checked, created⟩ := sample_created sample_checked.1 sample_checked.2
  have behind : ∀ outer inner, (⟨"out"⟩ : Pathname).names = outer ++ ".." :: inner →
      ∃ between, sampleMachine.disk.Enters (Pathname.origin ⟨"out"⟩ sampleMachine.here) outer
        between := by
    intro outer inner split
    have member : ".." ∈ ["out"] := by
      rw [← sample_names, split]
      exact List.mem_append_right _ List.mem_cons_self
    simp at member
  obtain ⟨exists_, known⟩ := checkBackup_sound sample_isTree sample_directory.1 sample_find
    sample_directory.2 behind checked created
  exact ⟨exists_ (by decide), known⟩

/-- A path whose `..` stands behind a name where there is nothing. -/
def absentee : Pathname := ⟨"new/../infra"⟩

theorem absentee_checked :
    ((checkBackup ⟨"infra"⟩ absentee).on sampleMachine).1 = .ok () ∧
      ((Host.createDirectories absentee : Machine.Action _) (sampleChecked absentee)).1 = .ok () ∧
      (sampleCreated absentee).disk.find sampleMachine.here true absentee =
        .ok ["w", "infra"] := by
  decide +kernel

/-- Without a condition on the path, the backup may be created as the directory itself that
is migrated. -/
theorem not_checkBackup_sound :
    ¬ ∀ (machine ready later : Machine) (dir backup : Pathname) (target place : Place),
      machine.disk.IsTree → machine.disk.node? machine.here = some .directory →
        machine.disk.find machine.here true dir = .ok target →
        machine.disk.node? target = some .directory →
        (checkBackup dir backup).on machine = (.ok (), ready) →
        (Host.createDirectories backup : Machine.Action _) ready = (.ok (), later) →
        later.disk.find machine.here true backup = .ok place → ¬ target <+: place := by
  obtain ⟨checked, created, found⟩ := absentee_checked
  obtain ⟨checked, created⟩ := sample_created checked created
  intro claim
  exact claim sampleMachine (sampleChecked absentee) (sampleCreated absentee) ⟨"infra"⟩ absentee
    ["w", "infra"] ["w", "infra"] sample_isTree sample_directory.1 sample_find sample_directory.2
    checked created found List.prefix_rfl

end ProviderMigration.Migration
