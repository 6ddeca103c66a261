import ProviderMigration.Proofs.Storage.Descent

/-!
# Growing disks

Copying files to a backup only makes a disk grow: directories and files are added,
and a file may get new content, but nothing changes its kind and no link appears. So
a path that leads to a place goes on leading there, and what is found at a place is
what was there before unless the place is one that was written to.
-/

namespace ProviderMigration.Storage

/-- What a computation that does not fail comes to. -/
theorem bind_eq_ok_iff {ε α β : Type} {first : Except ε α} {second : α → Except ε β} {answer : β} :
    first >>= second = .ok answer ↔ ∃ middle, first = .ok middle ∧ second middle = .ok answer := by
  cases first with
  | error error => exact iff_of_false nofun nofun
  | ok middle =>
      constructor
      · exact fun done => ⟨middle, rfl, done⟩
      · rintro ⟨_, same, done⟩
        exact (Except.ok.inj same) ▸ done

namespace Disk

variable {disk middle later : Disk} {place : Place}

theorem ne_nil_of_node? (here : disk.node? place ≠ some .directory) : place ≠ [] := by
  rintro rfl
  exact here rfl

/-! ## Growth -/

/-- A disk with the same links as before, on which nothing is lost but the content of
files. -/
structure Grows (disk later : Disk) : Prop where
  file : ∀ {place : Place} {data : ByteArray} {mode : Nat},
    disk.node? place = some (.file data mode) →
      ∃ data mode, later.node? place = some (.file data mode)
  directory : ∀ {place : Place}, disk.node? place = some .directory →
    later.node? place = some .directory
  link : ∀ {place : Place} {target : Pathname},
    disk.node? place = some (.link target) ↔ later.node? place = some (.link target)

namespace Grows

theorem refl (disk : Disk) : disk.Grows disk :=
  ⟨fun here => ⟨_, _, here⟩, fun here => here, Iff.rfl⟩

theorem trans (first : disk.Grows middle) (second : middle.Grows later) : disk.Grows later where
  file here := by
    obtain ⟨data, mode, here⟩ := first.file here
    exact second.file here
  directory here := second.directory (first.directory here)
  link := first.link.trans second.link

/-- Writing where there is a file or nothing. -/
theorem put_file (free : ∀ node, disk.node? place = some node → ∃ data mode, node = .file data mode)
    (data : ByteArray) (mode : Nat) : disk.Grows (disk.put place (.file data mode)) := by
  have inside : place ≠ [] := ne_nil_of_node? fun here => by
    obtain ⟨_, _, same⟩ := free _ here
    contradiction
  have put := node?_put_self inside disk (.file data mode)
  constructor
  · intro other data' mode' here
    by_cases same : other = place
    · exact ⟨data, mode, same ▸ put⟩
    · exact ⟨data', mode', (node?_put_of_ne same disk _).trans here⟩
  · intro other here
    by_cases same : other = place
    · obtain ⟨_, _, kind⟩ := free _ (same ▸ here)
      contradiction
    · rwa [node?_put_of_ne same]
  · intro other target
    by_cases same : other = place
    · rw [same, put]
      constructor
      · intro here
        obtain ⟨_, _, kind⟩ := free _ here
        contradiction
      · exact nofun
    · rw [node?_put_of_ne same]

theorem put_directory (free : disk.node? place = none) :
    disk.Grows (disk.put place .directory) := by
  have inside : place ≠ [] := ne_nil_of_node? fun here => nomatch free.symm.trans here
  have put := node?_put_self inside disk .directory
  constructor
  · intro other data mode here
    by_cases same : other = place
    · rw [same, free] at here
      contradiction
    · exact ⟨data, mode, (node?_put_of_ne same disk _).trans here⟩
  · intro other here
    by_cases same : other = place
    · rw [same, put]
    · rwa [node?_put_of_ne same]
  · intro other target
    by_cases same : other = place
    · rw [same, put, free]
      exact iff_of_false nofun nofun
    · rw [node?_put_of_ne same]

/-- A route to a place is one on the grown disk. -/
theorem route (grows : disk.Grows later) {followLast : Bool} {links : Nat} {start : Place}
    {steps : List String} (route : Route disk followLast links start steps place) :
    Route later followLast links start steps place := by
  induction route with
  | done => exact .done
  | stay here _ ih => exact .stay (grows.directory here) ih
  | outward here _ ih => exact .outward (grows.directory here) ih
  | @missing links start step here inward absent =>
      cases made : later.node? (start ++ [step]) with
      | none => exact .missing (grows.directory here) inward made
      | some node =>
          refine .entry (grows.directory here) inward made ?_ .done
          rintro target rfl
          exact nomatch absent.symm.trans (grows.link.2 made)
  | unfollowed here inward target last =>
      exact .unfollowed (grows.directory here) inward (grows.link.1 target) last
  | link here inward target further _ ih =>
      exact .link (grows.directory here) inward (grows.link.1 target) further ih
  | @entry links start goal step rest node here inward known plain _ ih =>
      cases node with
      | link target => exact absurd rfl (plain target)
      | file data mode =>
          obtain ⟨data, mode, known⟩ := grows.file known
          exact .entry (grows.directory here) inward known nofun ih
      | directory => exact .entry (grows.directory here) inward (grows.directory known) nofun ih

theorem find (grows : disk.Grows later) {here : Place} {followLast : Bool} {path : Pathname}
    (found : disk.find here followLast path = .ok place) :
    later.find here followLast path = .ok place := by
  rw [Disk.find] at found ⊢
  split at found
  next => contradiction
  next given =>
    split at found
    next => contradiction
    next short =>
      rw [if_neg given, if_neg short]
      rw [locate_eq_ok_iff] at found ⊢
      exact grows.route found

end Grows

/-! ## What a change of the disk does -/

/-- A disk that has grown, on which every place is as it was, but for new directories
and for places that were written to. -/
structure Keeps (disk later : Disk) (written : Place → Prop) : Prop where
  grows : disk.Grows later
  kept : ∀ place, later.node? place = disk.node? place ∨
    (disk.node? place = none ∧ later.node? place = some .directory) ∨ written place

namespace Keeps

variable {written other : Place → Prop}

theorem refl (disk : Disk) (written : Place → Prop) : disk.Keeps disk written :=
  ⟨.refl disk, fun _ => .inl rfl⟩

theorem trans (first : disk.Keeps middle written) (second : middle.Keeps later written) :
    disk.Keeps later written where
  grows := first.grows.trans second.grows
  kept place := by
    rcases first.kept place with same | ⟨absent, made⟩ | touched
    · rw [← same]
      exact second.kept place
    · rcases second.kept place with same | ⟨gone, -⟩ | touched
      · exact .inr (.inl ⟨absent, same.trans made⟩)
      · exact nomatch made.symm.trans gone
      · exact .inr (.inr touched)
    · exact .inr (.inr touched)

theorem imp (keeps : disk.Keeps later written) (weaken : ∀ place, written place → other place) :
    disk.Keeps later other :=
  ⟨keeps.grows, fun place => (keeps.kept place).imp_right (.imp_right (weaken place))⟩

theorem put_file (free : ∀ node, disk.node? place = some node → ∃ data mode, node = .file data mode)
    (data : ByteArray) (mode : Nat) :
    disk.Keeps (disk.put place (.file data mode)) (· = place) where
  grows := .put_file free data mode
  kept other := by
    by_cases same : other = place
    · exact .inr (.inr same)
    · exact .inl (node?_put_of_ne same disk _)

end Keeps

variable {here : Place} {path : Pathname}

theorem open?_eq_ok_iff {node : Node} :
    disk.open? here path = .ok (place, node) ↔
      disk.find here true path = .ok place ∧ disk.node? place = some node := by
  rw [open?, bind_eq_ok_iff]
  constructor
  · rintro ⟨found, located, answered⟩
    cases known : disk.node? found with
    | none =>
        rw [known] at answered
        contradiction
    | some other =>
        rw [known] at answered
        obtain ⟨rfl, rfl⟩ := Prod.mk.inj (Except.ok.inj answered)
        exact ⟨located, known⟩
  · rintro ⟨located, known⟩
    refine ⟨place, located, ?_⟩
    rw [known]
    rfl

theorem openFile_eq_ok_iff {data : ByteArray} {mode : Nat} :
    disk.openFile here path = .ok (place, data, mode) ↔
      disk.find here true path = .ok place ∧ disk.node? place = some (.file data mode) := by
  rw [openFile, bind_eq_ok_iff]
  constructor
  · rintro ⟨⟨found, node⟩, opened, answered⟩
    cases node with
    | file data mode =>
        obtain ⟨rfl, rfl, rfl⟩ := by simpa using Except.ok.inj answered
        exact open?_eq_ok_iff.1 opened
    | directory => contradiction
    | link target => contradiction
  · intro known
    exact ⟨_, open?_eq_ok_iff.2 known, rfl⟩

/-- A directory is created where there was nothing. -/
theorem keeps_of_createDirectory (created : disk.createDirectory here path = .ok later)
    (written : Place → Prop) : disk.Keeps later written := by
  obtain ⟨place, -, answered⟩ := bind_eq_ok_iff.1 created
  cases free : disk.node? place with
  | some node =>
      rw [free] at answered
      contradiction
  | none =>
      rw [free] at answered
      obtain rfl := Except.ok.inj answered
      have inside : place ≠ [] := ne_nil_of_node? fun here => nomatch free.symm.trans here
      refine ⟨.put_directory free, fun other => ?_⟩
      by_cases same : other = place
      · exact .inr (.inl ⟨same ▸ free, same ▸ node?_put_self inside disk .directory⟩)
      · exact .inl (node?_put_of_ne same disk _)

/-- What is written is put where the path leads, in place of a file or of nothing. -/
theorem exists_of_write {data : ByteArray} {mode? : Option Nat}
    (written : disk.write here path data mode? = .ok (later, place)) :
    disk.find here true path = .ok place ∧
      (∀ node, disk.node? place = some node → ∃ data mode, node = .file data mode) ∧
      ∃ mode, later = disk.put place (.file data mode) ∧
        ∀ given, mode? = some given → mode = given := by
  obtain ⟨found, located, answered⟩ := bind_eq_ok_iff.1 written
  cases known : disk.node? found with
  | none =>
      rw [known] at answered
      obtain ⟨rfl, rfl⟩ := Prod.mk.inj (Except.ok.inj answered)
      refine ⟨located, fun node here => (nomatch known.symm.trans here), _, rfl, ?_⟩
      rintro given rfl
      rfl
  | some node =>
      cases node with
      | file data mode =>
          rw [known] at answered
          obtain ⟨rfl, rfl⟩ := Prod.mk.inj (Except.ok.inj answered)
          refine ⟨located, fun node here => ⟨data, mode, ?_⟩, _, rfl, ?_⟩
          · exact (Option.some.inj (known.symm.trans here)).symm
          · rintro given rfl
            rfl
      | directory =>
          rw [known] at answered
          contradiction
      | link target =>
          rw [known] at answered
          contradiction

/-- A copy is put where its path leads, in place of a file or of nothing, which is emptied
before. It is one of the file that is copied, unless it takes the place of that file. -/
theorem exists_of_copy {source destination : Pathname} {size : Nat}
    (copied : disk.copy here source destination = .ok (later, size)) :
    ∃ found data mode place content,
      disk.find here true source = .ok found ∧ disk.node? found = some (.file data mode) ∧
      disk.find here true destination = .ok place ∧
      (∀ node, disk.node? place = some node → ∃ data mode, node = .file data mode) ∧
      later = (disk.put place (.file .empty mode)).put place (.file content mode) ∧
      (found ≠ place → content = data) := by
  obtain ⟨⟨found, data, mode⟩, opened, answered⟩ := bind_eq_ok_iff.1 copied
  obtain ⟨⟨emptied, place⟩, emptying, answered⟩ := bind_eq_ok_iff.1 answered
  obtain ⟨⟨found', content, _⟩, reopened, answered⟩ := bind_eq_ok_iff.1 answered
  obtain ⟨⟨filled, place'⟩, filling, answered⟩ := bind_eq_ok_iff.1 answered
  obtain ⟨rfl, -⟩ := Prod.mk.inj (Except.ok.inj answered)
  obtain ⟨led, known⟩ := openFile_eq_ok_iff.1 opened
  obtain ⟨led', known'⟩ := openFile_eq_ok_iff.1 reopened
  obtain ⟨located, free, emptyMode, rfl, same⟩ := exists_of_write emptying
  obtain ⟨located', -, fullMode, rfl, same'⟩ := exists_of_write filling
  obtain rfl := same mode rfl
  obtain rfl := same' emptyMode rfl
  have grows := Grows.put_file free .empty fullMode
  obtain rfl : place = place' := Except.ok.inj ((grows.find located).symm.trans located')
  obtain rfl : found = found' := Except.ok.inj ((grows.find led).symm.trans led')
  refine ⟨found, data, fullMode, place, content, led, known, located, free, rfl, fun apart => ?_⟩
  rw [node?_put_of_ne apart, known] at known'
  exact (Node.file.inj (Option.some.inj known')).1.symm

/-- A copy comes to be where its path leads, and nowhere else. What is copied could
be found before. -/
theorem keeps_of_copy {source destination : Pathname} {size : Nat}
    (copied : disk.copy here source destination = .ok (later, size)) :
    (∃ place, later.find here true destination = .ok place ∧ disk.Keeps later (· = place)) ∧
      ∃ place, disk.find here true source = .ok place := by
  obtain ⟨found, data, mode, place, content, source_found, -, located, free, rfl, -⟩ :=
    exists_of_copy copied
  have inside : place ≠ [] := ne_nil_of_node? fun root => by
    obtain ⟨_, _, same⟩ := free _ root
    contradiction
  have emptied := Keeps.put_file free .empty mode
  have filled : (disk.put place (.file .empty mode)).Keeps _ (· = place) :=
    .put_file (fun node known => ⟨.empty, mode, Option.some.inj
      (known.symm.trans (node?_put_self inside disk _))⟩) content mode
  have keeps := emptied.trans filled
  exact ⟨⟨place, keeps.grows.find located, keeps⟩, found, source_found⟩

/-- A file that is found by its path can be written, and keeps its mode. -/
theorem write_eq_ok {data new : ByteArray} {mode : Nat}
    (found : disk.find here true path = .ok place)
    (known : disk.node? place = some (.file data mode)) :
    disk.write here path new none = .ok (disk.put place (.file new mode), place) := by
  refine bind_eq_ok_iff.2 ⟨place, found, ?_⟩
  rw [known]
  rfl

/-- A file that is found by its path gets new content, and keeps its mode. -/
theorem replace_eq_ok {data new : ByteArray} {mode : Nat}
    (found : ∀ followLast, disk.find here followLast path = .ok place)
    (known : disk.node? place = some (.file data mode)) :
    disk.replace here path new = .ok (disk.put place (.file new mode)) := by
  have opened := openFile_eq_ok_iff.2 ⟨found true, known⟩
  rw [replace, opened]
  change disk.find here false path >>= _ = _
  rw [found false]
  rfl

/-- A path that leads somewhere is not too long. -/
theorem short_of_find {followLast : Bool} (found : disk.find here followLast path = .ok place) :
    path.text.utf8ByteSize ≤ maxPathSize := by
  rw [find] at found
  split at found
  next => contradiction
  next =>
    split at found
    next => contradiction
    next short => exact Nat.not_lt.1 short

end Disk

end ProviderMigration.Storage
