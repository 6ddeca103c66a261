import ProviderMigration.Migration.Preparation
import ProviderMigration.Proofs.Migration.Stages
import ProviderMigration.Proofs.Settings.Document

/-!
# Settings that are kept

The settings of a user are kept in a file that shows all of them. Whether that file is created,
completed or left alone, it holds afterwards what is written for the settings that are
answered, so keeping the settings once more finds the file as it has to be. A file whose
settings cannot be read is left as it is.
-/

namespace ProviderMigration.Migration

open Storage

variable {machine after : Machine} {path : Pathname} {text : List Char} {settings : Settings}
  {quiet : Bool}

/-! ## The text of a file -/

/-- There is a file at a path, and its bytes are those of a text. -/
def Holds (machine : Machine) (path : Pathname) (text : List Char) : Prop :=
  ∃ place mode, machine.disk.openFile machine.here path = .ok (place, bytesOf text, mode)

/-- The text that a file holds is the one that is read. -/
theorem holds_iff :
    Holds machine path text ↔ ((Host.readText path : Machine.Action _) machine).1 = .ok text := by
  rw [readText_eq, bind_eq_ok_iff]
  constructor
  · rintro ⟨place, mode, opened⟩
    exact ⟨_, opened, textOf_bytesOf text⟩
  · rintro ⟨⟨place, data, mode⟩, opened, read⟩
    rw [textOf_eq_ok_iff] at read
    exact ⟨place, mode, read ▸ opened⟩

theorem Holds.kind (holds : Holds machine path text) :
    (Host.kind path : Machine.Action _) machine = (.ok .file, machine) := by
  obtain ⟨place, mode, opened⟩ := holds
  rw [kind_on, Disk.open?_eq_ok_iff.2 (Disk.openFile_eq_ok_iff.1 opened)]
  rfl

theorem Holds.readText (holds : Holds machine path text) :
    (Host.readText path : Machine.Action _) machine = (.ok text, machine) :=
  Prod.ext (holds_iff.1 holds) (by rw [readText_eq])

/-- A write changes the disk, or fails and changes nothing. -/
theorem write_on (path : Pathname) (data : ByteArray) (machine : Machine) :
    (Host.write path data : Machine.Action _) machine =
      match machine.disk.write machine.here path data none with
      | .ok (disk, _) => (.ok (), machine.change disk)
      | .error error => (.error error, machine) := by
  change Machine.alter _ machine = _
  rw [Machine.alter]
  cases machine.disk.write machine.here path data none <;> rfl

/-- A file that has been written holds what was written. -/
theorem holds_of_writeSettings
    (written : (writeSettings path settings).on machine = (.ok (), after)) :
    Holds after path settings.toText := by
  have done := Attempt.of_on_attempt written
  rw [write_on] at done
  split at done
  next disk place put =>
    obtain rfl := (Prod.mk.inj done).2
    obtain ⟨found, free, mode, rfl, -⟩ := Disk.exists_of_write put
    have inside : place ≠ [] := Disk.ne_nil_of_node? fun root => by
      obtain ⟨_, _, same⟩ := free _ root
      contradiction
    exact ⟨place, mode, Disk.openFile_eq_ok_iff.2
      ⟨(Disk.Grows.put_file free _ mode).find found, Disk.node?_put_self inside _ _⟩⟩
  next => exact nomatch done

/-- A file that can be read can be written. -/
theorem exists_writeSettings (holds : Holds machine path text) (settings : Settings) :
    ∃ after, (writeSettings path settings).on machine = (.ok (), after) := by
  obtain ⟨place, mode, opened⟩ := holds
  obtain ⟨found, known⟩ := Disk.openFile_eq_ok_iff.1 opened
  refine ⟨machine.change (machine.disk.put place (.file (bytesOf settings.toText) mode)), ?_⟩
  rw [writeSettings, Attempt.on_attempt, write_on, Disk.write_eq_ok found known]
  rfl

/-- Saying something changes no file. -/
theorem Holds.of_sayUnless {line : String} (holds : Holds machine path text)
    (said : (sayUnless quiet line).on machine = (.ok (), after)) : Holds after path text := by
  have same := (LooksOnly.sayUnless quiet line).sameFiles said
  rwa [Holds, same.disk, same.here]

/-! ## Loading -/

/-- The settings in a file are those of its text. -/
theorem loadSettings_on (holds : Holds machine path text) :
    (loadSettings path).on machine =
      (match Settings.ofText? text with
        | some settings => .ok settings.completed
        | none => .error (.invalidSettings path), machine) := by
  have read : (attempt (.unreadableSettings path) (Host.readText path)).on machine =
      (.ok text, machine) := by
    rw [Attempt.on_attempt, holds.readText]
    rfl
  rw [loadSettings, Attempt.on_bind_of_ok read]
  cases Settings.ofText? text <;> rfl

/-! ## Keeping -/

/-- Keeping begins with what there is. -/
theorem perform_kind_on {answer : Except OsError Kind}
    (known : ((Host.kind path : Machine.Action _) machine).1 = answer) :
    (perform (Host.kind path)).on machine = (.ok answer, machine) := by
  rw [Attempt.on_perform, known, kind_on]

/-- What is done where there is no file yet. -/
theorem keepSettings_on_of_missing {error : OsError}
    (missing : ((Host.kind path : Machine.Action _) machine).1 = .error error) :
    (keepSettings path quiet).on machine = Attempt.on (do
      attempt .os (Host.createDirectories path.parent)
      writeSettings path .standard
      sayUnless quiet s!"Created default config at: {path.text}"
      return .standard) machine := by
  rw [keepSettings, Attempt.on_bind_of_ok (perform_kind_on missing)]

/-- A file that cannot be read is left as it is. -/
theorem keepSettings_on_of_error {kind : Kind} {error : OsError}
    (there : ((Host.kind path : Machine.Action _) machine).1 = .ok kind)
    (unread : ((Host.readText path : Machine.Action _) machine).1 = .error error) :
    (keepSettings path quiet).on machine = (.error (.os error), machine) := by
  have failed : (attempt .os (Host.readText path)).on machine = (.error (.os error), machine) := by
    rw [Attempt.on_attempt, unread, readText_eq]
    rfl
  rw [keepSettings, Attempt.on_bind_of_ok (perform_kind_on there)]
  exact Attempt.on_bind_of_error failed

/-- What is done where there is a file that can be read. -/
theorem keepSettings_on_of_holds (holds : Holds machine path text) :
    (keepSettings path quiet).on machine =
      match Settings.ofText? text with
      | some settings => Attempt.on (do
          unless settings.completed.toText = text do writeSettings path settings.completed
          return settings.completed) machine
      | none => (.error (.invalidSettings path), machine) := by
  have there := congrArg Prod.fst holds.kind
  have read : (attempt .os (Host.readText path)).on machine = (.ok text, machine) := by
    rw [Attempt.on_attempt, holds.readText]
    rfl
  have loaded := loadSettings_on holds
  rw [keepSettings, Attempt.on_bind_of_ok (perform_kind_on there)]
  dsimp only
  rw [Attempt.on_bind_of_ok read]
  cases given : Settings.ofText? text with
  | none =>
      rw [given] at loaded
      exact Attempt.on_bind_of_error loaded
  | some settings =>
      rw [given] at loaded
      exact Attempt.on_bind_of_ok loaded

/-- A file that holds what is written for its settings is left as it is. -/
theorem keepSettings_on_of_toText (complete : settings.IsComplete)
    (fits : settings.maxFileSize < Settings.sizeBound)
    (holds : Holds machine path settings.toText) :
    (keepSettings path quiet).on machine = (.ok settings, machine) := by
  -- The settings that are read are complete, so the text to be written is the one that is there.
  rw [keepSettings_on_of_holds holds, Settings.ofText?_toText settings fits]
  dsimp only
  rw [complete.completed_eq, if_pos rfl]
  rfl

/-- What is kept can be read back, and the file holds what is written for it. -/
theorem holds_of_keepSettings
    (kept : (keepSettings path quiet).on machine = (.ok settings, after)) :
    Holds after path settings.toText ∧ settings.IsComplete ∧
      settings.maxFileSize < Settings.sizeBound := by
  cases there : ((Host.kind path : Machine.Action _) machine).1 with
  | error error =>
      rw [keepSettings_on_of_missing there] at kept
      obtain ⟨_, created, -, kept⟩ := Attempt.exists_of_on_bind kept
      obtain ⟨_, written, wrote, kept⟩ := Attempt.exists_of_on_bind kept
      obtain ⟨_, said, saying, kept⟩ := Attempt.exists_of_on_bind kept
      obtain ⟨same, rfl⟩ := Prod.mk.inj kept
      obtain rfl := Except.ok.inj same
      exact ⟨(holds_of_writeSettings wrote).of_sayUnless saying, Settings.isComplete_standard,
        by decide⟩
  | ok kind =>
      cases read : ((Host.readText path : Machine.Action _) machine).1 with
      | error error =>
          rw [keepSettings_on_of_error there read] at kept
          exact nomatch kept
      | ok text =>
          have holds := holds_iff.2 read
          rw [keepSettings_on_of_holds holds] at kept
          cases given : Settings.ofText? text with
          | none =>
              rw [given] at kept
              exact nomatch kept
          | some read =>
              rw [given] at kept
              have fits :=
                Settings.maxFileSize_completed_lt (Settings.maxFileSize_lt_of_ofText? given)
              have complete := Settings.isComplete_completed read
              dsimp only at kept
              -- Nothing is written only if the file holds already what would be written.
              split at kept
              next same =>
                obtain ⟨answered, rfl⟩ := Prod.mk.inj kept
                obtain rfl := Except.ok.inj answered
                exact ⟨same ▸ holds, complete, fits⟩
              next =>
                obtain ⟨_, written, wrote, kept⟩ := Attempt.exists_of_on_bind kept
                obtain ⟨answered, rfl⟩ := Prod.mk.inj kept
                obtain rfl := Except.ok.inj answered
                exact ⟨holds_of_writeSettings wrote, complete, fits⟩

/-- Settings that can be read are kept. -/
theorem exists_keepSettings (holds : Holds machine path text)
    (given : Settings.ofText? text = some settings) (quiet : Bool) :
    ∃ after, (keepSettings path quiet).on machine = (.ok settings.completed, after) := by
  rw [keepSettings_on_of_holds holds, given]
  dsimp only
  split
  next => exact ⟨machine, rfl⟩
  next =>
    obtain ⟨after, written⟩ := exists_writeSettings holds settings.completed
    exact ⟨after, Attempt.on_bind_of_ok written⟩

/-- Keeping settings comes to rest. What is answered is complete, and the file holds what is
written for it, so keeping the settings once more answers the same and does nothing: the
machine after that is the same in its disk, its past and what has been said. Where there is
something at the path, settings are answered if they can be read, and else it is left as it
is. -/
theorem keepSettings_settles (path : Pathname) (quiet : Bool) (machine : Machine) :
    (∀ settings after, (keepSettings path quiet).on machine = (.ok settings, after) →
      Holds after path settings.toText ∧ settings.IsComplete ∧
      ∀ again, (keepSettings path again).on after = (.ok settings, after)) ∧
    ∀ kind, ((Host.kind path : Machine.Action _) machine).1 = .ok kind →
      (∀ error, ((Host.readText path : Machine.Action _) machine).1 = .error error →
        (keepSettings path quiet).on machine = (.error (.os error), machine)) ∧
      ∀ text, ((Host.readText path : Machine.Action _) machine).1 = .ok text →
        (Settings.ofText? text = none →
          (keepSettings path quiet).on machine = (.error (.invalidSettings path), machine)) ∧
        ∀ settings, Settings.ofText? text = some settings →
          ∃ after, (keepSettings path quiet).on machine = (.ok settings.completed, after) := by
  constructor
  · intro settings after kept
    obtain ⟨holds, complete, fits⟩ := holds_of_keepSettings kept
    exact ⟨holds, complete, fun _ => keepSettings_on_of_toText complete fits holds⟩
  · intro kind there
    refine ⟨fun error unread => keepSettings_on_of_error there unread, fun text read => ?_⟩
    have holds := holds_iff.2 read
    refine ⟨fun invalid => ?_, fun settings given => exists_keepSettings holds given quiet⟩
    rw [keepSettings_on_of_holds holds, invalid]

/-- A machine with a settings file. -/
def settingsMachine (data : ByteArray) : Machine :=
  .fresh (Disk.empty.put ["config.toml"] (.file data 0o600)) [] ⟨"/xdg"⟩ false

theorem holds_settingsMachine (text : List Char) :
    Holds (settingsMachine (bytesOf text)) settingsName text := ⟨["config.toml"], 0o600, rfl⟩

/-- A document with a remark that leaves settings out or empty, in an order of its own, and
with a text that has lines of its own. -/
def partialText : List Char :=
  ("# mine\r\nbackup_suffix = '\\\"é'\nmax_file_size = 0\n" ++
    "ignored_paths = ['''\nx\"\\\n''', '']\nextensions = []\n").toList

/-- The settings in that document. -/
def partialSettings : Settings :=
  { Settings.standard with
    extensions := [], ignoredPaths := ["x\"\\\n", ""], maxFileSize := 0, backupSuffix := "\\\"é" }

/-- Settings that leave one out, with a text that can only be written with escapes. -/
def escapedSettings : Settings :=
  { partialSettings with maxFileSize := 7, backupSuffix := "\x07\"\"\"\\\r'''é\n" }

theorem keepSettings_settles_of_partialText :
    (∀ given ∈ [(partialText, partialSettings), (escapedSettings.toText, escapedSettings)],
      ∃ after, (keepSettings settingsName false).on (settingsMachine (bytesOf given.1)) =
          (.ok given.2.completed, after) ∧
        Holds after settingsName given.2.completed.toText ∧ given.2.completed.IsComplete ∧
        (keepSettings settingsName false).on after = (.ok given.2.completed, after)) ∧
    (keepSettings settingsName false).on (settingsMachine (bytesOf "extensions = 5".toList)) =
      (.error (.invalidSettings settingsName),
        settingsMachine (bytesOf "extensions = 5".toList)) ∧
    (keepSettings settingsName false).on (settingsMachine ⟨#[0xff]⟩) =
      (.error (.os .invalidText), settingsMachine ⟨#[0xff]⟩) := by
  refine ⟨?_, ?_, ?_⟩
  · have readable : ∀ given ∈ [(partialText, partialSettings),
        (escapedSettings.toText, escapedSettings)], Settings.ofText? given.1 = some given.2 := by
      rw [List.forall_mem_cons, List.forall_mem_singleton]
      exact ⟨by decide +kernel, Settings.ofText?_toText _ (by decide)⟩
    intro given listed
    have holds := holds_settingsMachine given.1
    have known := keepSettings_settles settingsName false (settingsMachine (bytesOf given.1))
    have there : ((Host.kind settingsName : Machine.Action _) _).1 = _ :=
      congrArg Prod.fst holds.kind
    obtain ⟨after, kept⟩ := ((known.2 .file there).2 given.1 (holds_iff.1 holds)).2 given.2
      (readable given listed)
    obtain ⟨written, complete, again⟩ := known.1 _ after kept
    exact ⟨after, kept, written, complete, again false⟩
  · have holds := holds_settingsMachine "extensions = 5".toList
    have known := keepSettings_settles settingsName false
      (settingsMachine (bytesOf "extensions = 5".toList))
    exact ((known.2 .file (congrArg Prod.fst holds.kind)).2 _ (holds_iff.1 holds)).1
      (by decide +kernel)
  · have known := keepSettings_settles settingsName false (settingsMachine ⟨#[0xff]⟩)
    exact (known.2 .file (by decide +kernel)).1 .invalidText (by decide +kernel)

end ProviderMigration.Migration
