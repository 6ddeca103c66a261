import ProviderMigration.Proofs.Migration.Looking
import ProviderMigration.Proofs.Storage.Growth

/-!
# What becomes of a file

What a run makes of a file depends on the settings, the name of the file and its
bytes, and on nothing else. This module reads a verdict off those, and shows that a
step of a run does what the verdict on its file says: it counts the file accordingly,
and the only thing it may change on the disk is the content of that file.
-/

namespace ProviderMigration.Migration

open Storage

/-- What is to become of a file. -/
inductive Verdict where
  /-- The lines of files with its extension are not renamed. -/
  | skipped
  | failed (failure : Failure)
  | unchanged
  | migrated (new : List Char)

/-- The verdict on a file with the given bytes. -/
def Entry.verdict (entry : Entry) (settings : Settings) (data : ByteArray) : Verdict :=
  if settings.renamesLines entry.extension then
    if settings.editsProviders entry.extension ∧ settings.maxFileSize < data.size then
      .failed (.tooLarge data.size settings.maxFileSize)
    else
      match textOf data with
      | .error error => .failed (.unreadable entry.path error)
      | .ok text =>
          match migrateText settings entry.extension text with
          | .error fault => .failed (.malformed fault)
          | .ok new => if new = Text.normalizeEnds text then .unchanged else .migrated new
  else .skipped

namespace Verdict

def isSkipped : Verdict → Bool
  | skipped => true
  | _ => false

def isFailed : Verdict → Bool
  | failed _ => true
  | _ => false

def isUnchanged : Verdict → Bool
  | unchanged => true
  | _ => false

def isMigrated : Verdict → Bool
  | migrated _ => true
  | _ => false

/-- The tally with one more file, or the failure that ends a run there. -/
def count (keepGoing : Bool) (tally : Tally) (entry : Entry) : Verdict → Except Failure Tally
  | skipped => .ok { tally with skipped := tally.skipped + 1 }
  | failed failure =>
      if keepGoing then .ok { tally with failed := tally.failed ++ [entry.path.text] }
      else .error (.file entry.path failure)
  | unchanged => .ok { tally with unchanged := tally.unchanged + 1 }
  | migrated _ => .ok { tally with migrated := tally.migrated + 1 }

/-- Whether a run goes on behind the file. -/
def isCounted (keepGoing : Bool) : Verdict → Bool
  | failed _ => keepGoing
  | _ => true

/-- The bytes that a file with the given bytes has afterwards. -/
def content (data : ByteArray) : Verdict → ByteArray
  | migrated new => bytesOf new
  | _ => data

/-- The verdict that what an examination comes to stands for. -/
def ofExamined : Except Failure Outcome → Verdict
  | .error failure => failed failure
  | .ok .unchanged => unchanged
  | .ok (.changed _ new) => migrated new

/-- The disk afterwards. A dry run leaves it as it is. -/
def diskAfter (dryRun : Bool) (disk : Disk) (place : Place) (mode : Nat) : Verdict → Disk
  | migrated new => if dryRun then disk else disk.put place (.file (bytesOf new) mode)
  | _ => disk

/-- Whether a file is migrated, if its migration did not fail. -/
def answer : Verdict → Except Failure Bool
  | failed failure => .error failure
  | migrated _ => .ok true
  | _ => .ok false

end Verdict

/-- What the examination of a file with the given bytes comes to. -/
def Entry.examined (entry : Entry) (settings : Settings) (data : ByteArray) :
    Except Failure Outcome := do
  if settings.editsProviders entry.extension ∧ settings.maxFileSize < data.size then
    throw (.tooLarge data.size settings.maxFileSize)
  let text ← (textOf data).mapError (.unreadable entry.path)
  (outcomeOf settings entry.extension text).mapError .malformed

variable (plan : Plan) (settings : Settings) {entry : Entry} {machine : Machine} {place : Place}
  {data : ByteArray} {mode : Nat}

theorem Entry.verdict_eq (renames : settings.renamesLines entry.extension = true) :
    entry.verdict settings data = .ofExamined (entry.examined settings data) := by
  rw [verdict, if_pos renames, examined]
  split
  next => rfl
  next =>
    cases textOf data with
    | error error => rfl
    | ok text =>
        change _ = Verdict.ofExamined ((outcomeOf settings entry.extension text).mapError _)
        rw [outcomeOf]
        dsimp only
        cases migrateText settings entry.extension text with
        | error fault => rfl
        | ok new =>
            change _ = Verdict.ofExamined (.ok (if new = _ then _ else _))
            dsimp only
            split
            next => rfl
            next => rfl

/-- The text of a file is the one that its bytes stand for. -/
theorem readText_eq (path : Pathname) (machine : Machine) :
    (Host.readText path : Machine.Action _) machine =
      (machine.disk.openFile machine.here path >>= fun opened => textOf opened.2.1, machine) := by
  change ((machine.disk.openFile machine.here path >>= _) >>= textOf, machine) = _
  cases machine.disk.openFile machine.here path <;> rfl

namespace Plan

section Found

variable (found : machine.disk.find machine.here true entry.path = .ok place)
  (known : machine.disk.node? place = some (.file data mode))
include found known

theorem size_on :
    (Host.size entry.path : Machine.Action _) machine = (.ok data.size, machine) := by
  have opened := Disk.openFile_eq_ok_iff.2 ⟨found, known⟩
  change (machine.disk.openFile machine.here entry.path >>= _, machine) = _
  rw [opened]
  rfl

theorem readText_on :
    (Host.readText entry.path : Machine.Action _) machine = (textOf data, machine) := by
  rw [readText_eq, Disk.openFile_eq_ok_iff.2 ⟨found, known⟩]
  rfl

/-- A file that is found by its path is examined as its bytes say. -/
theorem examine_on :
    (examine settings entry).on machine = (entry.examined settings data, machine) := by
  have size : (attempt .os (Host.size entry.path) : Attempt Machine.Action Nat).on machine =
      (.ok data.size, machine) := by
    rw [Attempt.on_attempt, size_on found known]
    rfl
  have text : (attempt (.unreadable entry.path) (Host.readText entry.path) :
      Attempt Machine.Action _).on machine =
        ((textOf data).mapError (.unreadable entry.path), machine) := by
    rw [Attempt.on_attempt, readText_on found known]
  have reading : (examineText settings entry : Attempt Machine.Action Outcome).on machine =
        (do
          let text ← (textOf data).mapError (.unreadable entry.path)
          (outcomeOf settings entry.extension text).mapError Failure.malformed, machine) := by
    rw [examineText]
    cases valid : textOf data with
    | error error =>
        rw [valid] at text
        rw [Attempt.on_bind_of_error text]
        rfl
    | ok letters =>
        rw [valid] at text
        rw [Attempt.on_bind_of_ok text]
        change _ =
          ((outcomeOf settings entry.extension letters).mapError Failure.malformed, machine)
        cases outcomeOf settings entry.extension letters with
        | error fault => rfl
        | ok outcome => rfl
  rw [examine, Entry.examined]
  by_cases edits : settings.editsProviders entry.extension = true
  · rw [if_pos edits, Attempt.on_bind_of_ok size]
    by_cases large : settings.maxFileSize < data.size
    · rw [if_pos large, if_pos ⟨edits, large⟩]
      rfl
    · rw [if_neg large, if_neg (large ·.2)]
      exact reading
  · rw [if_neg edits, if_neg (edits ·.1)]
    exact reading

end Found

theorem progress_on (styles : List Console.Style) (text : String) (machine : Machine) :
    ∃ later, (plan.progress styles text).on machine = (.ok (), later) ∧
      SameFiles machine later := by
  rw [progress, Attempt.on_bind_of_ok (Attempt.on_perform ..), sayUnless]
  cases plan.quiet with
  | true => exact ⟨machine, rfl, .refl machine⟩
  | false => exact ⟨_, rfl, rfl, rfl, rfl⟩

theorem replace_eq (path : Pathname) (data : ByteArray) :
    (Host.replace path data : Machine.Action _) = Machine.alter fun disk here =>
      disk.replace here path data >>= fun disk => pure (disk, ()) := rfl

/-- Saying what becomes of a file is followed by counting it. -/
theorem progress_count_on (styles : List Console.Style) (text : String) (tally : Tally)
    (machine : Machine) :
    ∃ later, (do
        plan.progress styles text
        return tally : Attempt Machine.Action Tally).on machine = (.ok tally, later) ∧
      SameFiles machine later := by
  obtain ⟨later, said, same⟩ := progress_on plan styles text machine
  exact ⟨later, by rw [Attempt.on_bind_of_ok said, Attempt.on_pure], same⟩

section Found

variable (found : ∀ followLast, machine.disk.find machine.here followLast entry.path = .ok place)
  (known : machine.disk.node? place = some (.file data mode))
include found known

theorem replace_on (new : ByteArray) :
    (attempt (.unwritten entry.path) (Host.replace entry.path new) :
      Attempt Machine.Action Unit).on machine =
        (.ok (), machine.change (machine.disk.put place (.file new mode))) := by
  have replaced : (Host.replace entry.path new : Machine.Action _) machine =
      (.ok (), machine.change (machine.disk.put place (.file new mode))) := by
    rw [replace_eq, Machine.alter, Disk.replace_eq_ok found known]
    rfl
  rw [Attempt.on_attempt, replaced]
  rfl

/-- The migration of a file whose lines are renamed does what the verdict says. -/
theorem migrateFile_on (renames : settings.renamesLines entry.extension = true) :
    ∃ later, (plan.migrateFile settings entry).on machine =
        ((entry.verdict settings data).answer, later) ∧
      later.here = machine.here ∧
      later.disk =
        (entry.verdict settings data).diskAfter plan.dryRun machine.disk place mode := by
  have examined := examine_on settings (found true) known
  rw [Entry.verdict_eq settings renames, migrateFile]
  cases comes : entry.examined settings data with
  | error failure =>
      rw [comes] at examined
      exact ⟨machine, by rw [Attempt.on_bind_of_error examined]; rfl, rfl, rfl⟩
  | ok outcome =>
      rw [comes] at examined
      rw [Attempt.on_bind_of_ok examined]
      cases outcome with
      | unchanged => exact ⟨machine, rfl, rfl, rfl⟩
      | changed old new =>
          cases dry : plan.dryRun with
          | true => exact ⟨_, rfl, rfl, rfl⟩
          | false =>
              exact ⟨machine.change (machine.disk.put place (.file (bytesOf new) mode)),
                Attempt.on_bind_of_ok (replace_on found known (bytesOf new)), rfl, rfl⟩

/-- A step counts the file as the verdict says, and changes nothing but its content. -/
theorem step_on (tally : Tally) :
    ∃ later, (plan.step settings tally entry).on machine =
        ((entry.verdict settings data).count plan.keepGoing tally entry, later) ∧
      later.here = machine.here ∧
      later.disk =
        (entry.verdict settings data).diskAfter plan.dryRun machine.disk place mode := by
  rw [step]
  by_cases renames : settings.renamesLines entry.extension = true
  · obtain ⟨middle, migrated, here, disk⟩ :=
      migrateFile_on plan settings found known renames
    have settled : (settle (plan.migrateFile settings entry)).on machine =
        (.ok (entry.verdict settings data).answer, middle) := by
      rw [Attempt.on_settle, migrated]
    rw [if_neg (by simp [renames]), Attempt.on_bind_of_ok settled, ← here, ← disk,
      Entry.verdict_eq settings renames]
    cases entry.examined settings data with
    | ok outcome =>
        have said := fun styles text tally =>
          progress_count_on plan styles text tally middle
        cases outcome with
        | unchanged =>
            obtain ⟨later, counted, same⟩ := said _ _ _
            exact ⟨later, counted, same.here, same.disk⟩
        | changed old new =>
            obtain ⟨later, counted, same⟩ := said _ _ _
            exact ⟨later, counted, same.here, same.disk⟩
    | error failure =>
        dsimp only [Verdict.ofExamined, Verdict.answer, Verdict.count]
        cases plan.keepGoing with
        | true => exact ⟨_, rfl, rfl, rfl⟩
        | false => exact ⟨middle, rfl, rfl, rfl⟩
  · have skipped : entry.verdict settings data = .skipped := by rw [Entry.verdict, if_neg renames]
    obtain ⟨later, said, same⟩ := progress_count_on plan [.dim]
      s!"Skipping {entry.path.text}" { tally with skipped := tally.skipped + 1 } machine
    rw [if_pos (by simp [renames]), skipped]
    exact ⟨later, said, same.here, same.disk⟩

end Found

end Plan

end ProviderMigration.Migration
