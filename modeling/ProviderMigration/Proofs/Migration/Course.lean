import ProviderMigration.Proofs.Migration.Verdict

/-!
# The course of a migration

A migration deals with its files one after the other. Their places are distinct, so
what it does to one of them leaves the verdicts on the others as they were before the
first. The tally of a whole migration can therefore be read off the files as they were
at its start, and so can the disk that it leaves behind.
-/

namespace ProviderMigration.Migration

open Storage

variable {plan : Plan} {settings : Settings} {entry : Entry} {machine later : Machine}
  {target place : Place} {mode : Nat}

/-! ## The disk after one file -/

namespace Verdict

variable {verdict : Verdict} {dryRun : Bool} {disk : Disk}

theorem node?_diskAfter_of_ne {other : Place} (different : other ≠ place) :
    (verdict.diskAfter dryRun disk place mode).node? other = disk.node? other := by
  cases verdict with
  | migrated new =>
      cases dryRun with
      | true => rfl
      | false => exact Disk.node?_put_of_ne different ..
  | _ => rfl

variable {data : ByteArray} (known : disk.node? place = some (.file data mode))
include known

theorem node?_diskAfter_self :
    (verdict.diskAfter false disk place mode).node? place =
      some (.file (verdict.content data) mode) := by
  cases verdict with
  | migrated new =>
      have inside : place ≠ [] := Disk.ne_nil_of_node? fun root => nomatch known.symm.trans root
      exact Disk.node?_put_self inside ..
  | _ => exact known

theorem grows_diskAfter : disk.Grows (verdict.diskAfter dryRun disk place mode) := by
  cases verdict with
  | migrated new =>
      cases dryRun with
      | true => exact .refl disk
      | false =>
          refine .put_file (fun node here => ⟨data, mode, ?_⟩) ..
          exact Option.some.inj (here.symm.trans known)
  | _ => exact .refl disk

end Verdict

/-! ## The files that are still to come -/

/-- The path of an entry leads to a file below the directory, and this is the verdict
on it. -/
structure Entry.Awaits (entry : Entry) (settings : Settings) (machine : Machine)
    (target : Place) (verdict : Verdict) : Prop where
  found : ∀ followLast,
    machine.disk.find machine.here followLast entry.path = .ok (target ++ entry.names)
  known : ∃ data mode, machine.disk.node? (target ++ entry.names) = some (.file data mode) ∧
    entry.verdict settings data = verdict

/-- An entry goes on awaiting its verdict as long as its file stays the same. -/
theorem Entry.Awaits.of_grows {verdict : Verdict}
    (awaits : entry.Awaits settings machine target verdict) (here : later.here = machine.here)
    (grows : machine.disk.Grows later.disk)
    (same : later.disk.node? (target ++ entry.names) = machine.disk.node? (target ++ entry.names)) :
    entry.Awaits settings later target verdict where
  found followLast := here ▸ grows.find (awaits.found followLast)
  known := by rw [same]; exact awaits.known

/-! ## Counting -/

/-- The files that are dealt with: those in front of the first that fails, unless the
migration is to go on behind it. -/
def processed (keepGoing : Bool) (verdict : Entry → Verdict) (entries : List Entry) :
    List Entry :=
  entries.takeWhile fun entry => (verdict entry).isCounted keepGoing

/-- The tally that is counted from the verdicts on some files. -/
def countAll (keepGoing : Bool) (verdict : Entry → Verdict) :
    Tally → List Entry → Except Failure Tally
  | tally, [] => .ok tally
  | tally, entry :: rest => do
      countAll keepGoing verdict (← (verdict entry).count keepGoing tally entry) rest

section Counted

variable {keepGoing : Bool} {tally : Tally}

/-- A run goes on behind a file that can be counted. -/
theorem Verdict.isCounted_of_count {verdict : Verdict} {next : Tally}
    (counted : verdict.count keepGoing tally entry = .ok next) :
    verdict.isCounted keepGoing = true := by
  cases verdict with
  | failed failure =>
      cases keepGoing with
      | true => rfl
      | false => exact nomatch counted
  | _ => rfl

theorem Verdict.isCounted_of_keepGoing (verdict : Verdict) : verdict.isCounted true = true := by
  cases verdict <;> rfl

theorem Verdict.isCounted_of_not_isFailed {verdict : Verdict} (sound : ¬ verdict.isFailed = true) :
    verdict.isCounted keepGoing = true := by
  cases verdict with
  | failed failure => exact absurd rfl sound
  | _ => rfl

theorem Verdict.count_eq_error {verdict : Verdict} {failure : Failure}
    (ended : verdict.count keepGoing tally entry = .error failure) :
    keepGoing = false ∧ ∃ cause, verdict = failed cause ∧ failure = .file entry.path cause := by
  cases verdict with
  | failed cause =>
      cases keepGoing with
      | true => exact nomatch ended
      | false => exact ⟨rfl, cause, rfl, (Except.error.inj ended).symm⟩
  | _ => exact nomatch ended

variable {verdict : Entry → Verdict} {rest : List Entry}

theorem processed_cons_of_pos (counted : (verdict entry).isCounted keepGoing = true) :
    processed keepGoing verdict (entry :: rest) = entry :: processed keepGoing verdict rest :=
  List.takeWhile_cons_of_pos (p := fun entry => (verdict entry).isCounted keepGoing) counted

theorem processed_cons_of_neg (ends : ¬ (verdict entry).isCounted keepGoing = true) :
    processed keepGoing verdict (entry :: rest) = [] :=
  List.takeWhile_cons_of_neg (p := fun entry => (verdict entry).isCounted keepGoing) ends

theorem processed_of_counted {entries : List Entry}
    (counted : ∀ entry ∈ entries, (verdict entry).isCounted keepGoing = true) :
    processed keepGoing verdict entries = entries := by
  induction entries with
  | nil => rfl
  | cons entry rest ih =>
      rw [List.forall_mem_cons] at counted
      rw [processed_cons_of_pos counted.1, ih counted.2]

/-- The first file that ends a run is not dealt with, and neither are those behind it. -/
theorem processed_append {front : List Entry}
    (counted : ∀ entry ∈ front, (verdict entry).isCounted keepGoing = true)
    (ends : ¬ (verdict entry).isCounted keepGoing = true) :
    processed keepGoing verdict (front ++ entry :: rest) = front := by
  induction front with
  | nil => exact processed_cons_of_neg ends
  | cons first front ih =>
      rw [List.forall_mem_cons] at counted
      rw [List.cons_append, processed_cons_of_pos counted.1, ih counted.2]

end Counted

/-- The tally of files that are counted by their verdicts. -/
def Tally.ofVerdicts (backedUp : Nat) (verdict : Entry → Verdict) (entries : List Entry) :
    Tally where
  backedUp := backedUp
  migrated := entries.countP fun entry => (verdict entry).isMigrated
  unchanged := entries.countP fun entry => (verdict entry).isUnchanged
  skipped := entries.countP fun entry => (verdict entry).isSkipped
  failed := (entries.filter fun entry => (verdict entry).isFailed).map (·.path.text)

section Counting

variable {keepGoing : Bool} {verdict : Entry → Verdict} {backedUp : Nat}

theorem count_ofVerdicts {front : List Entry}
    (counted : (verdict entry).isCounted keepGoing = true) :
    (verdict entry).count keepGoing (.ofVerdicts backedUp verdict front) entry =
      .ok (.ofVerdicts backedUp verdict (front ++ [entry])) := by
  cases kind : verdict entry with
  | failed failure =>
      rw [kind] at counted
      obtain rfl : keepGoing = true := counted
      simp [Verdict.count, Tally.ofVerdicts, kind, Verdict.isMigrated, Verdict.isUnchanged,
        Verdict.isSkipped, Verdict.isFailed]
  | _ =>
      simp [Verdict.count, Tally.ofVerdicts, kind, Verdict.isMigrated, Verdict.isUnchanged,
        Verdict.isSkipped, Verdict.isFailed]

/-- Files behind which a run goes on are all counted. -/
theorem countAll_append {front rest last : List Entry}
    (counted : ∀ entry ∈ rest, (verdict entry).isCounted keepGoing = true) :
    countAll keepGoing verdict (.ofVerdicts backedUp verdict front) (rest ++ last) =
      countAll keepGoing verdict (.ofVerdicts backedUp verdict (front ++ rest)) last := by
  induction rest generalizing front with
  | nil => rw [List.nil_append, List.append_nil]
  | cons entry rest ih =>
      rw [List.forall_mem_cons] at counted
      rw [List.cons_append, countAll, count_ofVerdicts counted.1]
      exact (ih counted.2).trans (by rw [List.append_assoc, List.singleton_append])

theorem countAll_of_counted {entries : List Entry}
    (counted : ∀ entry ∈ entries, (verdict entry).isCounted keepGoing = true) :
    countAll keepGoing verdict (.ofVerdicts backedUp verdict []) entries =
      .ok (.ofVerdicts backedUp verdict entries) := by
  have all : countAll keepGoing verdict (.ofVerdicts backedUp verdict []) (entries ++ []) = _ :=
    countAll_append counted
  rwa [List.append_nil] at all

/-- The first file that fails ends the count, unless it is to go on. -/
theorem countAll_of_failed {front rest : List Entry} {failure : Failure}
    (counted : ∀ entry ∈ front, (verdict entry).isCounted keepGoing = true)
    (failed : verdict entry = .failed failure) (stops : keepGoing = false) :
    countAll keepGoing verdict (.ofVerdicts backedUp verdict []) (front ++ entry :: rest) =
      .error (.file entry.path failure) := by
  rw [countAll_append counted, countAll, failed, stops]
  rfl

/-- Every file is counted once. -/
theorem Tally.ofVerdicts_total (entries : List Entry) :
    let tally := ofVerdicts backedUp verdict entries
    tally.migrated + tally.unchanged + tally.skipped + tally.failed.length = entries.length := by
  rw [ofVerdicts]
  induction entries with
  | nil => rfl
  | cons entry rest ih =>
      rw [List.length_cons, ← ih]
      cases kind : verdict entry <;>
        simp [kind, Verdict.isMigrated, Verdict.isUnchanged, Verdict.isSkipped,
          Verdict.isFailed] <;> omega

/-- The number of files that were backed up is only handed on. -/
theorem countAll_backedUp (tally : Tally) (entries : List Entry) :
    countAll keepGoing verdict { tally with backedUp } entries =
      (countAll keepGoing verdict tally entries).map ({ · with backedUp }) := by
  induction entries generalizing tally with
  | nil => rfl
  | cons entry rest ih =>
      have counted : (verdict entry).count keepGoing { tally with backedUp } entry =
          ((verdict entry).count keepGoing tally entry).map ({ · with backedUp }) := by
        cases verdict entry with
        | failed failure => cases keepGoing <;> rfl
        | _ => rfl
      rw [countAll, countAll, counted]
      cases (verdict entry).count keepGoing tally entry with
      | error failure => rfl
      | ok next => exact ih next

end Counting

/-! ## The whole course -/

/-- A disk on which the given files of a directory are migrated, and everything else is
as it was. -/
structure MigratedOnly (settings : Settings) (target : Place) (disk later : Disk)
    (done : List Entry) : Prop where
  file : ∀ entry ∈ done, ∀ data mode, disk.node? (target ++ entry.names) = some (.file data mode) →
    later.node? (target ++ entry.names) =
      some (.file ((entry.verdict settings data).content data) mode)
  other : ∀ place, (∀ entry ∈ done, place ≠ target ++ entry.names) →
    later.node? place = disk.node? place

namespace MigratedOnly

theorem nil (settings : Settings) (target : Place) (disk : Disk) :
    MigratedOnly settings target disk disk [] :=
  ⟨nofun, fun _ _ => rfl⟩

/-- A file is migrated, and then others are. -/
theorem cons {disk middle last : Disk} {data : ByteArray} {rest : List Entry}
    (known : disk.node? (target ++ entry.names) = some (.file data mode))
    (first : middle =
      (entry.verdict settings data).diskAfter false disk (target ++ entry.names) mode)
    (fresh : ∀ next ∈ rest, next.names ≠ entry.names)
    (others : MigratedOnly settings target middle last rest) :
    MigratedOnly settings target disk last (entry :: rest) where
  file := by
    rw [List.forall_mem_cons]
    constructor
    · intro data' mode' known'
      obtain ⟨rfl, rfl⟩ : data = data' ∧ mode = mode' := by simpa using known.symm.trans known'
      have apart : ∀ next ∈ rest, target ++ entry.names ≠ target ++ next.names :=
        fun next member same => fresh next member (List.append_cancel_left same).symm
      rw [others.other _ apart, first]
      exact Verdict.node?_diskAfter_self known
    · intro next member data' mode' known'
      refine others.file next member data' mode' ?_
      rw [first, Verdict.node?_diskAfter_of_ne, known']
      exact fun same => fresh next member (List.append_cancel_left same)
  other place apart := by
    rw [List.forall_mem_cons] at apart
    rw [others.other place apart.2, first, Verdict.node?_diskAfter_of_ne apart.1]

end MigratedOnly

namespace Plan

variable (plan settings) in
/-- The migration of a list of files counts them as the verdicts say that were awaited
at its start, and migrates those that are dealt with. -/
theorem migrateAll_on (verdict : Entry → Verdict) {entries : List Entry}
    (awaits : ∀ entry ∈ entries, entry.Awaits settings machine target (verdict entry))
    (distinct : (entries.map Entry.names).Nodup) (tally : Tally) :
    ∃ later, (plan.migrateAll settings tally entries).on machine =
        (countAll plan.keepGoing verdict tally entries, later) ∧
      (plan.dryRun = false → MigratedOnly settings target machine.disk later.disk
        (processed plan.keepGoing verdict entries)) := by
  induction entries generalizing machine tally with
  | nil =>
      exact ⟨machine, rfl, fun _ => .nil settings target machine.disk⟩
  | cons entry rest ih =>
      rw [List.forall_mem_cons] at awaits
      obtain ⟨awaited, awaits⟩ := awaits
      rw [List.map_cons, List.nodup_cons, List.mem_map, not_exists] at distinct
      obtain ⟨fresh, distinct⟩ := distinct
      have fresh : ∀ next ∈ rest, next.names ≠ entry.names :=
        fun next member same => fresh next ⟨member, same⟩
      obtain ⟨data, mode, known, settled⟩ := awaited.known
      obtain ⟨middle, stepped, here, disk⟩ :=
        step_on plan settings awaited.found known tally
      rw [settled] at stepped disk
      rw [migrateAll]
      cases counted : (verdict entry).count plan.keepGoing tally entry with
      | ok tally' =>
          rw [counted] at stepped
          have awaits' : ∀ next ∈ rest, next.Awaits settings middle target (verdict next) := by
            intro next member
            refine (awaits next member).of_grows here ?_ ?_
            · exact disk ▸ Verdict.grows_diskAfter known
            · rw [disk, Verdict.node?_diskAfter_of_ne]
              exact fun same => fresh next member (List.append_cancel_left same)
          obtain ⟨later, finished, migrated⟩ := ih awaits' distinct tally'
          refine ⟨later, ?_, fun wet => ?_⟩
          · rw [Attempt.on_bind_of_ok stepped, finished, countAll, counted]
            rfl
          · rw [processed_cons_of_pos (Verdict.isCounted_of_count counted)]
            refine .cons known (by rw [disk, wet, settled]) (fun next member => ?_) (migrated wet)
            exact fresh next ((List.takeWhile_prefix _).subset member)
      | error failure =>
          rw [counted] at stepped
          refine ⟨middle, ?_, fun wet => ?_⟩
          · rw [Attempt.on_bind_of_error stepped, countAll, counted]
            rfl
          · obtain ⟨stops, cause, failed, -⟩ := Verdict.count_eq_error counted
            rw [processed_cons_of_neg (by simp [failed, stops, Verdict.isCounted]), disk, failed]
            exact .nil settings target machine.disk

end Plan

end ProviderMigration.Migration
