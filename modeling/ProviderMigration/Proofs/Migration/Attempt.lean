import ProviderMigration.Migration.Attempt
import ProviderMigration.Storage.Machine

/-!
# Attempts on a machine

On a machine, an attempt is a function from the machine as it is to what the attempt
comes to and the machine as it is then. This module says so for everything attempts
are put together from. A relation between machines that each part of an attempt
respects is respected by the whole, so an attempt whose parts only look at the disk
leaves the disk as it is.
-/

namespace ProviderMigration.Migration

open Storage

variable {α β : Type}

/-- An action goes on from where the one before it has led. -/
theorem Machine.on_bind (action : Machine.Action α) (next : α → Machine.Action β)
    (machine : Machine) : (action >>= next) machine = next (action machine).1 (action machine).2 :=
  rfl

/-- What an attempt on a machine comes to, and the machine after it. -/
def Attempt.on (operation : Attempt Machine.Action α) (machine : Machine) :
    Except Failure α × Machine :=
  operation.run machine

namespace Attempt

variable {operation : Attempt Machine.Action α} {next : α → Attempt Machine.Action β}
  {machine later : Machine}

@[simp] theorem on_pure (answer : α) (machine : Machine) :
    (pure answer : Attempt Machine.Action α).on machine = (.ok answer, machine) := rfl

/-- An attempt goes on from where the one before it has led. -/
theorem on_bind_of_ok {answer : α} (done : operation.on machine = (.ok answer, later)) :
    (operation >>= next).on machine = (next answer).on later := by
  change (ExceptT.bindCont next (operation.on machine).1) (operation.on machine).2 = _
  rw [done]
  rfl

/-- An attempt that fails is the end. -/
theorem on_bind_of_error {failure : Failure}
    (failed : operation.on machine = (.error failure, later)) :
    (operation >>= next).on machine = (.error failure, later) := by
  change (ExceptT.bindCont next (operation.on machine).1) (operation.on machine).2 = _
  rw [failed]
  rfl

/-- An attempt that comes to something has come to something at its first step. -/
theorem exists_of_on_bind {answer : β}
    (done : (operation >>= next).on machine = (.ok answer, later)) :
    ∃ first middle, operation.on machine = (.ok first, middle) ∧
      (next first).on middle = (.ok answer, later) := by
  cases start : operation.on machine with
  | mk result middle =>
      cases result with
      | error failure =>
          rw [on_bind_of_error start] at done
          exact nomatch done
      | ok first =>
          rw [on_bind_of_ok start] at done
          exact ⟨first, middle, rfl, done⟩

theorem on_attempt (context : OsError → Failure) (action : Machine.Action (Except OsError α))
    (machine : Machine) :
    (attempt context action).on machine =
      ((action machine).1.mapError context, (action machine).2) := by
  cases start : action machine with
  | mk result later =>
      simp only [Attempt.on, attempt, ExceptT.run, ExceptT.mk, bind, StateT.bind, start]
      cases result with
      | error error => rfl
      | ok answer => rfl

theorem of_on_attempt {context : OsError → Failure} {action : Machine.Action (Except OsError α)}
    {answer : α} (done : (attempt context action).on machine = (.ok answer, later)) :
    action machine = (.ok answer, later) := by
  rw [on_attempt] at done
  obtain ⟨result, rfl⟩ := Prod.mk.inj done
  cases start : (action machine).1 with
  | error error =>
      rw [start] at result
      contradiction
  | ok found =>
      rw [start] at result
      obtain rfl := Except.ok.inj result
      exact Prod.ext start rfl

@[simp] theorem on_perform (action : Machine.Action α) (machine : Machine) :
    (perform action).on machine = (.ok (action machine).1, (action machine).2) := rfl

@[simp] theorem on_settle (operation : Attempt Machine.Action α) (machine : Machine) :
    (settle operation).on machine = (.ok (operation.on machine).1, (operation.on machine).2) := rfl

end Attempt

/-! ## Relations that an attempt respects -/

/-- An action that leads from each machine to a related one. -/
def Within (relation : Machine → Machine → Prop) (action : Machine.Action α) : Prop :=
  ∀ machine, relation machine (action machine).2

theorem Within.related {relation : Machine → Machine → Prop} {operation : Attempt Machine.Action α}
    (within : Within relation operation.run) {machine later : Machine} {result : Except Failure α}
    (done : operation.on machine = (result, later)) : relation machine later := by
  have step : relation machine (operation.on machine).2 := within machine
  rwa [done] at step

section Within

variable {relation : Machine → Machine → Prop} (refl : ∀ machine, relation machine machine)
  (trans : ∀ first middle last, relation first middle → relation middle last →
    relation first last)

include refl in
theorem Within.pure (answer : α) : Within relation (pure answer : Machine.Action α) :=
  fun machine => refl machine

include trans in
theorem Within.bind {action : Machine.Action α} {next : α → Machine.Action β}
    (first : Within relation action) (second : ∀ answer, Within relation (next answer)) :
    Within relation (action >>= next) :=
  fun machine => trans _ _ _ (first machine) (second (action machine).1 (action machine).2)

include refl trans in
/-- What comes after an attempt is done only if the attempt has not failed. -/
theorem Within.bind_attempt {operation : Attempt Machine.Action α}
    {next : α → Attempt Machine.Action β} (first : Within relation operation.run)
    (second : ∀ answer, Within relation (next answer).run) :
    Within relation (operation >>= next).run := by
  rw [ExceptT.run_bind]
  refine Within.bind trans first fun result => ?_
  cases result with
  | ok answer => exact second answer
  | error failure => exact .pure refl (Except.error failure)

include refl trans in
theorem Within.attempt {action : Machine.Action (Except OsError α)} (context : OsError → Failure)
    (within : Within relation action) :
    Within relation (attempt context action).run := by
  refine Within.bind trans within fun result => ?_
  cases result with
  | ok answer => exact .pure refl _
  | error failure => exact .pure refl _

include refl trans in
theorem Within.perform {action : Machine.Action α} (within : Within relation action) :
    Within relation (perform action).run :=
  Within.bind trans within fun answer => .pure refl (Except.ok answer)

include refl trans in
theorem Within.settle {operation : Attempt Machine.Action α}
    (within : Within relation operation.run) : Within relation (settle operation).run :=
  Within.perform refl trans within

include refl trans in
/-- Finding out what a path leads to changes nothing. -/
theorem Within.leadsTo (path : Pathname) (kind : Kind) :
    Within relation (Host.leadsTo path kind : Machine.Action _) := by
  refine Within.bind trans (fun machine => refl machine) fun found => ?_
  cases found with
  | ok found => exact .pure refl _
  | error error => exact .pure refl _

end Within

/-! ## Attempts that change no files -/

/-- Two machines with the same files, of which the later one has never had others
since the earlier one. -/
structure SameFiles (machine later : Machine) : Prop where
  disk : later.disk = machine.disk
  past : later.past = machine.past
  here : later.here = machine.here

namespace SameFiles

theorem refl (machine : Machine) : SameFiles machine machine := ⟨rfl, rfl, rfl⟩

theorem trans (first middle last : Machine) (start : SameFiles first middle)
    (rest : SameFiles middle last) : SameFiles first last :=
  ⟨rest.disk.trans start.disk, rest.past.trans start.past, rest.here.trans start.here⟩

end SameFiles

/-- An attempt that may look at files and write lines, and does nothing else. -/
def LooksOnly (operation : Attempt Machine.Action α) : Prop := Within SameFiles operation.run

namespace LooksOnly

theorem sameFiles {operation : Attempt Machine.Action α} (looks : LooksOnly operation)
    {machine later : Machine} {result : Except Failure α}
    (done : operation.on machine = (result, later)) : SameFiles machine later :=
  Within.related looks done

protected theorem pure (answer : α) : LooksOnly (pure answer) :=
  Within.pure SameFiles.refl (Except.ok answer)

protected theorem throw (failure : Failure) :
    LooksOnly (throw failure : Attempt Machine.Action α) :=
  Within.pure SameFiles.refl (Except.error failure)

protected theorem bind {operation : Attempt Machine.Action α} {next : α → Attempt Machine.Action β}
    (first : LooksOnly operation) (second : ∀ answer, LooksOnly (next answer)) :
    LooksOnly (operation >>= next) :=
  Within.bind_attempt SameFiles.refl SameFiles.trans first second

protected theorem look (context : OsError → Failure)
    (operation : Disk → Place → Except OsError α) :
    LooksOnly (attempt context (Machine.look operation)) :=
  Within.attempt SameFiles.refl SameFiles.trans context fun machine => .refl machine

protected theorem perform {action : Machine.Action α} (within : Within SameFiles action) :
    LooksOnly (perform action) :=
  Within.perform SameFiles.refl SameFiles.trans within

protected theorem say (line : String) : LooksOnly (perform (Host.say line)) :=
  .perform fun _ => ⟨rfl, rfl, rfl⟩

protected theorem warn (line : String) : LooksOnly (perform (Host.warn line)) :=
  .perform fun _ => ⟨rfl, rfl, rfl⟩

protected theorem showsStyles : LooksOnly (perform Host.showsStyles) :=
  .perform fun machine => .refl machine

protected theorem sayUnless (quiet : Bool) (line : String) : LooksOnly (sayUnless quiet line) := by
  cases quiet with
  | true => exact .pure ()
  | false => exact .say line

end LooksOnly

/-! ## Attempts that keep something true of the disk -/

/-- From one machine to the later one, every disk, the first and the last included, has the
property. -/
def Since (holds : Disk → Prop) (machine later : Machine) : Prop :=
  ∃ recent, later.past = recent ++ machine.past ∧ ∀ disk ∈ later.disk :: recent, holds disk

namespace Since

variable {holds weaker : Disk → Prop} {first middle last : Machine}

theorem of_sameFiles (same : SameFiles first last) (kept : holds first.disk) :
    Since holds first last := by
  refine ⟨[], same.past, ?_⟩
  rw [List.forall_mem_singleton, same.disk]
  exact kept

theorem trans (start : Since holds first middle) (rest : Since holds middle last) :
    Since holds first last := by
  obtain ⟨recent, past, all⟩ := start
  obtain ⟨later, past', all'⟩ := rest
  refine ⟨later ++ recent, by rw [past', past, List.append_assoc], fun disk member => ?_⟩
  rw [← List.cons_append, List.mem_append] at member
  exact member.elim (all' disk) fun member => all disk (List.mem_cons_of_mem _ member)

theorem imp (since : Since holds first last) (weaken : ∀ disk, holds disk → weaker disk) :
    Since weaker first last := by
  obtain ⟨recent, past, all⟩ := since
  exact ⟨recent, past, fun disk member => weaken disk (all disk member)⟩

/-- What comes after an attempt that only looks. -/
theorem bind {operation : Attempt Machine.Action α} {next : α → Attempt Machine.Action β}
    (looks : LooksOnly operation) (kept : holds first.disk)
    (onward : ∀ answer middle, operation.on first = (.ok answer, middle) → SameFiles first middle →
      Since holds middle ((next answer).on middle).2) :
    Since holds first ((operation >>= next).on first).2 := by
  cases start : operation.on first with
  | mk result middle =>
      have same := looks.sameFiles start
      cases result with
      | error failure =>
          rw [Attempt.on_bind_of_error start]
          exact .of_sameFiles same kept
      | ok answer =>
          rw [Attempt.on_bind_of_ok start]
          exact (Since.of_sameFiles same kept).trans (onward answer middle start same)

theorem disk (since : Since holds first last) : holds last.disk := by
  obtain ⟨recent, -, all⟩ := since
  exact all _ List.mem_cons_self

end Since

/-- From a machine in the directory `here`, the later one has been reached without leaving
that directory, and every disk since has kept the property that the first one had. -/
def Stays (here : Place) (holds : Disk → Prop) (machine later : Machine) : Prop :=
  machine.here = here → holds machine.disk → later.here = here ∧ Since holds machine later

namespace Stays

variable {here : Place} {holds : Disk → Prop} {machine later : Machine}

theorem of_sameFiles (same : SameFiles machine later) : Stays here holds machine later :=
  fun there kept => ⟨same.here.trans there, .of_sameFiles same kept⟩

theorem refl (machine : Machine) : Stays here holds machine machine :=
  of_sameFiles (.refl machine)

theorem trans (first middle last : Machine) (start : Stays here holds first middle)
    (rest : Stays here holds middle last) : Stays here holds first last := by
  intro there kept
  obtain ⟨there, since⟩ := start there kept
  obtain ⟨there, since'⟩ := rest there since.disk
  exact ⟨there, since.trans since'⟩

/-- What holds of the last disk. -/
theorem disk (stays : Stays here holds machine later) (there : machine.here = here)
    (kept : holds machine.disk) : holds later.disk :=
  (stays there kept).2.disk

/-- A change of the disk. -/
theorem alter {operation : Disk → Place → Except OsError (Disk × α)}
    (keeps : ∀ {disk later answer}, holds disk → operation disk here = .ok (later, answer) →
      holds later) : Within (Stays here holds) (Machine.alter operation) := by
  intro machine there kept
  rw [Machine.alter, there]
  cases done : operation machine.disk here with
  | error error => exact refl machine there kept
  | ok result =>
      refine ⟨there, [machine.disk], rfl, ?_⟩
      rw [List.forall_mem_cons, List.forall_mem_singleton]
      exact ⟨keeps kept done, kept⟩

end Stays

end ProviderMigration.Migration
