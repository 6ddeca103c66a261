import ProviderMigration.Migration.Failure
import ProviderMigration.Storage.Host

/-!
# Attempts

An attempt is a computation on a host that ends in a result or in a failure.
-/

namespace ProviderMigration.Migration

open Storage

abbrev Attempt (m : Type → Type) := ExceptT Failure m

variable {m : Type → Type} [Monad m] {α : Type}

/-- What an operation of the host answers, with its error put in context. -/
def attempt (context : OsError → Failure) (operation : m (Except OsError α)) :
    Attempt m α :=
  .mk do
    match ← operation with
    | .ok answer => return .ok answer
    | .error error => return .error (context error)

/-- What the host does, which is no failure by itself. -/
def perform (operation : m α) : Attempt m α :=
  .lift operation

/-- What an attempt comes to, with its failure as an answer. -/
def settle (operation : Attempt m α) : Attempt m (Except Failure α) :=
  .lift operation.run

/-- Says something to the user unless it is not wanted. -/
def sayUnless [Host m] (quiet : Bool) (line : String) : Attempt m Unit :=
  unless quiet do perform (Host.say line)

end ProviderMigration.Migration
