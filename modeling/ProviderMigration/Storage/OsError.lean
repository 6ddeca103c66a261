/-!
# Errors of the operating system
-/

namespace ProviderMigration.Storage

/-- Why an operation on files fails. -/
inductive OsError where
  | notFound
  | alreadyExists
  | notADirectory
  | isADirectory
  | nameTooLong
  | tooManyLinks
  /-- A file that is read as text is not valid UTF-8. -/
  | invalidText
  /-- An error that has no name here, with its text. -/
  | other (text : String)
  deriving DecidableEq, Repr

/-- The text of an error, with the number that the system gives it. -/
def OsError.message : OsError → String
  | .notFound => "No such file or directory (os error 2)"
  | .alreadyExists => "File exists (os error 17)"
  | .notADirectory => "Not a directory (os error 20)"
  | .isADirectory => "Is a directory (os error 21)"
  | .nameTooLong => "File name too long (os error 36)"
  | .tooManyLinks => "Too many levels of symbolic links (os error 40)"
  | .invalidText => "stream did not contain valid UTF-8"
  | .other text => text

end ProviderMigration.Storage
