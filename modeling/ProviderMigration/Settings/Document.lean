import ProviderMigration.Settings.Basic
import ProviderMigration.Toml.Document

/-!
# Settings documents

A settings document is a TOML document that gives each of the settings a key. A
missing key stands for the setting of a first run, and keys of other names are
passed over. Settings are written with all their keys, always in the same order.
-/

namespace ProviderMigration.Settings

open Toml

/-! ## Reading -/

def textOf? : Value → Option String
  | .string text => some text
  | _ => none

def textsOf? : Value → Option (List String)
  | .array items => items.mapM textOf?
  | _ => none

/-- Sizes are below this number. -/
def sizeBound : Nat := Nat.pow 2 64

def sizeOf? : Value → Option Nat
  | .integer size => if 0 ≤ size ∧ size < sizeBound then some size.toNat else none
  | _ => none

/-- The setting under a key, which is `standard` if the key is missing. -/
def lookUp {α : Type} (table : Table) (key : String) (read : Value → Option α)
    (standard : α) : Option α :=
  match table.lookup key with
  | none => some standard
  | some value => read value

/-- The settings in a table. There are none if one of them is of the wrong type. -/
def ofTable? (table : Table) : Option Settings := do
  return {
    extensions := ← lookUp table "extensions" textsOf? standard.extensions
    providerExtensions :=
      ← lookUp table "provider_extensions" textsOf? standard.providerExtensions
    ignoredPaths := ← lookUp table "ignored_paths" textsOf? standard.ignoredPaths
    maxFileSize := ← lookUp table "max_file_size" sizeOf? standard.maxFileSize
    backupSuffix := ← lookUp table "backup_suffix" textOf? standard.backupSuffix }

/-- The settings in a document. -/
def ofText? (text : List Char) : Option Settings := do
  ofTable? (← Document.ofText? text)

/-! ## Writing -/

/-- An array of strings. More than one stand on lines of their own. -/
def writeTexts : List String → List Char
  | [] => "[]".toList
  | [text] => "[".toList ++ Quoted.write text.toList ++ "]".toList
  | texts =>
      let item := fun text : String =>
        "    ".toList ++ Quoted.write text.toList ++ ",\n".toList
      "[\n".toList ++ texts.flatMap item ++ "]".toList

/-- A line that gives a value to a key. -/
def writeLine (key : String) (value : List Char) : List Char :=
  key.toList ++ " = ".toList ++ value ++ "\n".toList

/-- The document with all the settings. -/
def toText (settings : Settings) : List Char :=
  writeLine "extensions" (writeTexts settings.extensions) ++
    writeLine "provider_extensions" (writeTexts settings.providerExtensions) ++
    writeLine "ignored_paths" (writeTexts settings.ignoredPaths) ++
    writeLine "max_file_size" (toString settings.maxFileSize).toList ++
    writeLine "backup_suffix" (Quoted.write settings.backupSuffix.toList)

end ProviderMigration.Settings
