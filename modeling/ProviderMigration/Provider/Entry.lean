import ProviderMigration.Text.Offset
import ProviderMigration.Block.Balance

/-!
# Edits of one block

Two kinds of block name a provider. A `required_providers` block has an entry
with the provider's source and version; a `provider` block has the provider as
its label. In both, the names `metal` and `packet` give way to `equinix`. A
version constraint of a legacy provider has no meaning for its successor, so the
entry's version is turned into a comment.
-/

namespace ProviderMigration.Provider

open Text Block

/-- The legacy providers, the preferred one first. -/
def legacyNames : List String := ["metal", "packet"]

/-- The provider that succeeds them. -/
def currentName : String := "equinix"

/-- The sources of the legacy providers, in the order of `legacyNames`. -/
def legacySources : List String := ["equinix/metal", "packethost/packet"]

/-- The source of the provider that succeeds them. -/
def currentSource : String := "equinix/equinix"

/-- A mention of a legacy provider, with the text on either side of its start. -/
structure Mention where
  name : String
  before : List Char
  found : List Char

/-- The first mention of the most preferred legacy provider that is mentioned at
all. -/
def Mention.find? (block : List Char) : Option Mention :=
  legacyNames.findSome? fun name =>
    (cutAt? name.toList block).map fun (before, found) => ⟨name, before, found⟩

/-- Renames the first mention of each legacy provider. -/
def renameKeys (text : List Char) : List Char :=
  legacyNames.foldl (fun text name => replaceFirst name.toList currentName.toList text) text

/-- Renames the first mention of each legacy source and comments the first
version out. -/
def updateAttributes (attributes : List Char) : List Char :=
  replaceFirst "version".toList "#version".toList <|
    legacySources.foldl
      (fun text source => replaceFirst source.toList currentSource.toList text) attributes

/-- The `required_providers` block with its legacy entry renamed. The attributes
that are updated reach from the mention to the end of the first braces after it,
and a mention that no braces follow is malformed. -/
def editRequirements (block : List Char) : Except Malformed (List Char) :=
  match Mention.find? block with
  | none => .ok block
  | some mention => do
      let entry := renameKeys mention.found
      let (_, closing) ← (Balance.ofBraces entry).require mention.name
      return mention.before ++ updateAttributes (takeBytes closing entry) ++
        dropBytes closing entry

/-- The `provider` block with its label renamed. -/
def editLabel (block : List Char) : List Char :=
  match Mention.find? block with
  | none => block
  | some mention => mention.before ++ renameKeys mention.found

end ProviderMigration.Provider
