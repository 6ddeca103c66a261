import ProviderMigration.Identifier.Rule

/-!
# Chains of renaming rules

The types of a legacy provider start with `metal_` or `packet_`, and those of
its successor with `equinix_metal_`. What surrounds a type name depends on the
kind of file. In a configuration a name follows an operator, a bracket, or a
keyword; in a state file it is the content of a quoted string. Each kind of file
has its own chain of rules, and the output of a rule is the input of the next.
-/

namespace ProviderMigration.Identifier

open Text

/-- The two kinds of file. -/
inductive Dialect where
  /-- Configuration. -/
  | template
  /-- State, and every file that is not a configuration. -/
  | state
  deriving DecidableEq, Repr

/-- The dialect of a file with the given extension. Dots in front of the
extension do not matter. -/
def Dialect.ofExtension (extension : String) : Dialect :=
  if extension.toList.dropWhile (· = '.') = "tf".toList then .template else .state

/-- The first word of a legacy type name becomes the first words of a current
one. -/
def legacyWord : Piece := .oneOf ["metal", "packet"] (.replace "equinix_metal")

def underscore : Piece := .oneOf ["_"] .keep

/-- Matches in lines such as `resource "metal_vlan" "test" {`. -/
def blockHeader : Rule where
  name := "block_header"
  reach := .every
  pieces := [.oneOf ["resource", "data"] .keep, .blanks 1 (.replace " "),
    .oneOf ["\""] .keep, legacyWord]

/-- Matches in lines such as `id = "${ metal_vlan.test.id }"`. -/
def interpolation : Rule where
  name := "interpolation"
  reach := .every
  pieces := [.oneOf ["$\x7b"] .keep, .blanks 0 (.replace ""), legacyWord, underscore]

/-- Matches in lines such as `id = metal_vlan.test.id`. -/
def reference : Rule where
  name := "reference"
  reach := .every
  pieces := [.oneOf ["="] .keep, .blanks 0 (.replace " "), legacyWord, underscore]

/-- Matches in lines such as `host = cidrhost(metal_reserved_ip_block.test.cidr_notation, 0)`. -/
def functionArgument : Rule where
  name := "function_argument"
  reach := .every
  pieces := [.oneOf ["("] .keep, .blanks 0 (.replace ""), legacyWord, underscore]

/-- Matches in lines such as `ip = var.public ? metal_device.a.public : metal_device.a.private`. -/
def conditional : Rule where
  name := "conditional"
  reach := .every
  pieces := [.oneOf [":", "|", "?"] .keep, .blanks 0 (.replace " "), legacyWord, underscore]

/-- Matches in lines such as `[for network in metal_device.test.network : network.family]`. -/
def forLoop : Rule where
  name := "for_loop"
  reach := .every
  pieces := [.oneOf ["in"] .keep, .blanks 0 (.replace " "), legacyWord, underscore]

/-- Matches in lines such as `total = var.base + metal_connection.a.speed`. -/
def expression : Rule where
  name := "expression"
  reach := .every
  pieces := [.oneOf ["+", "-", "*", "/", ">", "<", "&", "|", "%", "!", "["] .keep,
    .blanks 0 .keep, legacyWord, underscore]

/-- Matches in lines such as `id = data.packet_project.test.id`. -/
def datasource : Rule where
  name := "datasource"
  reach := .every
  pieces := [.oneOf ["data"] .keep, .oneOf ["."] .keep, legacyWord, underscore]

/-- Matches in lines such as `"provider": "provider[\"registry.terraform.io/equinix/metal\"]"`. -/
def stateProvider : Rule where
  name := "state_provider"
  reach := .every
  pieces := [.oneOf ["equinix/metal", "packethost/packet"] (.replace "equinix/equinix"),
    .oneOf ["\\\""] .keep]

/-- Matches in lines such as `"type": "metal_device"`. -/
def statePrefix : Rule where
  name := "state_prefix"
  reach := .lastOfRow
  pieces := [.oneOf ["\""] .keep, legacyWord, underscore]

namespace Dialect

/-- The rules of a dialect, in the order in which they are applied. -/
def rules : Dialect → List Rule
  | .template =>
      [blockHeader, interpolation, reference, functionArgument, conditional, forLoop,
        expression, datasource]
  | .state => [stateProvider, datasource, statePrefix]

/-- The names of the rules of a dialect, in the same order. -/
def ruleNames (dialect : Dialect) : List String :=
  dialect.rules.map Rule.name

/-- The name of a rule tells it apart from the others of its dialect. -/
theorem nodup_ruleNames (dialect : Dialect) : dialect.ruleNames.Nodup := by
  cases dialect <;> decide

/-- A line with its legacy names replaced. -/
def renameLine (dialect : Dialect) (line : List Char) : List Char :=
  dialect.rules.foldl (fun line rule => rule.apply line) line

/-- A text with the legacy names of each line replaced, and with every line
ended by a single newline. -/
def renameText (dialect : Dialect) (text : List Char) : List Char :=
  unlines ((lines text).map dialect.renameLine)

end Dialect

end ProviderMigration.Identifier
