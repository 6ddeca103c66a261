import ProviderMigration.Identifier.Chain
import ProviderMigration.Proofs.Identifier.Mirror
import ProviderMigration.Proofs.Identifier.Slot

/-!
# Configurations in a single pass

The eight rules for configurations are one pass, whose filling says in which
context a name is renamed and what becomes of the blanks in front of it. The same
holds for the patterns that the rules stand for. As the pass covers each of the
rules, nothing is left for a second one.
-/

namespace ProviderMigration.Identifier

open Text

/-- A rule together with the pattern that it stands for and the shape that it
has. -/
structure Station where
  rule : Rule
  pattern : Pattern
  free : Bool
  slot : Slot

namespace Station

open Pattern

/-- Whether the three describe the same occurrences. -/
structure Faithful (station : Station) : Prop where
  mirrors : station.pattern.Mirrors station.free station.rule
  proper : station.slot.Proper
  describes : station.slot.Describes station.rule
  reach : station.rule.reach = .every

def legacy : Item := .oneOf ["metal", "packet"]

def blockHeader : Station where
  rule := Identifier.blockHeader
  pattern :=
    { groups := [[.oneOf ["resource", "data"]], [blanks 1, .oneOf ["\""]], [legacy], [anything]]
      replacement := [.group 1, .text " \"equinix_metal", .group 4] }
  free := false
  slot := { leads := ["resource", "data"], gap? := some (1, .replace " "), quoted := true }

def interpolation : Station where
  rule := Identifier.interpolation
  pattern :=
    { groups := [[anything], [.oneOf ["$\x7b"], blanks 0], [legacy], [.oneOf ["_"], anything]]
      replacement := [.group 1, .text "$\x7bequinix_metal", .group 4] }
  free := true
  slot := { leads := ["$\x7b"], gap? := some (0, .replace ""), quoted := false }

def reference : Station where
  rule := Identifier.reference
  pattern :=
    { groups := [[anything], [.oneOf ["="], blanks 0], [legacy], [.oneOf ["_"], anything]]
      replacement := [.group 1, .text "= equinix_metal", .group 4] }
  free := true
  slot := { leads := ["="], gap? := some (0, .replace " "), quoted := false }

def functionArgument : Station where
  rule := Identifier.functionArgument
  pattern :=
    { groups := [[anything], [.oneOf ["("], blanks 0], [legacy], [.oneOf ["_"], anything]]
      replacement := [.group 1, .text "(equinix_metal", .group 4] }
  free := true
  slot := { leads := ["("], gap? := some (0, .replace ""), quoted := false }

def conditional : Station where
  rule := Identifier.conditional
  pattern :=
    { groups := [[anything, .oneOf [":", "|", "?"]], [blanks 0], [legacy],
        [.oneOf ["_"], anything]]
      replacement := [.group 1, .text " equinix_metal", .group 4] }
  free := true
  slot := { leads := [":", "|", "?"], gap? := some (0, .replace " "), quoted := false }

def forLoop : Station where
  rule := Identifier.forLoop
  pattern :=
    { groups := [[anything], [.oneOf ["in"], blanks 0], [legacy], [.oneOf ["_"], anything]]
      replacement := [.group 1, .text "in equinix_metal", .group 4] }
  free := true
  slot := { leads := ["in"], gap? := some (0, .replace " "), quoted := false }

def expression : Station where
  rule := Identifier.expression
  pattern :=
    { groups := [[anything, .oneOf ["+", "-", "*", "/", ">", "<", "&", "|", "%", "!", "["],
        blanks 0], [legacy], [.oneOf ["_"], anything]]
      replacement := [.group 1, .text "equinix_metal", .group 3] }
  free := true
  slot :=
    { leads := ["+", "-", "*", "/", ">", "<", "&", "|", "%", "!", "["], gap? := some (0, .keep)
      quoted := false }

def datasource : Station where
  rule := Identifier.datasource
  pattern :=
    { groups := [[anything, .oneOf ["data"]], [.oneOf ["."]], [legacy], [.oneOf ["_"], anything]]
      replacement := [.group 1, .text ".equinix_metal", .group 4] }
  free := true
  slot := { leads := ["data."], gap? := none, quoted := false }

/-- The rules for configurations, in the order in which they are applied. -/
def template : List Station :=
  [blockHeader, interpolation, reference, functionArgument, conditional, forLoop, expression,
    datasource]

theorem rules_template : template.map (·.rule) = Dialect.template.rules := rfl

theorem steady {station : Station} (member : station ∈ template) : Steady station.rule.pieces := by
  revert station
  decide

theorem inked {station : Station} (member : station ∈ template) :
    isInked station.rule.pieces = true := by
  revert station
  decide

theorem items {station : Station} (member : station ∈ template) :
    station.pattern.groups.flatten =
      (if station.free then [anything] else []) ++
        (station.rule.pieces.map Item.of ++ [anything]) := by
  simp only [template, List.mem_cons, List.not_mem_nil, or_false] at member
  rcases member with rfl | rfl | rfl | rfl | rfl | rfl | rfl | rfl <;> rfl

@[simp] theorem spells_singleton (literal : String) (edit : Edit) (text : List Char) :
    Spells (.oneOf [literal] edit) text ↔ text = literal.toList := by
  simp [Spells]

@[simp] theorem spells_blanks (least : Nat) (edit : Edit) (text : List Char) :
    Spells (.blanks least edit) text := trivial

theorem expand {station : Station} (member : station ∈ template) (passed : List Char)
    {texts : List (List Char)} (spells : List.Forall₂ Spells station.rule.pieces texts) :
    station.pattern.expand ((if station.free then [passed] else []) ++ (texts ++ [[]])) =
      (if station.free then passed else []) ++ edited station.rule.pieces texts := by
  simp only [template, List.mem_cons, List.not_mem_nil, or_false] at member
  rcases member with rfl | rfl | rfl | rfl | rfl | rfl | rfl | rfl
  all_goals
    rcases spells with _ | ⟨first, _ | ⟨second, _ | ⟨third, _ | ⟨fourth, _ | _⟩⟩⟩⟩
    simp only [spells_singleton, spells_blanks, legacyWord, underscore] at first second third fourth
    simp [blockHeader, interpolation, reference, functionArgument, conditional, forLoop,
      expression, datasource, Identifier.blockHeader, Identifier.interpolation,
      Identifier.reference, Identifier.functionArgument, Identifier.conditional,
      Identifier.forLoop, Identifier.expression, Identifier.datasource, Pattern.expand,
      groupTexts, edited, Edit.apply, legacy, legacyWord, underscore, Piece.edit, *]

theorem proper {station : Station} (member : station ∈ template) : station.slot.Proper where
  lead := by
    revert station
    decide
  separate := by
    revert station
    decide
  blank least text given := by
    have known : ∀ station ∈ template, ∀ bound ∈ station.slot.gap?,
        bound.2 = .keep ∨ bound.2 = .replace " " ∨ bound.2 = .replace "" := by decide
    rcases known station member (least, .replace text) given with same | same | same
    · contradiction
    · obtain rfl := Edit.replace.inj same
      intro c member
      obtain rfl : c = ' ' := List.mem_singleton.1 member
      decide
    · obtain rfl := Edit.replace.inj same
      intro c member
      exact absurd member List.not_mem_nil

/-- Two literals in a row are read as one. -/
theorem find?_literal_literal (one other : String) (pieces : List Piece) (text : List Char) :
    Match.find? text (.oneOf [one] .keep :: .oneOf [other] .keep :: pieces) =
      Match.find? text (.oneOf [one ++ other] .keep :: pieces) := by
  ext found
  simp only [Match.find?_literal, Edit.apply]
  constructor
  · rintro ⟨_, _, rfl, ⟨rest, following, rfl, read, rfl⟩, rfl⟩
    exact ⟨rest, following, by simp, read, by simp [Nat.add_assoc]⟩
  · rintro ⟨rest, following, rfl, read, rfl⟩
    exact ⟨other.toList ++ rest, _, by simp, ⟨rest, following, rfl, read, rfl⟩,
      by simp [Nat.add_assoc]⟩

theorem describes {station : Station} (member : station ∈ template) :
    station.slot.Describes station.rule := by
  intro text
  simp only [template, List.mem_cons, List.not_mem_nil, or_false] at member
  rcases member with rfl | rfl | rfl | rfl | rfl | rfl | rfl | rfl
  case inr.inr.inr.inr.inr.inr.inr => exact find?_literal_literal "data" "." _ text
  all_goals rfl

theorem faithful {station : Station} (member : station ∈ template) : station.Faithful where
  mirrors :=
    { steady := steady member
      inked := inked member
      items := items member
      expand := by
        intro passed texts bound spells
        rw [expand member passed spells]
        split
        next => rfl
        next captive => rw [bound (Bool.not_eq_true _ ▸ captive)] }
  proper := proper member
  describes := describes member
  reach := by
    revert station
    decide

theorem Faithful.apply_eq_pass {station : Station} (faithful : station.Faithful)
    (text : List Char) : station.rule.apply text = station.slot.filling.pass [] text := by
  rw [Rule.apply, faithful.reach]
  exact faithful.proper.editEvery_eq_pass faithful.describes text

theorem Faithful.replaceAll_eq_pass {station : Station} (faithful : station.Faithful)
    (text : List Char) : station.pattern.replaceAll text = station.slot.filling.pass [] text := by
  rw [faithful.mirrors.replaceAll_eq_editEvery]
  exact faithful.proper.editEvery_eq_pass faithful.describes text

theorem Faithful.exists_reads_of_occurs {station : Station} (faithful : station.Faithful)
    {text : List Char} (occurs : station.pattern.Occurs text) :
    ∃ stretch, station.slot.Reads stretch ∧ stretch <:+: text := by
  obtain ⟨before, after, rfl, matched⟩ := faithful.mirrors.exists_of_occurs occurs
  obtain ⟨found, here⟩ := Option.ne_none_iff_exists'.1 matched
  obtain ⟨stretch, reads, start⟩ := faithful.proper.reads_of_match? faithful.describes here
  exact ⟨stretch, reads, start.isInfix.trans (List.suffix_append before after).isInfix⟩

end Station

/-! ## One pass for eight rules -/

/-- In which context a name in a configuration is renamed, and what becomes of
the blanks between the context and the name. -/
def templateFilling : Filling := fun passed gap quoted =>
  if quoted then
    if endsWith ["resource", "data"] passed && gap ≠ [] then some [' '] else none
  else if endsWith ["$\x7b", "("] passed then some []
  else if endsWith ["=", ":", "|", "?", "in"] passed then some [' ']
  else if endsWith ["+", "-", "*", "/", ">", "<", "&", "%", "!", "["] passed then some gap
  else if endsWith ["data."] passed && gap = [] then some []
  else none

/-- The patterns for configurations, in the order in which they are replaced. -/
def templatePatterns : List Pattern := Station.template.map (·.pattern)

/-- No text ends with two characters. -/
theorem not_endsWith_of_endsWith {passed : List Char} (equals : endsWith ["="] passed = true) :
    endsWith ["("] passed = false := by
  cases passed with
  | nil => contradiction
  | cons c passed =>
      have last : c = '=' := by
        simp [endsWith] at equals
        exact equals.symm
      rw [last]
      rfl

theorem firstOf_template :
    Filling.firstOf (Station.template.map (·.slot.filling)) = templateFilling := by
  funext passed gap quoted
  have paren := endsWith_append ["$\x7b"] ["("] passed
  have spaced := endsWith_append ["="] ([":", "|", "?"] ++ ["in"]) passed
  have separated := endsWith_append [":", "|", "?"] ["in"] passed
  have operators : endsWith ["+", "-", "*", "/", ">", "<", "&", "|", "%", "!", "["] passed =
      (endsWith ["|"] passed ||
        endsWith ["+", "-", "*", "/", ">", "<", "&", "%", "!", "["] passed) := by
    simp only [endsWith, List.any_cons, List.any_nil]
    ac_rfl
  have bar : endsWith ["|"] passed = true → endsWith [":", "|", "?"] passed = true := by
    simp only [endsWith, List.any_cons, List.any_nil, Bool.or_eq_true]
    tauto
  have excluded := @not_endsWith_of_endsWith passed
  simp only [List.cons_append, List.nil_append] at paren spaced separated
  simp only [templateFilling, paren, spaced, separated]
  simp only [Station.template, List.map_cons, List.map_nil, Filling.firstOf, List.foldr_cons,
    List.foldr_nil, Filling.orElse, Filling.idle, Slot.filling, Slot.gapFor,
    Station.blockHeader, Station.interpolation, Station.reference, Station.functionArgument,
    Station.conditional, Station.forLoop, Station.expression, Station.datasource, operators]
  cases quoted with
  | true =>
      cases gap <;> simp [Edit.apply]
  | false =>
      simp only [Edit.apply]
      by_cases opening : endsWith ["$\x7b"] passed = true
      · simp [opening]
      by_cases equals : endsWith ["="] passed = true
      · simp [opening, equals, excluded equals]
      by_cases call : endsWith ["("] passed = true
      · simp [opening, equals, call]
      by_cases choice : endsWith [":", "|", "?"] passed = true
      · simp [opening, equals, call, choice]
      have noBar : ¬ endsWith ["|"] passed = true := fun here => choice (bar here)
      by_cases within : endsWith ["in"] passed = true
      · simp [opening, equals, call, choice, within]
      by_cases operator : endsWith ["+", "-", "*", "/", ">", "<", "&", "%", "!", "["] passed = true
      · simp [opening, equals, call, choice, within, operator]
      by_cases empty : gap = [] <;>
        simp [opening, equals, call, choice, noBar, within, operator, empty]

theorem lawful_of_mem_template :
    ∀ filling ∈ Station.template.map (·.slot.filling), filling.Lawful := by
  intro filling member
  obtain ⟨station, listed, rfl⟩ := List.mem_map.1 member
  exact (Station.faithful listed).proper.lawful

theorem lawful_template : templateFilling.Lawful := by
  rw [← firstOf_template]
  exact Filling.Lawful.firstOf lawful_of_mem_template

/-- The pass of a chain of stations, whatever each of them does to a text. -/
theorem foldl_template (apply : Station → List Char → List Char)
    (agrees : ∀ station ∈ Station.template, ∀ text,
      apply station text = station.slot.filling.pass [] text) (text : List Char) :
    Station.template.foldl (fun text station => apply station text) text =
      templateFilling.pass [] text := by
  calc
    Station.template.foldl (fun text station => apply station text) text =
        Station.template.foldl (fun text station => station.slot.filling.pass [] text) text :=
      List.foldl_ext _ _ text fun text station member => agrees station member text
    _ = (Station.template.map (·.slot.filling)).foldl
          (fun text filling => filling.pass [] text) text := by rw [List.foldl_map]
    _ = templateFilling.pass [] text := by
      rw [Filling.foldl_pass lawful_of_mem_template, firstOf_template]

theorem renameLine_template (text : List Char) :
    Dialect.template.renameLine text = templateFilling.pass [] text := by
  rw [Dialect.renameLine, ← Station.rules_template, List.foldl_map]
  exact foldl_template (·.rule.apply) (fun station member text =>
    (Station.faithful member).apply_eq_pass text) text

theorem templateFilling_cases {passed gap new : List Char} {quoted : Bool}
    (filled : templateFilling passed gap quoted = some new) :
    new = [] ∨ new = [' '] ∨ new = gap := by
  simp only [templateFilling] at filled
  split_ifs at filled <;> simp_all

/-- The characters that a renamed line may have. -/
theorem mem_of_mem_pass {passed text : List Char} {c : Char}
    (member : c ∈ templateFilling.pass passed text) : c ∈ text ∨ c = ' ' ∨ c ∈ currentWord := by
  induction passed, text using templateFilling.induction with
  | nil passed =>
      rw [Filling.pass_nil] at member
      contradiction
  | site passed site gap after here ih =>
      have filled := (Filling.at?_eq_some_iff.1 here).2
      rw [Filling.pass_site here] at member
      simp only [List.mem_append, Site.stretch] at member ⊢
      rcases member with (blank | quote | word) | later
      · rcases templateFilling_cases filled with rfl | rfl | rfl
        · contradiction
        · exact .inr (.inl (List.mem_singleton.1 blank))
        · exact .inl (.inl (.inl blank))
      · tauto
      · tauto
      · have known := ih later
        tauto
  | cons passed d rest still ih =>
      rw [Filling.pass_cons still] at member
      cases member with
      | head => exact .inl List.mem_cons_self
      | tail _ later =>
          rcases ih later with read | written
          · exact .inl (List.mem_cons_of_mem _ read)
          · exact .inr written

theorem mem_of_mem_renameLine {text : List Char} {c : Char}
    (member : c ∈ Dialect.template.renameLine text) : c ∈ text ∨ c = ' ' ∨ c ∈ currentWord := by
  rw [renameLine_template] at member
  exact mem_of_mem_pass member

/-- The rules for configurations, and the patterns that they stand for, rename in
a single pass. -/
theorem template_eq_pass (text : List Char) :
    Dialect.template.renameLine text = templateFilling.pass [] text ∧
      templatePatterns.foldl (fun text pattern => pattern.replaceAll text) text =
        templateFilling.pass [] text := by
  constructor
  · exact renameLine_template text
  · rw [templatePatterns, List.foldl_map]
    exact foldl_template (·.pattern.replaceAll) (fun station member text =>
      (Station.faithful member).replaceAll_eq_pass text) text

example : Dialect.template.renameLine "a =  metal_x.id + data.packet_y.id".toList =
    "a = equinix_metal_x.id + data.equinix_metal_y.id".toList := by decide

/-! ## What is left to rename -/

/-- A text that a rule for configurations reads. -/
def Stale (stretch : List Char) : Prop :=
  ∃ station ∈ Station.template, station.slot.Reads stretch

theorem renameLine_template_idempotent (text : List Char) :
    Dialect.template.renameLine (Dialect.template.renameLine text) =
      Dialect.template.renameLine text := by
  rw [renameLine_template, renameLine_template]
  exact lawful_template.pass_idempotent text

theorem Stale.not_within_renameLine {stretch : List Char} (stale : Stale stretch)
    (text : List Char) : ¬ stretch <:+: Dialect.template.renameLine text := by
  intro within
  obtain ⟨station, member, reads⟩ := stale
  obtain ⟨before, after, split, renamed⟩ := reads.exists_at? within
  have again := renameLine_template_idempotent text
  rw [renameLine_template, split] at again
  have still := lawful_template.at?_of_pass_append_eq_self again
  rw [← firstOf_template, List.append_nil] at still
  have covers := Filling.covers_firstOf (List.mem_map_of_mem (f := (·.slot.filling)) member)
  exact renamed (covers.at?_eq_none still)

/-- A line is renamed only if some rule can read a part of it. -/
theorem renameLine_template_eq_self {text : List Char}
    (fresh : ∀ stretch, Stale stretch → ¬ stretch <:+: text) :
    Dialect.template.renameLine text = text := by
  rw [renameLine_template]
  apply Filling.pass_eq_self
  intro before after split
  rw [Filling.at?_eq_none_iff]
  intro site found
  rw [Option.eq_none_iff_forall_ne_some]
  intro gap filled
  rw [← firstOf_template, List.append_nil] at filled
  obtain ⟨filling, listed, filled⟩ := Filling.exists_of_firstOf filled
  obtain ⟨station, member, rfl⟩ := List.mem_map.1 listed
  obtain ⟨stretch, reads, within⟩ :=
    Slot.exists_reads_of_at? (Filling.at?_eq_some_iff.2 ⟨found, filled⟩)
  rw [← split] at within
  exact fresh stretch ⟨station, member, reads⟩ within

/-- No pattern can be read in a renamed line, which a second renaming leaves as it
is. -/
theorem not_occurs_renameLine_template (text : List Char) :
    (∀ pattern ∈ templatePatterns, ¬ pattern.Occurs (Dialect.template.renameLine text)) ∧
      Dialect.template.renameLine (Dialect.template.renameLine text) =
        Dialect.template.renameLine text := by
  constructor
  · intro pattern member occurs
    obtain ⟨station, listed, rfl⟩ := List.mem_map.1 member
    obtain ⟨stretch, reads, within⟩ := (Station.faithful listed).exists_reads_of_occurs occurs
    exact Stale.not_within_renameLine ⟨station, listed, reads⟩ text within
  · exact renameLine_template_idempotent text

end ProviderMigration.Identifier
