import ProviderMigration.Proofs.Provider.Attributes
import ProviderMigration.Proofs.Provider.Succession

/-!
# The successor of a legacy entry

A legacy provider is required under one of two names, from one of two sources. The edit of the
block exchanges the name, the source and the version, each where it is first found. The names are
parts of the sources as well, so which of them is found first depends on both. The entry is
migrated in full if the name and the source belong to the same provider. The name of the one
provider is otherwise found in the source of the other one: the preferred name is looked for
first, so the source is taken for the entry, or the other name is renamed within the source, which
is then no legacy source any more.
-/

namespace ProviderMigration.Provider

open Text Block

/-! ## Clear texts -/

theorem isClear_append_cons {c : Char} {front back : List Char}
    (foreign : ∀ name ∈ legacyNames, c ∉ name.toList) :
    IsClear (front ++ c :: back) ↔ IsClear front ∧ IsClear back := by
  constructor
  · intro clear
    constructor <;> intro name legacy within
    · exact clear name legacy ((within_append_cons_iff (foreign name legacy)).2 (.inl within))
    · exact clear name legacy ((within_append_cons_iff (foreign name legacy)).2 (.inr within))
  · rintro ⟨one, two⟩ name legacy within
    rcases (within_append_cons_iff (foreign name legacy)).1 within with here | there
    · exact one name legacy here
    · exact two name legacy there

/-- The words that an edit puts in cannot overlap a name. -/
theorem avoids_word {name word : String} (legacy : name ∈ legacyNames)
    (listed : word ∈ [currentName, "version", "#version"]) : Avoids name.toList word.toList := by
  have distinct : ∀ name ∈ legacyNames, ∀ word ∈ [currentName, "version", "#version"],
      cannotOverlap name.toList word.toList = true := by decide
  exact avoids_of_cannotOverlap (distinct name legacy word listed)

/-- Two names cannot overlap. -/
theorem avoids_other {name other : String} (legacy : name ∈ legacyNames)
    (legacy' : other ∈ legacyNames) (differ : other ≠ name) : Avoids name.toList other.toList := by
  have distinct : ∀ name ∈ legacyNames, ∀ other ∈ legacyNames, other ≠ name →
      cannotOverlap name.toList other.toList = true := by decide
  exact avoids_of_cannotOverlap (distinct name legacy other legacy' differ)

/-- A name is found first where it stands, behind a text that does not mention it. -/
theorem cutAt?_name {name : String} (legacy : name ∈ legacyNames) {before : List Char}
    (clear : IsClear before) (rest : List Char) :
    cutAt? name.toList (before ++ (name.toList ++ rest)) = some (before, name.toList ++ rest) := by
  have proper : ∀ name ∈ legacyNames, name.toList.tails.all (fun tail =>
      tail.isEmpty || tail == name.toList || Identifier.diverge tail name.toList) = true := by
    decide
  have apart : ∀ tail, tail <:+ name.toList → tail ≠ [] → tail ≠ name.toList →
      ¬ tail <+: name.toList ++ rest := by
    intro tail ends nonempty other
    have known := List.all_eq_true.1 (proper name legacy) tail ((List.mem_tails _ _).2 ends)
    exact Identifier.not_prefix_append_of_diverge (by simpa [nonempty, other] using known) rest
  rw [cutAt?_append_of_apart (clear name legacy) apart, cutAt?_of_prefix (List.prefix_append _ _)]
  simp

/-! ## An entry and its source -/

/-- Attributes with a source among them. -/
def sourced (front back source : List Char) : List Char :=
  front ++ "source = \"".toList ++ source ++ '"' :: back

/-- The attributes of the successor: the source is exchanged, and the version a comment. -/
def succeeded (front back : List Char) : List Char :=
  replaceFirst "version".toList "#version".toList (sourced front back currentSource.toList)

/-- A block with an entry that has attributes. -/
def entered (before after name body : List Char) : List Char :=
  before ++ name ++ " = \x7b".toList ++ body ++ '\x7d' :: after

/-- The texts around the name and the source of an entry mention no legacy provider. -/
structure IsClearAround (before after front back : List Char) : Prop where
  before : IsClear before
  after : IsClear after
  front : IsClear front
  back : IsClear back

section Edit

variable {before after front back body : List Char} {name : String}

/-- A name is found in attributes with a source if it is found in the source. -/
theorem within_sourced_iff (legacy : name ∈ legacyNames) (clear : IsClear front)
    (clear' : IsClear back) (source : List Char) :
    name.toList <:+: sourced front back source ↔ name.toList <:+: source := by
  have foreign : ∀ name ∈ legacyNames, 's' ∉ name.toList ∧ '"' ∉ name.toList := by decide
  have word : IsClear "ource = ".toList := Mention.find?_eq_none_iff.1 rfl
  have split : sourced front back source =
      front ++ 's' :: ("ource = ".toList ++ '"' :: (source ++ '"' :: back)) := by
    simp [sourced]
  rw [split, within_append_cons_iff (foreign name legacy).1,
    within_append_cons_iff (foreign name legacy).2, within_append_cons_iff (foreign name legacy).2]
  simp only [clear name legacy, clear' name legacy, word name legacy, false_or, or_false]

/-- A name that avoids the name of an entry is found in the block if it is found in its
attributes. -/
theorem within_entered_iff {other : String} (legacy : name ∈ legacyNames) (clear : IsClear before)
    (clear' : IsClear after) (avoids : Avoids name.toList other.toList) :
    name.toList <:+: entered before after other.toList body ↔ name.toList <:+: body := by
  have foreign : ∀ name ∈ legacyNames, '\x7b' ∉ name.toList ∧ '\x7d' ∉ name.toList := by decide
  have sign : IsClear " = ".toList := Mention.find?_eq_none_iff.1 rfl
  have split : entered before after other.toList body =
      before ++ (other.toList ++ (" = ".toList ++ '\x7b' :: (body ++ '\x7d' :: after))) := by
    simp [entered]
  rw [split, avoids.within_append_iff, within_append_cons_iff (foreign name legacy).1,
    within_append_cons_iff (foreign name legacy).2]
  simp only [clear name legacy, clear' name legacy, sign name legacy, false_or, or_false]

/-- The block that has the successor for its entry mentions no legacy provider. -/
theorem isClear_entered (clear : IsClearAround before after front back) :
    IsClear (entered before after currentName.toList (succeeded front back)) := by
  intro name legacy
  have source : ∀ name ∈ legacyNames, cutAt? name.toList currentSource.toList = none := by decide
  rw [within_entered_iff legacy clear.before clear.after (avoids_word legacy (by decide)),
    succeeded, within_replaceFirst_iff (avoids_word legacy (by decide))
      (avoids_word legacy (by decide)), within_sourced_iff legacy clear.front clear.back]
  exact cutAt?_eq_none_iff.1 (source name legacy)

/-! ## Exchanges in the source -/

/-- What stands between the name of an entry and its source. -/
def between (front : List Char) : List Char := " = \x7b".toList ++ front ++ "source = \"".toList

theorem sourced_eq (front back source : List Char) :
    " = \x7b".toList ++ sourced front back source = between front ++ (source ++ '"' :: back) := by
  simp [between, sourced]

theorem getLast?_between (front : List Char) : (between front).getLast? = some '"' := by
  have split : between front = " = \x7b".toList ++ front ++ "source = ".toList ++ ['"'] := by
    simp [between]
  rw [split, List.getLast?_concat]

theorem isClear_between (clear : IsClear front) : IsClear (between front) := by
  have split : between front = " = ".toList ++ '\x7b' :: (front ++ 's' :: "ource = \"".toList) := by
    simp [between]
  rw [split, isClear_append_cons (by decide), isClear_append_cons (by decide)]
  exact ⟨Mention.find?_eq_none_iff.1 rfl, clear, Mention.find?_eq_none_iff.1 rfl⟩

/-- A token that is in neither of the texts around a stretch between quotes is exchanged in the
stretch. -/
theorem replaceFirst_enclosed {token lead rest : List Char} (ends : lead.getLast? = some '"')
    (quote : '"' ∉ token) (absent : ¬ token <:+: lead) (absent' : ¬ token <:+: rest)
    (other stretch : List Char) :
    replaceFirst token other (lead ++ (stretch ++ '"' :: rest)) =
      lead ++ (replaceFirst token other stretch ++ '"' :: rest) := by
  rw [replaceFirst_append_of_absent ends quote absent]
  by_cases present : token <:+: stretch
  · rw [replaceFirst_append_of_within present]
  · have gone : ¬ token <:+: stretch ++ '"' :: rest := by
      rw [within_append_cons_iff quote]
      exact not_or.2 ⟨present, absent'⟩
    rw [replaceFirst_of_absent gone, replaceFirst_of_absent present]

theorem succeed_enclosed {tokens : List String} {new : String} (succession : IsSuccession tokens new)
    {lead rest : List Char} (ends : lead.getLast? = some '"')
    (absent : ∀ token ∈ tokens, ¬ token.toList <:+: lead ∧ ¬ token.toList <:+: rest)
    (stretch : List Char) :
    succeed tokens new (lead ++ (stretch ++ '"' :: rest)) =
      lead ++ (succeed tokens new stretch ++ '"' :: rest) := by
  induction tokens generalizing stretch with
  | nil => rfl
  | cons token tokens ih =>
      obtain ⟨quote, -, -⟩ := succession.closed token List.mem_cons_self
      obtain ⟨one, two⟩ := absent token List.mem_cons_self
      have later := ih succession.of_cons
        (fun token member => absent token (List.mem_cons_of_mem _ member))
        (replaceFirst token.toList new.toList stretch)
      change succeed tokens new (replaceFirst _ _ (lead ++ (stretch ++ '"' :: rest))) = _
      rw [replaceFirst_enclosed ends quote one two, later]
      rfl

theorem replaceFirst_self_append (token other rest : List Char) :
    replaceFirst token other (token ++ rest) = other ++ rest := by
  rw [replaceFirst, cutAt?_of_prefix (List.prefix_append token rest)]
  simp

/-- Behind the preferred name, the other name is renamed in the source. -/
theorem renameKeys_metal_append (clear : IsClear front) {rest : List Char} (cleared : IsClear rest)
    (source : List Char) :
    renameKeys ("metal".toList ++ (between front ++ (source ++ '"' :: rest))) =
      currentName.toList ++ (between front ++
        (replaceFirst "packet".toList currentName.toList source ++ '"' :: rest)) := by
  change replaceFirst "packet".toList _ (replaceFirst "metal".toList _ _) = _
  rw [replaceFirst_self_append, Letter.replaceFirst_packet_append,
    replaceFirst_enclosed (getLast?_between front) (by decide)
      (isClear_between clear "packet" (by decide)) (cleared "packet" (by decide))]

/-- Behind the other name, no name is renamed, unless the source mentions the preferred one. -/
theorem renameKeys_packet_append (clear : IsClear front) {rest : List Char} (cleared : IsClear rest)
    {source : List Char} (absent : ¬ "metal".toList <:+: source) :
    renameKeys ("packet".toList ++ (between front ++ (source ++ '"' :: rest))) =
      currentName.toList ++ (between front ++ (source ++ '"' :: rest)) := by
  have legacy : "metal" ∈ legacyNames := by decide
  have avoids : Avoids "metal".toList "packet".toList :=
    avoids_other legacy (by decide) (by decide)
  have gone : ¬ "metal".toList <:+:
      "packet".toList ++ (between front ++ (source ++ '"' :: rest)) := by
    rw [← List.nil_append ("packet".toList ++ _), avoids.within_append_iff,
      within_append_iff (getLast?_between front) (by decide), within_append_cons_iff (by decide)]
    have empty : ¬ "metal".toList <:+: [] := by decide
    simp only [empty, isClear_between clear "metal" legacy, absent, cleared "metal" legacy,
      or_self, not_false_iff]
  change replaceFirst "packet".toList _ (replaceFirst "metal".toList _ _) = _
  rw [replaceFirst_of_absent gone, replaceFirst_self_append]

/-- The attributes behind the renamed name are updated in the source, and by their version. -/
theorem updateAttributes_entry (clear : IsClear front) (clear' : IsClear back)
    (source : List Char) :
    updateAttributes (currentName.toList ++ (between front ++ (source ++ '"' :: back))) =
      currentName.toList ++ " = \x7b".toList ++
        replaceFirst "version".toList "#version".toList
          (sourced front back (succeed legacySources currentSource source)) := by
  have named : ∀ source ∈ legacySources, ∃ name ∈ legacyNames,
      occurs name.toList source.toList = true := by decide
  have lead : IsClear (currentName.toList ++ between front) := by
    intro name legacy
    rw [← List.nil_append (currentName.toList ++ _),
      (avoids_word legacy (by decide)).within_append_iff]
    have empty : ¬ name.toList <:+: [] := by
      revert name
      decide
    exact not_or.2 ⟨empty, isClear_between clear name legacy⟩
  have ends : (currentName.toList ++ between front).getLast? = some '"' := by
    rw [List.getLast?_append, getLast?_between, Option.some_or]
  have absent : ∀ source ∈ legacySources,
      ¬ source.toList <:+: currentName.toList ++ between front ∧ ¬ source.toList <:+: back := by
    intro source known
    obtain ⟨name, legacy, within⟩ := named source known
    have within := occurs_eq_true_iff.1 within
    exact ⟨fun inside => lead name legacy (within.trans inside),
      fun inside => clear' name legacy (within.trans inside)⟩
  have opening : (currentName.toList ++ " = \x7b".toList).getLast? = some '\x7b' := by decide
  have version : ¬ "version".toList <:+: currentName.toList ++ " = \x7b".toList :=
    cutAt?_eq_none_iff.1 (by decide)
  rw [updateAttributes_eq_succeed, ← List.append_assoc,
    succeed_enclosed isSuccession_legacySources ends absent, List.append_assoc, ← sourced_eq,
    ← List.append_assoc, replaceFirst_append_of_absent opening (by decide) version]

theorem entered_sourced (before after name front back source : List Char) :
    entered before after name (sourced front back source) =
      before ++ (name ++ (between front ++ (source ++ '"' :: (back ++ '\x7d' :: after)))) := by
  simp [entered, sourced, between]

/-- The preferred name is the mention, whatever the source. -/
theorem find?_entered_metal (clear : IsClear before) (source : List Char) :
    Mention.find? (entered before after "metal".toList (sourced front back source)) =
      some ⟨"metal", before, "metal".toList ++
        (between front ++ (source ++ '"' :: (back ++ '\x7d' :: after)))⟩ := by
  rw [entered_sourced, Mention.find?, legacyNames, List.findSome?_cons,
    cutAt?_name (by decide) clear]
  rfl

/-- The other name is the mention if the source does not mention the preferred one. -/
theorem find?_entered_packet (clear : IsClearAround before after front back) {source : List Char}
    (absent : ¬ "metal".toList <:+: source) :
    Mention.find? (entered before after "packet".toList (sourced front back source)) =
      some ⟨"packet", before, "packet".toList ++
        (between front ++ (source ++ '"' :: (back ++ '\x7d' :: after)))⟩ := by
  have legacy : "metal" ∈ legacyNames := by decide
  have gone : ¬ "metal".toList <:+:
      entered before after "packet".toList (sourced front back source) := by
    rwa [within_entered_iff legacy clear.before clear.after
      (avoids_other legacy (by decide) (by decide)),
      within_sourced_iff legacy clear.front clear.back]
  rw [Mention.find?, legacyNames, List.findSome?_cons, cutAt?_eq_none_iff.2 gone]
  dsimp only [Option.map_none]
  rw [List.findSome?_cons, entered_sourced, cutAt?_name (by decide) clear.before]
  rfl

/-- The preferred name is found in the source that mentions it, behind the other name. -/
theorem find?_entered_packet_metal (clear : IsClearAround before after front back) :
    ∃ found, Mention.find? (entered before after "packet".toList
        (sourced front back "equinix/metal".toList)) =
      some ⟨"metal", before ++ ("packet".toList ++ between front) ++ "equinix/".toList, found⟩ := by
  have legacy : "metal" ∈ legacyNames := by decide
  have ends : (before ++ ("packet".toList ++ between front)).getLast? = some '"' := by
    rw [List.getLast?_append, List.getLast?_append, getLast?_between, Option.some_or,
      Option.some_or]
  have avoids : Avoids "metal".toList "packet".toList :=
    avoids_other legacy (by decide) (by decide)
  have absent : ¬ "metal".toList <:+: before ++ ("packet".toList ++ between front) := by
    rw [avoids.within_append_iff]
    exact not_or.2 ⟨clear.before "metal" legacy, isClear_between clear.front "metal" legacy⟩
  have split : entered before after "packet".toList (sourced front back "equinix/metal".toList) =
      before ++ ("packet".toList ++ between front) ++
        ("equinix/".toList ++ ("metal".toList ++ '"' :: (back ++ '\x7d' :: after))) := by
    rw [entered_sourced]
    simp
  have owner : IsClear "equinix/".toList := Mention.find?_eq_none_iff.1 rfl
  rw [split, Mention.find?, legacyNames, List.findSome?_cons,
    cutAt?_append_of_absent ends (by decide) absent, cutAt?_name legacy owner]
  exact ⟨_, rfl⟩

/-- The outcome for a block whose mention is the name of the entry, when it is known what renaming
makes of the source. -/
theorem editRequirements_entered (legacy : name ∈ legacyNames)
    (clear : IsClearAround before after front back) {source renamed : List Char}
    (complete : IsBody (sourced front back source))
    (found : Mention.find? (entered before after name.toList (sourced front back source)) =
      some ⟨name, before, name.toList ++
        (between front ++ (source ++ '"' :: (back ++ '\x7d' :: after)))⟩)
    (renames : ∀ rest, IsClear rest →
      renameKeys (name.toList ++ (between front ++ (source ++ '"' :: rest))) =
        currentName.toList ++ (between front ++ (renamed ++ '"' :: rest))) :
    editRequirements (entered before after name.toList (sourced front back source)) =
      .ok (entered before after currentName.toList
        (replaceFirst "version".toList "#version".toList
          (sourced front back (succeed legacySources currentSource renamed)))) := by
  have inert : ∀ c ∈ name.toList ++ " = ".toList, IsInert c := by
    have known : ∀ name ∈ legacyNames,
        isMeaningless (name.toList ++ " = ".toList) = true := by decide
    exact isInert_of_isMeaningless (known name legacy)
  have closes := closing?_ofBraces_of_lead inert complete after
  have opening : name.toList ++ " = ".toList ++ '\x7b' :: sourced front back source =
      name.toList ++ (between front ++ (source ++ '"' :: back)) := by
    simp [between, sourced]
  have split : name.toList ++ (between front ++ (source ++ '"' :: (back ++ '\x7d' :: after))) =
      name.toList ++ (between front ++ (source ++ '"' :: back)) ++ '\x7d' :: after := by simp
  rw [← List.cons_append, ← List.append_assoc, opening, ← split] at closes
  obtain ⟨rest, whole, edited⟩ := editRequirements_of_closing found split closes
  have brace : ∀ name ∈ legacyNames, '\x7d' ∉ name.toList := by decide
  have behind : IsClear (back ++ '\x7d' :: after) :=
    (isClear_append_cons brace).2 ⟨clear.back, clear.after⟩
  dsimp only at whole
  rw [renames _ behind, renames _ clear.back] at whole
  obtain rfl : after = rest := by simpa using whole
  rw [edited, renames _ clear.back, updateAttributes_entry clear.front clear.back]
  simp [entered]

end Edit

/-- A legacy entry with its source is migrated in full, exactly if the name and the source belong
to one provider: the name and the source are exchanged, the version is commented out, and nothing
else is changed. -/
theorem editRequirements_migrates_iff {name source : String} (legacy : name ∈ legacyNames)
    (known : source ∈ legacySources) {before after front back : List Char}
    (clear : IsClearAround before after front back)
    (complete : IsBody (sourced front back source.toList)) :
    editRequirements (entered before after name.toList (sourced front back source.toList)) =
        .ok (entered before after currentName.toList (succeeded front back)) ↔
      (name, source) ∈ legacyNames.zip legacySources := by
  have expected := isClear_entered clear
  have metal : "metal" ∈ legacyNames := by decide
  have packet : "packet" ∈ legacyNames := by decide
  have names : name = "metal" ∨ name = "packet" := by simpa [legacyNames] using legacy
  have sources : source = "equinix/metal" ∨ source = "packethost/packet" := by
    simpa [legacySources] using known
  rcases names with rfl | rfl
  · have edited := editRequirements_entered metal clear complete
      (find?_entered_metal clear.before source.toList)
      fun rest clear' => renameKeys_metal_append clear.front clear' source.toList
    rcases sources with rfl | rfl
    · exact iff_of_true edited (by decide)
    · -- The other name is renamed within the source, in its first half only.
      refine iff_of_false (fun done => expected "packet" packet ?_) (by decide)
      rw [edited] at done
      rw [← Except.ok.inj done,
        within_entered_iff packet clear.before clear.after (avoids_word packet (by decide)),
        within_replaceFirst_iff (avoids_word packet (by decide)) (avoids_word packet (by decide)),
        within_sourced_iff packet clear.front clear.back, ← occurs_eq_true_iff]
      decide
  · rcases sources with rfl | rfl
    · -- The preferred name is found in the source, so the other one is left in front of it.
      refine iff_of_false (fun done => expected "packet" packet ?_) (by decide)
      obtain ⟨rest, found⟩ := find?_entered_packet_metal clear
      obtain ⟨inner, outer, split, closes⟩ := exists_of_editRequirements found done
      obtain ⟨outer', -, edited⟩ := editRequirements_of_closing found split closes
      rw [done] at edited
      rw [Except.ok.inj edited]
      exact ⟨before, between front ++ ("equinix/".toList ++
        (updateAttributes (renameKeys inner) ++ '\x7d' :: outer')), by
          simp only [List.append_assoc]⟩
    · have absent : ¬ "metal".toList <:+: "packethost/packet".toList :=
        cutAt?_eq_none_iff.1 (by decide)
      have edited := editRequirements_entered packet clear complete
        (find?_entered_packet clear absent)
        fun rest clear' => renameKeys_packet_append clear.front clear' absent
      exact iff_of_true edited (by decide)

/-- A block with a source and a version is well formed. -/
theorem isBody_of_source {source : String} (known : source ∈ legacySources) :
    IsBody (sourced [' '] " version = 5 ".toList source.toList) := by
  have plain : ∀ source ∈ legacySources,
      symbol '"' ∉ utf8 source.toList ∧ symbol '\\' ∉ utf8 source.toList := by decide
  obtain ⟨quote, backslash⟩ := plain source known
  have later : Items true (symbol '\x7d') (utf8 " version = 5 ".toList) :=
    isBody_of_isMeaningless (by decide)
  have front : ∀ b ∈ utf8 " source = ".toList, IsInert b := isInert_of_mem_utf8 (by decide)
  have items := items_append_of_isInert front
    (Items.region (.string (isQuoted_of_not_mem quote backslash)) later)
  have mark : utf8 ['"'] = [symbol '"'] := rfl
  have split : sourced [' '] " version = 5 ".toList source.toList =
      " source = ".toList ++ (['"'] ++ (source.toList ++ ['"']) ++ " version = 5 ".toList) := by
    simp [sourced]
  rw [IsBody, split, utf8_append, utf8_append, utf8_append, utf8_append, mark]
  exact items

/-- A block of one entry, with blanks around it. -/
def sampleBlock (name body : List Char) : List Char :=
  entered "required_providers \x7b ".toList " \x7d".toList name body

theorem isClearAround_sample : IsClearAround "required_providers \x7b ".toList " \x7d".toList [' ']
    " version = 5 ".toList :=
  ⟨Mention.find?_eq_none_iff.1 rfl, Mention.find?_eq_none_iff.1 rfl,
    Mention.find?_eq_none_iff.1 rfl, Mention.find?_eq_none_iff.1 rfl⟩

theorem editRequirements_migrates_of_sample :
    "packet" ∈ legacyNames ∧ "packethost/packet" ∈ legacySources ∧
      IsBody (sourced [' '] " version = 5 ".toList "packethost/packet".toList) ∧
      editRequirements (sampleBlock "packet".toList
          (sourced [' '] " version = 5 ".toList "packethost/packet".toList)) =
        .ok (sampleBlock currentName.toList (succeeded [' '] " version = 5 ".toList)) := by
  have legacy : "packet" ∈ legacyNames := by decide
  have known : "packethost/packet" ∈ legacySources := by decide
  have complete := isBody_of_source known
  exact ⟨legacy, known, complete,
    (editRequirements_migrates_iff legacy known isClearAround_sample complete).2 (by decide)⟩

/-- A name with the source of the other provider: one of the blocks is said to be malformed, and in
the other one the source is renamed in its first half. -/
theorem entry_not_migrated :
    (∀ source ∈ legacySources,
      IsBody (sourced [' '] " version = 5 ".toList source.toList)) ∧
      editRequirements (sampleBlock "packet".toList
          (sourced [' '] " version = 5 ".toList "equinix/metal".toList)) =
        .error ⟨"metal", .opening⟩ ∧
      editRequirements (sampleBlock "metal".toList
          (sourced [' '] " version = 5 ".toList "packethost/packet".toList)) =
        .ok (sampleBlock currentName.toList
          (sourced [' '] " #version = 5 ".toList "equinixhost/packet".toList)) :=
  ⟨fun _ known => isBody_of_source known, rfl, rfl⟩

end ProviderMigration.Provider
