import ProviderMigration.Migration.Content
import ProviderMigration.Proofs.Identifier.Template
import ProviderMigration.Proofs.Provider.Exchange

/-!
# Migrating once more

A migration renames the names on the lines of a configuration and then edits its
provider declarations. The edits write no text that a renaming rule could read, so
the lines are left alone when the outcome is migrated once more. The declarations
are left alone only if no announced block has a legacy name left, for an edit
renames the first mention of each and no other, and does so wherever in the block
it stands.
-/

namespace ProviderMigration.Migration

open Text Block Identifier Provider Relation

/-! ## The characters of a stale text -/

/-- Whether a character has no place in a stale text. -/
def isForeign (c : Char) : Bool :=
  !isBlank c && c != '"' && c != '_' && legacyWords.all (!·.contains c) &&
    Station.template.all fun station => station.slot.leads.all (!·.toList.contains c)

theorem not_mem_of_isForeign {c : Char} (foreign : isForeign c = true) {stretch : List Char}
    (stale : Stale stretch) : c ∉ stretch := by
  obtain ⟨station, member, lead, listed, site, gap, valid, -, -, rfl⟩ := stale
  simp only [isForeign, Bool.and_eq_true, Bool.not_eq_true', List.all_eq_true] at foreign
  obtain ⟨⟨⟨⟨ink, quote⟩, underscore⟩, words⟩, leads⟩ := foreign
  have noLead : c ∉ lead.toList := by simpa using leads station member lead listed
  have noWord : c ∉ site.word := by simpa using words site.word valid.legacy
  have noGap : c ∉ site.gap := by
    intro blank
    rw [valid.blank c blank] at ink
    contradiction
  rw [bne_iff_ne] at quote underscore
  simp only [Site.mark, Site.quote, List.mem_append, not_or]
  refine ⟨noLead, noGap, ⟨?_, noWord⟩, ?_⟩
  · split <;> simp [quote]
  · split <;> simp [underscore]

/-- What a stale text may end with. -/
def names : List (List Char) :=
  legacyWords ++ legacyWords.map (· ++ ['_'])

theorem exists_name_of_stale {stretch : List Char} (stale : Stale stretch) :
    ∃ front name, stretch = front ++ name ∧ name ∈ names := by
  obtain ⟨station, member, lead, listed, site, gap, valid, -, -, rfl⟩ := stale
  have listed : ∀ quoted : Bool, ∀ word ∈ legacyWords,
      (word ++ if quoted then [] else ['_']) ∈ names := by decide
  refine ⟨lead.toList ++ site.gap ++ site.quote, site.word ++ if site.quoted then [] else ['_'],
    ?_, listed site.quoted site.word valid.legacy⟩
  simp [Site.mark]

theorem mem_of_stale {stretch : List Char} (stale : Stale stretch) : 't' ∈ stretch := by
  obtain ⟨front, name, rfl, named⟩ := exists_name_of_stale stale
  have inside : ∀ name ∈ names, 't' ∈ name := by decide
  exact List.mem_append_right _ (inside name named)

theorem getLast?_of_stale {stretch : List Char} (stale : Stale stretch) :
    ∃ c, stretch.getLast? = some c ∧ c ≠ 'e' := by
  obtain ⟨front, name, rfl, named⟩ := exists_name_of_stale stale
  have last : ∀ name ∈ names, name.getLast?.any (· != 'e') = true := by decide
  obtain ⟨c, ends, other⟩ := (Option.any_eq_true _ _).1 (last name named)
  refine ⟨c, ?_, bne_iff_ne.1 other⟩
  rw [List.getLast?_append, ends, Option.some_or]

/-- No stale text shares a character with the current name of the provider. -/
theorem within_of_within_currentName {stretch front back : List Char} (stale : Stale stretch)
    (within : stretch <:+: front ++ (currentName.toList ++ back)) :
    stretch <:+: front ∨ stretch <:+: back := by
  have noQ : 'q' ∉ stretch := not_mem_of_isForeign (by decide) stale
  have noX : 'x' ∉ stretch := not_mem_of_isForeign (by decide) stale
  have spelled : front ++ (currentName.toList ++ back) =
      (front ++ ['e']) ++ 'q' :: (['u', 'i', 'n', 'i'] ++ 'x' :: back) := by
    simp [currentName]
  rw [spelled, within_append_cons_iff noQ, within_append_cons_iff noX] at within
  rcases within with start | inner | rest
  · rw [List.infix_concat_iff, List.suffix_concat_iff] at start
    obtain ⟨c, last, other⟩ := getLast?_of_stale stale
    rcases start with (rfl | ⟨front', rfl, -⟩) | start
    · contradiction
    · rw [List.getLast?_concat] at last
      exact absurd (Option.some.inj last).symm other
    · exact .inl start
  · exact absurd (inner.subset (mem_of_stale stale)) (by decide)
  · exact .inr rest

/-- What an exchange writes holds no stale text that was not there before. -/
theorem within_of_exchange {stretch text other : List Char} (stale : Stale stretch)
    (exchange : Exchange text other) (within : stretch <:+: other) : stretch <:+: text := by
  cases exchange with
  | @mk token new listed before after =>
      have kinds : ∀ pair ∈ exchanges, pair.2 = currentName.toList ∨
          pair.2 = currentName.toList ++ '/' :: currentName.toList ∨ pair.2 = '#' :: pair.1 := by
        decide
      have sides : stretch <:+: before ∨ stretch <:+: token ++ after →
          stretch <:+: before ++ token ++ after := by
        rw [List.append_assoc]
        rintro (front | back)
        · exact front.trans (List.prefix_append _ _).isInfix
        · exact back.trans (List.suffix_append _ _).isInfix
      apply sides
      rcases kinds (token, new) listed with same | same | same
      · obtain rfl : new = _ := same
        rw [List.append_assoc] at within
        rcases within_of_within_currentName stale within with front | back
        · exact .inl front
        · exact .inr (back.trans (List.suffix_append _ _).isInfix)
      · obtain rfl : new = _ := same
        have spelled : before ++ (currentName.toList ++ '/' :: currentName.toList) ++ after =
            (before ++ (currentName.toList ++ ['/'])) ++ (currentName.toList ++ after) := by simp
        rw [spelled] at within
        rcases within_of_within_currentName stale within with front | back
        · rcases within_of_within_currentName stale front with front | slash
          · exact .inl front
          · exact absurd (slash.subset (mem_of_stale stale)) (by decide)
        · exact .inr (back.trans (List.suffix_append _ _).isInfix)
      · obtain rfl : new = '#' :: token := same
        have noHash : '#' ∉ stretch := not_mem_of_isForeign (by decide) stale
        rwa [List.append_assoc, List.cons_append, within_append_cons_iff noHash] at within

/-! ## Tidy documents -/

/-- A document whose lines have normal ends and hold nothing that a rule for
configurations reads. -/
structure Tidy (document : List Char) : Prop where
  returns : '\r' ∉ document
  ended : ∀ c ∈ document.getLast?, c = '\n'
  fresh : ∀ stretch, Stale stretch → '\n' ∉ stretch → ¬ stretch <:+: document

theorem Tidy.renameText_eq {document : List Char} (tidy : Tidy document) :
    Dialect.template.renameText document = document := by
  have each : ∀ line ∈ lines document, Dialect.template.renameLine line = line := by
    intro line member
    obtain ⟨part, newline⟩ := within_of_mem_lines member
    apply renameLine_template_eq_self
    intro stretch stale within
    have inside : '\n' ∉ stretch := fun member => newline (within.subset member)
    exact tidy.fresh stretch stale inside (within.trans part)
  rw [Dialect.renameText, List.map_congr_left each, List.map_id']
  exact normalizeEnds_eq_self tidy.returns tidy.ended

theorem tidy_renameText {content : List Char} (returns : '\r' ∉ content) :
    Tidy (Dialect.template.renameText content) where
  returns := by
    intro member
    obtain ⟨row, listed, member⟩ := List.mem_flatMap.1 member
    obtain ⟨line, inside, rfl⟩ := List.mem_map.1 listed
    rcases List.mem_append.1 member with written | newline
    · rcases mem_of_mem_renameLine written with read | space | word
      · exact returns ((within_of_mem_lines inside).1.subset read)
      · contradiction
      · exact absurd word (by decide)
    · contradiction
  ended := getLast?_unlines _
  fresh stretch stale newline within := by
    have nonempty : stretch ≠ [] := List.ne_nil_of_mem (mem_of_stale stale)
    obtain ⟨row, listed, within⟩ := exists_row_of_within_unlines newline nonempty within
    obtain ⟨line, -, rfl⟩ := List.mem_map.1 listed
    exact stale.not_within_renameLine line within

theorem Tidy.exchange {text other : List Char} (tidy : Tidy text) (exchange : Exchange text other) :
    Tidy other where
  returns := by
    cases exchange with
    | @mk token new listed before after =>
        have clean : ∀ pair ∈ exchanges, '\r' ∉ pair.2 := by decide
        have kept := tidy.returns
        simp only [List.mem_append, not_or] at kept ⊢
        exact ⟨⟨kept.1.1, clean (token, new) listed⟩, kept.2⟩
  ended := by
    cases exchange with
    | @mk token new listed before after =>
        have ends : ∀ pair ∈ exchanges, pair.1.getLast?.any (· != '\n') = true := by decide
        have ended := tidy.ended
        rw [List.getLast?_append] at ended ⊢
        cases last : after.getLast? with
        | some d =>
            rw [last, Option.some_or] at ended
            exact ended
        | none =>
            obtain ⟨d, final, other⟩ := (Option.any_eq_true _ _).1 (ends (token, new) listed)
            rw [last, Option.none_or, List.getLast?_append, final, Option.some_or] at ended
            exact absurd (ended d rfl) (bne_iff_ne.1 other)
  fresh stretch stale newline within :=
    tidy.fresh stretch stale newline (within_of_exchange stale exchange within)

theorem Tidy.exchanges {text other : List Char} (tidy : Tidy text)
    (chain : ReflTransGen Exchange text other) : Tidy other := by
  induction chain with
  | refl => exact tidy
  | tail _ exchange ih => exact ih.exchange exchange

/-! ## Migrating the outcome -/

theorem migrateText_template (content : List Char) :
    migrateText .standard "tf" content =
      editDeclarations (Dialect.template.renameText content) := rfl

/-- A second migration leaves the lines of a configuration as they are. It leaves
the whole configuration as it is exactly if all blocks that are announced in it are
complete and mention no legacy name. What counts is the mention and not what it
names: in the body of a block that has its current name it is edited, too. -/
theorem migrateText_eq_self_iff {content out : List Char} (returns : '\r' ∉ content)
    (migrated : migrateText .standard "tf" content = .ok out) :
    Dialect.template.renameText out = out ∧
      (migrateText .standard "tf" out = .ok out ↔
        (Division.of requirementsKeyword out).Settled ∧
          (Division.of providerKeyword out).Settled) := by
  rw [migrateText_template] at migrated ⊢
  have chain := reflTransGen_of_editDeclarations migrated
  have tidy := (tidy_renameText returns).exchanges chain
  refine ⟨tidy.renameText_eq, ?_⟩
  rw [tidy.renameText_eq]
  exact editDeclarations_eq_self_iff

/-- A module that requires a provider and configures it. -/
def moduleText (name source version : String) : List Char :=
  List.flatMap String.toList
    ["terraform \x7b\n",
      "  required_providers \x7b\n",
      "    ", name, " = \x7b\n",
      "      source  = \"", source, "\"\n",
      "      ", version, " = \"3.2.1\"\n",
      "    \x7d\n",
      "  \x7d\n",
      "\x7d\n",
      "\n",
      "provider \"", name, "\" \x7b\n",
      "  auth_token = var.auth_token\n",
      "\x7d\n"]

def legacyModule : List Char := moduleText "metal" "equinix/metal" "version"

def currentModule : List Char := moduleText "equinix" "equinix/equinix" "#version"

theorem migrateText_eq_self_iff_of_module :
    '\r' ∉ legacyModule ∧ migrateText .standard "tf" legacyModule = .ok currentModule ∧
      Dialect.template.renameText currentModule = currentModule ∧
      (migrateText .standard "tf" currentModule = .ok currentModule ↔
        (Division.of requirementsKeyword currentModule).Settled ∧
          (Division.of providerKeyword currentModule).Settled) ∧
      (Division.of requirementsKeyword currentModule).Settled ∧
      (Division.of providerKeyword currentModule).Settled := by
  have returns : '\r' ∉ legacyModule := by decide +kernel
  have migrated : migrateText .standard "tf" legacyModule = .ok currentModule := by decide +kernel
  have complete : ∀ keyword ∈ [requirementsKeyword, providerKeyword],
      (Division.of keyword currentModule).fault? = none := by decide +kernel
  have clear : IsClear currentModule := Mention.find?_eq_none_iff.1 (by decide +kernel)
  have settled : ∀ keyword ∈ [requirementsKeyword, providerKeyword],
      (Division.of keyword currentModule).Settled := fun keyword listed =>
    ⟨complete keyword listed, fun _ member => clear.block member⟩
  obtain ⟨kept, fixed⟩ := migrateText_eq_self_iff returns migrated
  exact ⟨returns, migrated, kept, fixed, settled _ (by simp), settled _ (by simp)⟩

/-- A block with a reference to a resource. -/
def referringProvider (name type : String) : List Char :=
  List.flatMap String.toList
    ["provider \"", name, "\" \x7b\n",
      "  x = ", type, ".b.id\n",
      "\x7d\n"]

/-- A second migration takes the type of a reference, which the first one has
renamed, for the name of the provider. -/
theorem exists_migrateText_ne_self :
    ∃ content out again, '\r' ∉ content ∧ migrateText .standard "tf" content = .ok out ∧
      migrateText .standard "tf" out = .ok again ∧ again ≠ out := by
  have first : migrateText .standard "tf" (referringProvider "metal" "metal_a") =
      .ok (referringProvider "equinix" "equinix_metal_a") := by decide +kernel
  have second : migrateText .standard "tf" (referringProvider "equinix" "equinix_metal_a") =
      .ok (referringProvider "equinix" "equinix_equinix_a") := by decide +kernel
  exact ⟨_, _, _, by decide, first, second, by decide⟩

end ProviderMigration.Migration
