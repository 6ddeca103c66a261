import ProviderMigration.Proofs.Identifier.Respelling
import ProviderMigration.Proofs.Migration.Again

/-!
# Blocks of other providers

A configuration may be a list of blocks that configure providers of which none is a
legacy one. Renaming its lines keeps it a list of such blocks, so the pass over the
providers gets to see one block after the other. The pass looks for the legacy names
in a block as a whole, though, and not in its label, so a block is left alone only
if its body has no mention of them either.
-/

namespace ProviderMigration.Migration

open Text Block Identifier Provider

/-! ## Lists of blocks -/

/-- A block that configures another provider than the legacy ones. It ends with the
brace that closes it. -/
structure IsForeign (block : List Char) : Prop where
  spelled : ∃ gap label space body,
    block = providerKeyword.toList ++ gap ++ '"' :: label ++ '"' :: space ++ '\x7b' :: body ++
      ['\x7d'] ∧
    (∀ c ∈ gap ++ space, isBlank c = true) ∧ '"' ∉ label ∧
    ∀ name ∈ legacyNames, label ≠ name.toList
  closed : (Balance.ofBraces block).closing? = some (byteSize block - 1)

/-- A block that the keyword of the providers announces, and that ends with the
brace that closes it. -/
structure IsAnnounced (block : List Char) : Prop where
  starts : providerKeyword.toList <+: block
  closed : remainder? .code 0 block = some []

theorem IsForeign.isAnnounced {block : List Char} (foreign : IsForeign block) :
    IsAnnounced block where
  starts := by
    obtain ⟨gap, label, space, body, rfl, -⟩ := foreign.spelled
    simp only [List.append_assoc]
    exact List.prefix_append _ _
  closed := by
    obtain ⟨inner, rest, split, size, found⟩ :=
      Balance.closing?_ofBraces_eq_some_iff.1 foreign.closed
    have brace : Char.utf8Size '\x7d' = 1 := by decide
    have whole := congrArg byteSize split
    rw [byteSize_append, byteSize_cons, brace] at whole
    have last : byteSize rest = 0 := by omega
    rw [found, byteSize_eq_zero_iff.1 last]

/-- The balance of a text that starts with a block closes where the block ends. -/
theorem IsAnnounced.exists_require {block : List Char} (announced : IsAnnounced block)
    (rest : List Char) :
    ∃ opened closing, (Balance.ofBraces (block ++ rest)).require providerKeyword =
      .ok (opened, closing) ∧ closing + 1 = byteSize block := by
  obtain ⟨inner, split⟩ : ∃ inner, block = inner ++ ['\x7d'] := by
    obtain ⟨inner, split, -⟩ := exists_of_remainder? announced.closed
    exact ⟨inner, split⟩
  have found := remainder?_append announced.closed rest
  have closes : (Balance.ofBraces (block ++ rest)).closing? = some (byteSize inner) := by
    refine Balance.closing?_ofBraces_eq_some_iff.2 ⟨inner, rest, ?_, rfl, found⟩
    rw [split, List.append_assoc, List.singleton_append]
  obtain ⟨opened, bounded⟩ := Balance.exists_require_of_closing? closes providerKeyword
  refine ⟨opened, byteSize inner, bounded, ?_⟩
  rw [split, byteSize_append]
  rfl

/-- A document of blocks with blanks around them. -/
inductive IsListing (IsBlock : List Char → Prop) : List Char → Prop where
  | blank {gap : List Char} (blank : ∀ c ∈ gap, isBlank c = true) : IsListing IsBlock gap
  | block {gap block rest : List Char} (blank : ∀ c ∈ gap, isBlank c = true)
      (isBlock : IsBlock block) (later : IsListing IsBlock rest) :
      IsListing IsBlock (gap ++ block ++ rest)

theorem IsListing.imp {IsBlock IsOther : List Char → Prop} {document : List Char}
    (listing : IsListing IsBlock document) (weaken : ∀ block, IsBlock block → IsOther block) :
    IsListing IsOther document := by
  induction listing with
  | blank blank => exact .blank blank
  | block blank isBlock later ih => exact .block blank (weaken _ isBlock) ih

/-! ## The division of a list -/

/-- Blanks are in no keyword. -/
theorem cutAt?_blank_append {gap : List Char} (blank : ∀ c ∈ gap, isBlank c = true)
    (text : List Char) :
    cutAt? providerKeyword.toList (gap ++ text) =
      (cutAt? providerKeyword.toList text).map fun (before, found) => (gap ++ before, found) := by
  have foreign : 'p' ∉ gap := fun member => absurd (blank 'p' member) (by decide)
  exact cutAt?_append_of_not_mem foreign text

/-- A block at the start of a text is the first part of the text's division. -/
theorem of_append {gap block : List Char} (blank : ∀ c ∈ gap, isBlank c = true)
    (announced : IsAnnounced block) (rest : List Char) :
    Division.of providerKeyword (gap ++ block ++ rest) =
      { Division.of providerKeyword rest with
        parts := ⟨gap, block⟩ :: (Division.of providerKeyword rest).parts } := by
  have cut : cutAt? providerKeyword.toList (gap ++ block ++ rest) = some (gap, block ++ rest) := by
    rw [List.append_assoc, cutAt?_blank_append blank,
      cutAt?_of_prefix (announced.starts.trans (List.prefix_append block rest))]
    simp
  obtain ⟨opened, closing, bounded, size⟩ := announced.exists_require rest
  rw [Division.of_eq_of_bounded cut bounded, size, takeBytes_byteSize_append,
    dropBytes_byteSize_append]

theorem within_blank_append {token gap : List Char} (ink : ∀ c ∈ token, isBlank c = false)
    (nonempty : token ≠ []) (blank : ∀ c ∈ gap, isBlank c = true) (text : List Char) :
    token <:+: gap ++ text ↔ token <:+: text := by
  induction gap with
  | nil => rfl
  | cons c gap ih =>
      rw [List.forall_mem_cons] at blank
      have foreign : c ∉ token := fun member =>
        Bool.false_ne_true ((ink c member).symm.trans blank.1)
      have sides : token <:+: [] ++ c :: (gap ++ text) ↔ _ := within_append_cons_iff foreign
      rw [List.nil_append, List.infix_nil] at sides
      rw [List.cons_append, sides, ih blank.2]
      exact or_iff_right nonempty

theorem ink_of_legacy {name : String} (legacy : name ∈ legacyNames) :
    (∀ c ∈ name.toList, isBlank c = false) ∧ name.toList ≠ [] ∧ '\x7d' ∉ name.toList := by
  have known : ∀ name ∈ legacyNames, name.toList.all (!isBlank ·) = true ∧ name.toList ≠ [] ∧
      '\x7d' ∉ name.toList := by decide
  obtain ⟨ink, others⟩ := known name legacy
  exact ⟨fun c member => by simpa using List.all_eq_true.1 ink c member, others⟩

/-- A legacy name in a list stands in one of its blocks. -/
theorem isClear_append {gap block : List Char} (blank : ∀ c ∈ gap, isBlank c = true)
    (announced : IsAnnounced block) (rest : List Char) :
    IsClear (gap ++ block ++ rest) ↔ IsClear block ∧ IsClear rest := by
  obtain ⟨inner, rfl⟩ : ∃ inner, block = inner ++ ['\x7d'] := by
    obtain ⟨inner, split, -⟩ := exists_of_remainder? announced.closed
    exact ⟨inner, split⟩
  have sides : ∀ name ∈ legacyNames, (name.toList <:+: gap ++ (inner ++ ['\x7d']) ++ rest ↔
      name.toList <:+: inner ++ ['\x7d'] ∨ name.toList <:+: rest) := by
    intro name legacy
    obtain ⟨ink, nonempty, brace⟩ := ink_of_legacy legacy
    have spelled : gap ++ (inner ++ ['\x7d']) ++ rest = gap ++ (inner ++ '\x7d' :: rest) := by simp
    rw [spelled, within_blank_append ink nonempty blank, within_append_cons_iff brace,
      within_append_cons_iff brace, List.infix_nil, or_iff_left nonempty]
  constructor
  · intro clear
    exact ⟨fun name legacy here => clear name legacy ((sides name legacy).2 (.inl here)),
      fun name legacy here => clear name legacy ((sides name legacy).2 (.inr here))⟩
  · rintro ⟨block, rest⟩ name legacy here
    rcases (sides name legacy).1 here with inside | later
    · exact block name legacy inside
    · exact rest name legacy later

theorem IsListing.settled_iff {document : List Char} (listing : IsListing IsAnnounced document) :
    (Division.of providerKeyword document).Settled ↔ IsClear document := by
  induction listing with
  | @blank gap blank =>
      have absent := cutAt?_blank_append blank []
      rw [List.append_nil] at absent
      rw [Division.of_eq_of_absent absent]
      refine iff_of_true ⟨rfl, fun part member => absurd member List.not_mem_nil⟩ ?_
      intro name legacy within
      obtain ⟨ink, nonempty, -⟩ := ink_of_legacy legacy
      rw [← List.append_nil gap, within_blank_append ink nonempty blank, List.infix_nil] at within
      exact nonempty within
  | @block gap block rest blank announced later ih =>
      rw [of_append blank announced, Division.settled_cons, ih, isClear_append blank announced]

/-! ## Renaming a list -/

/-- A list of blocks is respelled as a list of blocks. -/
theorem IsListing.respelled {document other : List Char}
    (listing : IsListing IsAnnounced document) (respelled : Respelled document other) :
    IsListing IsAnnounced other := by
  have aloof : isAloof providerKeyword.toList = true := by decide
  induction listing generalizing other with
  | blank blank => exact .blank (respelled.isBlank_of_mem blank)
  | @block gap block rest blank announced later ih =>
      have starts := announced.starts.trans (List.prefix_append block rest)
      have cut := respelled.cutAt? aloof (by decide)
      rw [List.append_assoc, cutAt?_blank_append blank, cutAt?_of_prefix starts] at cut
      obtain ⟨found, front, gap', located, split, rfl, gaps, founds⟩ := cut.exists_of_some
      obtain rfl : gap = front := by simpa using List.append_cancel_right split
      have closes := founds.remainder? .code 0
      have closed := remainder?_append announced.closed rest
      rw [List.nil_append] at closed
      rw [closed] at closes
      obtain ⟨rest', front, block', closed', split, rfl, blocks, rests⟩ := closes.exists_of_some
      obtain rfl := List.append_cancel_right split
      obtain ⟨inner, split', ends⟩ := exists_of_remainder? closed'
      have whole : block' = inner ++ ['\x7d'] := by
        have joined : inner ++ '\x7d' :: rest' = inner ++ ['\x7d'] ++ rest' := by simp
        exact List.append_cancel_right (split'.trans joined)
      rw [← List.append_assoc]
      refine .block (gaps.isBlank_of_mem blank) ⟨?_, ?_⟩ (ih rests)
      · exact (blocks.prefix_iff aloof (List.suffix_refl _)).1 announced.starts
      · rw [whole]
        exact ends

/-- A pass leaves a document without legacy names alone where all blocks are
complete. -/
theorem settled_of_isClear {keyword : String} {document : List Char} (clear : IsClear document) :
    (Division.of keyword document).Settled ↔ (Division.of keyword document).fault? = none := by
  constructor
  · exact Division.Settled.complete
  · intro complete
    exact ⟨complete, fun part member => clear.block member⟩

/-! ## Which blocks are left alone -/

/-- A block of another provider is left alone exactly if it mentions no legacy name
at all. A list of such blocks has its lines renamed, and nothing else happens to it
exactly if no legacy name is left after that and every list of requirements that
may be announced in it is complete. -/
theorem migrateText_eq_renameText_iff (settings : Settings) :
    (∀ block, IsForeign block → (editLabel block = block ↔ IsClear block)) ∧
      ∀ content, IsListing IsForeign content →
        (migrateText settings "tf" content = .ok (Dialect.template.renameText content) ↔
          (settings.editsProviders "tf" = true →
            IsClear (Dialect.template.renameText content) ∧
            (Division.of requirementsKeyword (Dialect.template.renameText content)).fault? =
              none)) := by
  constructor
  · intro block foreign
    constructor
    · intro same
      apply Classical.byContradiction
      intro mentions
      have chain := editLabel_lowers.lower mentions rfl
      rw [same] at chain
      exact List.lt_irrefl block (lt_of_transGen chain)
    · intro clear
      exact Except.ok.inj (editLabel_lowers.clear clear)
  · intro content listing
    have renamed := (listing.imp fun _ => IsForeign.isAnnounced).respelled
      (respelled_renameText content)
    rw [migrateText, show Dialect.ofExtension "tf" = .template from rfl]
    cases edits : settings.editsProviders "tf" with
    | false => simp
    | true =>
        rw [if_pos rfl, editDeclarations_eq_self_iff, renamed.settled_iff]
        constructor
        · rintro ⟨requirements, clear⟩ -
          exact ⟨clear, requirements.complete⟩
        · intro known
          obtain ⟨clear, complete⟩ := known rfl
          exact ⟨(settled_of_isClear clear).2 complete, clear⟩

/-- A block with attributes, a comment and a nested block, and without a legacy name. -/
def nestedBlock : List Char :=
  List.flatMap String.toList
    ["provider \"aws\" \x7b\n",
      "  # \x7d closes nothing here\n",
      "  region = \"eu-west-1\"\n",
      "  assume_role \x7b\n",
      "    role_arn = var.role\n",
      "  \x7d\n",
      "\x7d"]

theorem isForeign_nestedBlock : IsForeign nestedBlock where
  spelled := ⟨[' '], "aws".toList, [' '], (nestedBlock.drop 16).dropLast, by decide +kernel,
    List.all_eq_true.1 (by decide), by decide, by decide⟩
  closed := by decide +kernel

theorem migrateText_eq_renameText_iff_of_nestedBlock :
    IsForeign nestedBlock ∧ IsListing IsForeign (['\n'] ++ nestedBlock ++ ['\n']) ∧
      (editLabel nestedBlock = nestedBlock ↔ IsClear nestedBlock) ∧
      (migrateText .standard "tf" (['\n'] ++ nestedBlock ++ ['\n']) =
          .ok (Dialect.template.renameText (['\n'] ++ nestedBlock ++ ['\n'])) ↔
        (Settings.standard.editsProviders "tf" = true →
          IsClear (Dialect.template.renameText (['\n'] ++ nestedBlock ++ ['\n'])) ∧
          (Division.of requirementsKeyword
            (Dialect.template.renameText (['\n'] ++ nestedBlock ++ ['\n']))).fault? = none)) ∧
      IsClear nestedBlock ∧
      migrateText .standard "tf" (['\n'] ++ nestedBlock ++ ['\n']) =
        .ok (['\n'] ++ nestedBlock ++ ['\n']) := by
  have listing : IsListing IsForeign (['\n'] ++ nestedBlock ++ ['\n']) :=
    .block (List.all_eq_true.1 (by decide)) isForeign_nestedBlock
      (.blank (List.all_eq_true.1 (by decide)))
  have known := migrateText_eq_renameText_iff .standard
  have clear : IsClear nestedBlock := Mention.find?_eq_none_iff.1 (by decide +kernel)
  exact ⟨isForeign_nestedBlock, listing, known.1 nestedBlock isForeign_nestedBlock,
    known.2 _ listing, clear, by decide +kernel⟩

/-- A block of another provider with a reference to a resource whose type is
renamed. -/
def referringBlock : List Char := "provider \"aws\" \x7b\n  x = metal_a.b.id\n\x7d".toList

/-- The block with the type renamed. -/
def renamedBlock : List Char :=
  "provider \"aws\" \x7b\n  x = equinix_metal_a.b.id\n\x7d".toList

/-- The pass over the providers renames a part of the new type once more. -/
theorem exists_foreign_not_kept :
    ∃ out, IsForeign referringBlock ∧ IsForeign renamedBlock ∧
      IsListing IsForeign (referringBlock ++ ['\n']) ∧
      editLabel renamedBlock ≠ renamedBlock ∧
      Dialect.template.renameText (referringBlock ++ ['\n']) = renamedBlock ++ ['\n'] ∧
      migrateText .standard "tf" (referringBlock ++ ['\n']) = .ok out ∧
      out ≠ renamedBlock ++ ['\n'] := by
  have foreign : IsForeign referringBlock :=
    { spelled := ⟨[' '], "aws".toList, [' '], "\n  x = metal_a.b.id\n".toList, by decide,
        List.all_eq_true.1 (by decide), by decide, by decide⟩
      closed := rfl }
  have renamedForeign : IsForeign renamedBlock :=
    { spelled := ⟨[' '], "aws".toList, [' '], "\n  x = equinix_metal_a.b.id\n".toList, by decide,
        List.all_eq_true.1 (by decide), by decide, by decide⟩
      closed := rfl }
  have listing : IsListing IsForeign ([] ++ referringBlock ++ ['\n']) :=
    .block (List.forall_mem_nil _) foreign (.blank (List.all_eq_true.1 (by decide)))
  have renamed : Dialect.template.renameText (referringBlock ++ ['\n']) =
      renamedBlock ++ ['\n'] := by decide
  have migrated : migrateText .standard "tf" (referringBlock ++ ['\n']) =
      .ok "provider \"aws\" \x7b\n  x = equinix_equinix_a.b.id\n\x7d\n".toList := by
    decide +kernel
  exact ⟨_, foreign, renamedForeign, listing, by decide, renamed, migrated, by decide⟩

end ProviderMigration.Migration
