import ProviderMigration.Proofs.Identifier.Respelling
import ProviderMigration.Proofs.Provider.Correspondence

/-!
# Outlines of renamed texts

Renaming the names of a configuration happens line by line and before the blocks are looked
for. It changes words, and blanks next to them, in strings and comments as in code. A scan for
braces passes over all that as it did before, and the keywords of the blocks are found where
they were. So the renamed text has the blocks of the text on the same lines, and if a block of
the text is malformed, it is malformed in the renamed text too.
-/

namespace ProviderMigration.Migration

open Text Block Identifier Provider

/-! ## What a renaming leaves alone -/

variable {old new : List Char}

/-- A keyword that is aloof avoids a renaming. -/
theorem avoids_of_isRenaming {token : List Char} (aloof : isAloof token = true)
    (nonempty : token ≠ []) (renames : IsRenaming old new) : AvoidsChange token old new := by
  cases renames with
  | @site site gap legacy isGap isGap' spaced =>
  have word : ∀ {gap word : List Char}, IsGap gap → word ∈ currentWord :: legacyWords →
      Avoids token (gap ++ ((if site.quoted then ['"'] else []) ++ word)) := by
    intro gap word isGap listed
    constructor
    · intro tail ends nonempty text
      exact not_prefix_word aloof ends nonempty isGap listed site.quoted text
    · exact cutAt?_word aloof nonempty isGap listed site.quoted
  exact ⟨word isGap (List.mem_cons_of_mem currentWord legacy), word isGap' currentWord_listed⟩

/-- A renaming happens within a line. -/
theorem newline_not_mem_of_isRenaming (renames : IsRenaming old new) :
    '\n' ∉ old ∧ '\n' ∉ new := by
  cases renames with
  | @site site gap legacy isGap isGap' spaced =>
  have words : ∀ word ∈ currentWord :: legacyWords, '\n' ∉ word := by decide
  have within : ∀ {gap word : List Char}, IsGap gap → word ∈ currentWord :: legacyWords →
      '\n' ∉ gap ++ (site.quote ++ word) := by
    intro gap word isGap listed member
    rw [List.mem_append, List.mem_append] at member
    rcases member with blank | quote | letter
    · exact (isGap _ blank).2 rfl
    · rw [Site.quote] at quote
      split at quote
      next => exact absurd (List.mem_singleton.1 quote) (by decide)
      next => contradiction
    · exact words word listed letter
  exact ⟨within isGap (List.mem_cons_of_mem currentWord legacy), within isGap' currentWord_listed⟩

theorem keepsLines_of_isRenaming (renames : IsRenaming old new) : KeepsLines old new := by
  obtain ⟨none, none'⟩ := newline_not_mem_of_isRenaming renames
  rw [KeepsLines, List.count_eq_zero.2 none, List.count_eq_zero.2 none']

/-! ## The columns of a renamed text -/

/-- A text with normal ends of lines is aligned with the renamed text. -/
theorem aligns_renameText (content : List Char) :
    Column.Aligns IsRenaming (normalizeEnds content) (Dialect.template.renameText content) :=
  .unlines fun _ member => aligns_renameLine (within_of_mem_lines member).2

theorem exists_corresponds_renameText (content : List Char) {keyword : String}
    (listed : keyword ∈ [requirementsKeyword, providerKeyword]) :
    ∃ columns, Column.AllChanged KeepsLines columns ∧
      Corresponds columns (Division.of keyword (normalizeEnds content))
        (Division.of keyword (Dialect.template.renameText content)) := by
  have keywords : ∀ keyword ∈ [requirementsKeyword, providerKeyword],
      isAloof keyword.toList = true ∧ keyword.toList ≠ [] := by decide
  obtain ⟨aloof, nonempty⟩ := keywords keyword listed
  obtain ⟨columns, read, written, renames⟩ := aligns_renameText content
  rw [← read, ← written]
  have keeps := renames.imp fun _ _ => keepsLines_of_isRenaming
  have silent := renames.imp fun _ _ => isSilent_of_isRenaming
  have avoided := renames.imp fun _ _ => avoids_of_isRenaming aloof nonempty
  exact ⟨columns, keeps, corresponds_of silent avoided nonempty⟩

/-! ## Blocks of a renamed text -/

/-- Renaming the names of a text hides no malformed block and breaks no other one. A pass that
keeps its blocks, over the requirements or over the providers, fails on the renamed text
exactly as it fails on the text with normal ends of lines. In both it finds as many blocks, and
each of them begins and ends on the same line in the one as in the other. -/
theorem renameText_keeps_outline (content : List Char) {keyword : String}
    (listed : keyword ∈ [requirementsKeyword, providerKeyword]) :
    (∀ fault, editBlocks keyword .ok ((Dialect.ofExtension "tf").renameText content) =
        .error fault ↔ editBlocks keyword .ok (normalizeEnds content) = .error fault) ∧
      ((∃ out, editBlocks keyword .ok ((Dialect.ofExtension "tf").renameText content) =
        .ok out) ↔ ∃ out, editBlocks keyword .ok (normalizeEnds content) = .ok out) ∧
      (Division.of keyword ((Dialect.ofExtension "tf").renameText content)).lineSpans =
        (Division.of keyword (normalizeEnds content)).lineSpans := by
  have template : Dialect.ofExtension "tf" = .template := by decide
  obtain ⟨columns, keeps, corresponds⟩ := exists_corresponds_renameText content listed
  have result : ∀ document, editBlocks keyword .ok document =
      (Division.of keyword document).fault?.elim
        (.ok ((Division.of keyword document).mapBlocks id).text) .error := by
    intro document
    rw [editBlocks_eq, ← Division.edited_of]
    exact Division.edited_mapBlocks id _
  have same := corresponds.fault?_eq
  rw [template, result, result, ← same]
  refine ⟨?_, ?_, (corresponds.spansFrom_eq keeps 0).symm⟩
  · cases (Division.of keyword (normalizeEnds content)).fault? with
    | none => simp
    | some fault => simp
  · cases (Division.of keyword (normalizeEnds content)).fault? with
    | none => simp
    | some fault => simp

/-- A block with a legacy name, behind a comment that ends with a carriage return. -/
def looseReference : List Char :=
  "# first\r\nprovider \"x\" \x7b\n  y =  metal_z.id\n\x7d".toList

/-- The block of the renamed text begins on the second line and ends on the fourth one. -/
theorem renameText_keeps_outline_of_looseReference :
    providerKeyword ∈ [requirementsKeyword, providerKeyword] ∧
      (Division.of providerKeyword
        ((Dialect.ofExtension "tf").renameText looseReference)).lineSpans = [(1, 3)] := by
  have listed : providerKeyword ∈ [requirementsKeyword, providerKeyword] := by decide
  have cut : cutAt? providerKeyword.toList (normalizeEnds looseReference) =
      some ("# first\n".toList, (normalizeEnds looseReference).drop 8) := by decide
  have bounded : (Balance.ofBraces ((normalizeEnds looseReference).drop 8)).require
      providerKeyword = .ok (13, 33) := rfl
  have last : cutAt? providerKeyword.toList
      (dropBytes 34 ((normalizeEnds looseReference).drop 8)) = none := by decide
  refine ⟨listed, ?_⟩
  rw [(renameText_keeps_outline looseReference listed).2.2, Division.of_eq_of_bounded cut bounded,
    Division.of_eq_of_absent last]
  decide

end ProviderMigration.Migration
