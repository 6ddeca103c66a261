import Mathlib.Data.List.Forall2
import ProviderMigration.Proofs.Identifier.Absence
import ProviderMigration.Proofs.Migration.Again

/-!
# Lines of the outcome

The pass over the declarations of a document may edit blocks of many lines, but no token
that it exchanges has a newline in it. So a migration makes of each line of a text one line
of the outcome, at the same place, and a line with none of the words that are exchanged
stays as it is.
-/

namespace ProviderMigration.Migration

open Text Block Identifier Provider Relation

/-! ## Exchanges within lines -/

/-- The words of which each exchanged token has one. -/
def exchangedWords : List String := ["metal", "packet", "version"]

/-- A line with none of the words that are exchanged. -/
def IsIdle (line : List Char) : Prop := ∀ word ∈ exchangedWords, ¬ word.toList <:+: line

theorem exists_word_of_exchanges :
    ∀ pair ∈ exchanges, ∃ word ∈ exchangedWords, word.toList <:+: pair.1 := by
  have named : ∀ pair ∈ exchanges, exchangedWords.any (occurs ·.toList pair.1) = true := by decide
  intro pair listed
  obtain ⟨word, member, inside⟩ := List.any_eq_true.1 (named pair listed)
  exact ⟨word, member, occurs_eq_true_iff.1 inside⟩

/-- There is nothing to exchange in an idle line. -/
theorem IsIdle.eq_of_reflTransGen {line row : List Char} (idle : IsIdle line)
    (chain : ReflTransGen Exchange line row) : row = line := by
  rcases chain.cases_head with same | ⟨middle, exchange, -⟩
  · exact same.symm
  · cases exchange with
    | @mk token new listed before after =>
        obtain ⟨word, member, inside⟩ := exists_word_of_exchanges (token, new) listed
        have part : token <:+: before ++ token ++ after := List.infix_append before token after
        exact absurd (inside.trans part) (idle word member)

theorem newline_not_mem_of_reflTransGen {line row : List Char} (single : '\n' ∉ line)
    (chain : ReflTransGen Exchange line row) : '\n' ∉ row := by
  induction chain with
  | refl => exact single
  | tail _ exchange ih =>
      cases exchange with
      | @mk token new listed before after =>
          have clean : ∀ pair ∈ exchanges, '\n' ∉ pair.2 := by decide
          have written := clean (token, new) listed
          simp only [List.mem_append, not_or] at ih ⊢
          exact ⟨⟨ih.1.1, written⟩, ih.2⟩

/-! ## Rows under exchanges -/

/-- The rows of two texts that exchanges lead from one to the other, one by one. -/
abbrev RowsExchanged : List (List Char) → List (List Char) → Prop :=
  List.Forall₂ (ReflTransGen Exchange)

theorem RowsExchanged.refl (rows : List (List Char)) : RowsExchanged rows rows :=
  List.forall₂_same.2 fun _ _ => .refl

theorem RowsExchanged.trans {first second third : List (List Char)}
    (one : RowsExchanged first second) (other : RowsExchanged second third) :
    RowsExchanged first third := by
  induction one generalizing third with
  | nil =>
      cases other with
      | nil => exact .nil
  | cons chain _ ih =>
      cases other with
      | cons further rest => exact .cons (chain.trans further) (ih rest)

/-- An exchange in the first row. -/
theorem exists_rows_of_row {token new : List Char} (listed : (token, new) ∈ exchanges)
    (before rest : List Char) (rows : List (List Char)) :
    ∃ rows', before ++ (new ++ (rest ++ '\n' :: unlines rows)) = unlines rows' ∧
      RowsExchanged ((before ++ (token ++ rest)) :: rows) rows' := by
  refine ⟨(before ++ (new ++ rest)) :: rows, ?_, .cons ?_ (RowsExchanged.refl rows)⟩
  · rw [unlines_cons]
    simp
  · have exchange := Exchange.mk listed before rest
    rw [List.append_assoc, List.append_assoc] at exchange
    exact .single exchange

/-- A token that is exchanged in a text stands in one of its rows. -/
theorem exists_rows_of_mk {token new : List Char} (listed : (token, new) ∈ exchanges)
    {rows : List (List Char)} {before after : List Char}
    (split : before ++ (token ++ after) = unlines rows) :
    ∃ rows', before ++ (new ++ after) = unlines rows' ∧ RowsExchanged rows rows' := by
  have single : ∀ pair ∈ exchanges, '\n' ∉ pair.1 := by decide
  have solid : ∀ pair ∈ exchanges, pair.1 ≠ [] := by decide
  have newline : '\n' ∉ token := single (token, new) listed
  have nonempty : token ≠ [] := solid (token, new) listed
  induction rows generalizing before with
  | nil =>
      have empty := List.append_eq_nil_iff.1 split
      exact absurd (List.append_eq_nil_iff.1 empty.2).1 nonempty
  | cons row rows ih =>
      rw [unlines_cons, List.append_eq_append_iff] at split
      rcases split with ⟨start, rfl, rest⟩ | ⟨start, passed, rest⟩
      · -- The token starts in the first row, and ends in front of its newline.
        rw [List.append_eq_append_iff] at rest
        rcases rest with ⟨rest, rfl, rfl⟩ | ⟨rest, same, behind⟩
        · exact exists_rows_of_row listed before rest rows
        · cases rest with
          | nil =>
              rw [List.append_nil] at same
              subst same
              rw [← List.nil_append after, ← behind]
              simpa using exists_rows_of_row listed before [] rows
          | cons c rest =>
              obtain ⟨rfl, -⟩ := List.cons_eq_cons.1 behind
              exact absurd (same ▸ List.mem_append_right _ List.mem_cons_self) newline
      · cases start with
        | nil =>
            obtain ⟨c, token, rfl⟩ := List.exists_cons_of_ne_nil nonempty
            obtain ⟨rfl, -⟩ := List.cons_eq_cons.1 rest
            exact absurd List.mem_cons_self newline
        | cons c start =>
            obtain ⟨rfl, later⟩ := List.cons_eq_cons.1 rest
            obtain ⟨rows', outcome, exchanged⟩ := ih later.symm
            refine ⟨row :: rows', ?_, .cons .refl exchanged⟩
            rw [passed, unlines_cons, ← outcome]
            simp

/-- Exchanges lead from a text of rows to a text of as many rows, row by row. -/
theorem exists_rows_of_reflTransGen {rows : List (List Char)} {out : List Char}
    (chain : ReflTransGen Exchange (unlines rows) out) :
    ∃ rows', out = unlines rows' ∧ RowsExchanged rows rows' := by
  induction chain with
  | refl => exact ⟨rows, rfl, .refl rows⟩
  | @tail middle out _ exchange ih =>
      obtain ⟨rows', joined, exchanged⟩ := ih
      cases exchange with
      | mk listed before after =>
          rw [List.append_assoc] at joined
          obtain ⟨rows'', outcome, further⟩ := exists_rows_of_mk listed joined
          rw [List.append_assoc]
          exact ⟨rows'', outcome, exchanged.trans further⟩

/-! ## Migrations line by line -/

/-- What a migration makes of a line. -/
structure LineMigrated (dialect : Dialect) (line row : List Char) : Prop where
  single : '\n' ∉ row
  exchanged : ReflTransGen Exchange (dialect.renameLine line) row
  kept : IsIdle line → row = line

theorem LineMigrated.of_exchanged {dialect : Dialect} {line row : List Char}
    (single : '\n' ∉ line) (chain : ReflTransGen Exchange (dialect.renameLine line) row) :
    LineMigrated dialect line row where
  single := newline_not_mem_of_reflTransGen (dialect.newline_not_mem_renameLine single) chain
  exchanged := chain
  kept idle := by
    have clear : ∀ word ∈ legacyWords, ¬ word <:+: line := by
      have known : ∀ word ∈ legacyWords, ∃ name ∈ exchangedWords, name.toList = word := by decide
      intro word legacy
      obtain ⟨name, listed, rfl⟩ := known word legacy
      exact idle name listed
    rw [dialect.renameLine_eq_self single clear] at chain
    exact idle.eq_of_reflTransGen chain

theorem reflTransGen_of_migrateText {settings : Settings} {extension : String}
    {content out : List Char} (migrated : migrateText settings extension content = .ok out) :
    ReflTransGen Exchange ((Dialect.ofExtension extension).renameText content) out := by
  rw [migrateText] at migrated
  split at migrated
  next => exact reflTransGen_of_editDeclarations migrated
  next => rw [Except.ok.inj migrated]

/-- A migration makes one line of every line of a text, in the same order. Each comes from
its own line by replacing names and exchanging tokens in that line alone, and a line with
none of the words that are exchanged stays as it is. -/
theorem migrateText_by_lines {settings : Settings} {extension : String} {content out : List Char}
    (migrated : migrateText settings extension content = .ok out) :
    ∃ rows, out = unlines rows ∧ rows.length = (lines content).length ∧
      List.Forall₂ (LineMigrated (Dialect.ofExtension extension)) (lines content) rows := by
  obtain ⟨rows, outcome, exchanged⟩ :=
    exists_rows_of_reflTransGen (reflTransGen_of_migrateText migrated)
  rw [RowsExchanged, List.forall₂_map_left_iff] at exchanged
  refine ⟨rows, outcome, exchanged.length_eq.symm, ?_⟩
  rw [List.forall₂_iff_get] at exchanged ⊢
  refine ⟨exchanged.1, fun index inside inside' => ?_⟩
  exact .of_exchanged (within_of_mem_lines (List.get_mem _ _)).2 (exchanged.2 index inside inside')

/-- A block with a line that a migration has to keep, and with ends of all kinds. -/
def remarkedBlock : List Char := "provider \"metal\" \x7b\n  # no change\r\n\x7d".toList

theorem migrateText_by_lines_of_remarkedBlock :
    migrateText .standard "tf" remarkedBlock =
        .ok "provider \"equinix\" \x7b\n  # no change\n\x7d\n".toList ∧
      ∃ rows, "provider \"equinix\" \x7b\n  # no change\n\x7d\n".toList = unlines rows ∧
        rows.length = (lines remarkedBlock).length ∧
        List.Forall₂ (LineMigrated (Dialect.ofExtension "tf")) (lines remarkedBlock) rows := by
  have migrated : migrateText .standard "tf" remarkedBlock =
      .ok "provider \"equinix\" \x7b\n  # no change\n\x7d\n".toList := by decide +kernel
  exact ⟨migrated, migrateText_by_lines migrated⟩

end ProviderMigration.Migration
