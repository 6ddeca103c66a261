import ProviderMigration.Identifier.Chain
import ProviderMigration.Proofs.Identifier.Site

/-!
# Lines that no rule reads

Every rule of either dialect reads a legacy word, so a line without one is left alone by
all of them. A line that they do read stays a single line, for none of them writes a
newline.
-/

namespace ProviderMigration.Identifier

open Text

variable {rule : Rule} {text line : List Char} {found : Match} {c : Char}

/-! ## What a rule writes -/

/-- The characters that an edit may put in place of what was read. -/
def Edit.ink : Edit → List Char
  | .keep => []
  | .replace text => text.toList

/-- The characters that some pieces may put in place of what they read. -/
def inkOf (pieces : List Piece) : List Char := pieces.flatMap fun piece => piece.edit.ink

theorem Edit.mem_of_mem_apply {edit : Edit} {read : List Char} (member : c ∈ edit.apply read) :
    c ∈ read ∨ c ∈ edit.ink := by
  cases edit with
  | keep => exact .inl member
  | replace text => exact .inr member

theorem Piece.prefix_of_read? {piece : Piece} {read : List Char}
    (found : piece.read? text = some read) : read <+: text := by
  cases piece with
  | oneOf literals edit =>
      rw [Piece.read?] at found
      have here := List.find?_some found
      exact List.isPrefixOf_iff_prefix.1 here
  | blanks least edit =>
      rw [Piece.read?] at found
      split at found
      next =>
        rw [← Option.some.inj found]
        exact List.takeWhile_prefix isBlank
      next => contradiction

/-- What takes the place of a stretch is made of characters that were read and of
characters that the pieces write. -/
theorem Match.mem_of_mem_emitted {pieces : List Piece}
    (here : Match.find? text pieces = some found) (member : c ∈ found.emitted) :
    c ∈ text ∨ c ∈ inkOf pieces := by
  induction pieces generalizing text found with
  | nil =>
      rw [Match.find?_nil_iff.1 here] at member
      contradiction
  | cons piece pieces ih =>
      simp only [Match.find?, Option.bind_eq_bind, Option.bind_eq_some_iff, Option.pure_def,
        Option.some.injEq] at here
      obtain ⟨read, first, following, later, rfl⟩ := here
      rw [inkOf, List.flatMap_cons, List.mem_append]
      rcases List.mem_append.1 member with here | behind
      · rcases Edit.mem_of_mem_apply here with old | new
        · exact .inl ((Piece.prefix_of_read? first).subset old)
        · exact .inr (.inl new)
      · rcases ih later behind with old | new
        · exact .inl (List.mem_of_mem_drop old)
        · exact .inr (.inr new)

namespace Rule

theorem mem_of_mem_editEvery_go {done : List Char} {skip : Nat}
    (member : c ∈ editEvery.go rule done skip text) :
    c ∈ done ∨ c ∈ text ∨ c ∈ inkOf rule.pieces := by
  induction text generalizing done skip with
  | nil => exact .inl (List.mem_reverse.1 member)
  | cons d rest ih =>
      cases skip with
      | succ skip =>
          rcases ih member with before | later
          · exact .inl before
          · exact .inr (later.imp_left (List.mem_cons_of_mem d))
      | zero =>
          rw [editEvery.go] at member
          cases here : rule.match? (d :: rest) with
          | some found =>
              rw [here] at member
              rcases ih member with before | later
              · rw [List.mem_append, List.mem_reverse] at before
                rcases before with emitted | before
                · exact .inr (Match.mem_of_mem_emitted here emitted)
                · exact .inl before
              · exact .inr (later.imp_left (List.mem_cons_of_mem d))
          | none =>
              rw [here] at member
              rcases ih member with before | later
              · rcases List.mem_cons.1 before with rfl | before
                · exact .inr (.inl List.mem_cons_self)
                · exact .inl before
              · exact .inr (later.imp_left (List.mem_cons_of_mem d))

/-- The last occurrence in a row is edited where it stands, and a row without one is
kept. -/
theorem editLast_cases (rule : Rule) (row : List Char) :
    (rule.editLast row = row ∧ ∀ before suffix, row = before ++ suffix → suffix ≠ [] →
      rule.match? suffix = none) ∨
    ∃ before suffix found, row = before ++ suffix ∧ suffix ≠ [] ∧
      rule.match? suffix = some found ∧
      rule.editLast row = before ++ (found.emitted ++ suffix.drop found.length) := by
  have states : ∀ row : List Char, (row.foldr (editLast.step rule) ([], none)).1 = row ∧
      ((row.foldr (editLast.step rule) ([], none)).2 = none → ∀ before suffix,
        row = before ++ suffix → suffix ≠ [] → rule.match? suffix = none) ∧
      ∀ edited, (row.foldr (editLast.step rule) ([], none)).2 = some edited →
        ∃ before suffix found, row = before ++ suffix ∧ suffix ≠ [] ∧
          rule.match? suffix = some found ∧
          edited = before ++ (found.emitted ++ suffix.drop found.length) := by
    intro row
    induction row with
    | nil =>
        refine ⟨rfl, fun _ before suffix split nonempty => ?_, nofun⟩
        exact absurd (List.append_eq_nil_iff.1 split.symm).2 nonempty
    | cons d row ih =>
        rw [List.foldr_cons]
        generalize row.foldr (editLast.step rule) ([], none) = state at ih
        obtain ⟨suffix, edited?⟩ := state
        obtain ⟨rfl, missed, later⟩ := ih
        cases edited? with
        | some edited =>
            refine ⟨rfl, nofun, fun other same => ?_⟩
            obtain ⟨before, suffix, found, rfl, nonempty, matched, rfl⟩ := later edited rfl
            exact ⟨d :: before, suffix, found, rfl, nonempty, matched, (Option.some.inj same).symm⟩
        | none =>
            refine ⟨rfl, fun unmatched before rest split nonempty => ?_, fun other same => ?_⟩
            · cases before with
              | nil =>
                  rw [← List.nil_append rest, ← split]
                  exact Option.map_eq_none_iff.1 unmatched
              | cons e before => exact missed rfl before rest (List.cons.inj split).2 nonempty
            · obtain ⟨found, matched, rfl⟩ := Option.map_eq_some_iff.1 same
              exact ⟨[], d :: suffix, found, rfl, List.cons_ne_nil d suffix, matched, rfl⟩
  rw [editLast]
  cases last : (row.foldr (editLast.step rule) ([], none)).2 with
  | none => exact .inl ⟨rfl, (states row).2.1 last⟩
  | some edited => exact .inr ((states row).2.2 edited last)

/-- A rule that edits the last occurrence of each row takes a line as one row. -/
theorem apply_of_lastOfRow (last : rule.reach = .lastOfRow) (single : '\n' ∉ line) :
    rule.apply line = rule.editLast line := by
  rw [apply, last, rows_of_not_mem single]
  rfl

/-- No rule that writes no newline breaks a line. -/
theorem newline_not_mem_apply (unwritten : '\n' ∉ inkOf rule.pieces) (single : '\n' ∉ line) :
    '\n' ∉ rule.apply line := by
  intro member
  cases reach : rule.reach with
  | every =>
      rw [apply, reach] at member
      rcases mem_of_mem_editEvery_go member with none | old | new
      · contradiction
      · exact single old
      · exact unwritten new
  | lastOfRow =>
      rw [apply_of_lastOfRow reach single] at member
      rcases editLast_cases rule line with ⟨same, -⟩ |
        ⟨before, suffix, found, rfl, -, matched, same⟩
      · rw [same] at member
        exact single member
      · rw [same, List.mem_append, List.mem_append] at member
        rw [List.mem_append, not_or] at single
        rcases member with front | emitted | back
        · exact single.1 front
        · rcases Match.mem_of_mem_emitted matched emitted with old | new
          · exact single.2 old
          · exact unwritten new
        · exact single.2 (List.mem_of_mem_drop back)

end Rule

/-! ## What a rule reads -/

/-- Whether one of some pieces reads nothing without a legacy word in it. -/
def namesLegacy (pieces : List Piece) : Bool :=
  pieces.any fun piece =>
    match piece with
    | .oneOf literals _ => literals.all fun literal => legacyWords.any (occurs · literal.toList)
    | .blanks _ _ => false

theorem exists_word_of_match? {pieces : List Piece} (named : namesLegacy pieces = true)
    (here : Match.find? text pieces = some found) : ∃ word ∈ legacyWords, word <:+: text := by
  induction pieces generalizing text found with
  | nil => contradiction
  | cons piece pieces ih =>
      simp only [Match.find?, Option.bind_eq_bind, Option.bind_eq_some_iff] at here
      obtain ⟨read, first, following, later, -⟩ := here
      rw [namesLegacy, List.any_cons, Bool.or_eq_true] at named
      rcases named with own | other
      · cases piece with
        | blanks least edit => contradiction
        | oneOf literals edit =>
            obtain ⟨literal, listed, rfl⟩ := List.mem_map.1 (List.mem_of_find?_eq_some first)
            obtain ⟨word, legacy, inside⟩ := List.any_eq_true.1 (List.all_eq_true.1 own literal listed)
            have start := Piece.prefix_of_read? first
            exact ⟨word, legacy, (occurs_eq_true_iff.1 inside).trans start.isInfix⟩
      · obtain ⟨word, legacy, inside⟩ := ih other later
        exact ⟨word, legacy, inside.trans (List.drop_suffix _ _).isInfix⟩

/-- A line in which a rule reads nothing is left alone. -/
theorem Rule.apply_eq_self_of_unread (single : '\n' ∉ line)
    (unread : ∀ front back, line = front ++ back → back ≠ [] → rule.match? back = none) :
    rule.apply line = line := by
  cases reach : rule.reach with
  | every =>
      have kept : rule.editEvery (line ++ []) = line ++ rule.editEvery [] := by
        apply editEvery_append_of_none
        intro front back split nonempty
        rw [List.append_nil]
        exact unread front back split nonempty
      rw [List.append_nil, editEvery_nil, List.append_nil] at kept
      rw [apply, reach]
      exact kept
  | lastOfRow =>
      rw [apply_of_lastOfRow reach single]
      rcases editLast_cases rule line with ⟨same, -⟩ |
        ⟨before, suffix, found, split, nonempty, matched, -⟩
      · exact same
      · rw [unread before suffix split nonempty] at matched
        contradiction

/-- A line without a legacy word is left alone. -/
theorem Rule.apply_eq_self (named : namesLegacy rule.pieces = true) (single : '\n' ∉ line)
    (clear : ∀ word ∈ legacyWords, ¬ word <:+: line) : rule.apply line = line := by
  apply apply_eq_self_of_unread single
  intro front back split _
  rw [Option.eq_none_iff_forall_ne_some]
  intro found here
  obtain ⟨word, legacy, inside⟩ := exists_word_of_match? named here
  rw [split] at clear
  exact clear word legacy (inside.trans (List.suffix_append front back).isInfix)

/-! ## Lines under a dialect -/

namespace Dialect

theorem newline_not_mem_ink (dialect : Dialect) :
    ∀ rule ∈ dialect.rules, '\n' ∉ inkOf rule.pieces := by
  cases dialect <;> decide

theorem namesLegacy_rules (dialect : Dialect) :
    ∀ rule ∈ dialect.rules, namesLegacy rule.pieces = true := by
  cases dialect <;> decide

/-- A line stays a single line when its names are replaced. -/
theorem newline_not_mem_renameLine (dialect : Dialect) (single : '\n' ∉ line) :
    '\n' ∉ dialect.renameLine line := by
  have unwritten := newline_not_mem_ink dialect
  rw [renameLine]
  generalize dialect.rules = rules at unwritten
  induction rules generalizing line with
  | nil => exact single
  | cons rule rules ih =>
      rw [List.foldl_cons]
      apply ih
      · exact Rule.newline_not_mem_apply (unwritten rule List.mem_cons_self) single
      · exact fun other member => unwritten other (List.mem_cons_of_mem rule member)

/-- A line without a legacy word has no names to replace. -/
theorem renameLine_eq_self (dialect : Dialect) (single : '\n' ∉ line)
    (clear : ∀ word ∈ legacyWords, ¬ word <:+: line) : dialect.renameLine line = line := by
  have named := namesLegacy_rules dialect
  rw [renameLine]
  generalize dialect.rules = rules at named
  induction rules with
  | nil => rfl
  | cons rule rules ih =>
      rw [List.foldl_cons, Rule.apply_eq_self (named rule List.mem_cons_self) single clear]
      exact ih fun other member => named other (List.mem_cons_of_mem rule member)

end Dialect

end ProviderMigration.Identifier
