import ProviderMigration.Proofs.Block.Alignment
import ProviderMigration.Proofs.Identifier.Absence

/-!
# Rules that read literals

The rules for state files leave no blanks between the texts that they read. Such a rule
exchanges one of a few texts for another one wherever it reads anything at all. So a line is
aligned with what the rule makes of it: the two differ in columns that hold an exchange of the
rule, and nowhere else.
-/

namespace ProviderMigration.Identifier

open Text Block Column

/-! ## The exchanges of a rule -/

/-- The texts that some pieces read, each with what takes its place. Pieces that may have
blanks between them do not read single texts. -/
def exchangesOf : List Piece → List (List Char × List Char)
  | [] => [([], [])]
  | .oneOf literals edit :: pieces =>
      literals.flatMap fun literal =>
        (exchangesOf pieces).map fun (old, new) =>
          (literal.toList ++ old, edit.apply literal.toList ++ new)
  | .blanks _ _ :: _ => []

/-- Whether a piece is a choice of literals of which none starts with another one. -/
def isSeparate : Piece → Bool
  | .oneOf literals _ =>
      literals.all fun one => literals.all fun other =>
        !one.toList.isPrefixOf other.toList || one == other
  | .blanks _ _ => false

theorem find?_eq_some_iff {pieces : List Piece} (separate : pieces.all isSeparate = true)
    {text : List Char} {found : Match} :
    Match.find? text pieces = some found ↔
      ∃ old new, (old, new) ∈ exchangesOf pieces ∧ old <+: text ∧ found = ⟨new, old.length⟩ := by
  induction pieces generalizing text found with
  | nil =>
      rw [Match.find?_nil_iff]
      constructor
      · rintro rfl
        exact ⟨[], [], List.mem_singleton_self _, List.nil_prefix, rfl⟩
      · rintro ⟨old, new, listed, -, rfl⟩
        obtain ⟨rfl, rfl⟩ := Prod.mk.inj (List.mem_singleton.1 listed)
        rfl
  | cons piece pieces ih =>
      rw [List.all_cons, Bool.and_eq_true] at separate
      obtain ⟨here, later⟩ := separate
      cases piece with
      | blanks least edit => contradiction
      | oneOf literals edit =>
          have apart : ∀ one ∈ literals, ∀ other ∈ literals,
              one.toList <+: other.toList → one = other := by
            intro one member other member' start
            have either := List.all_eq_true.1 (List.all_eq_true.1 here one member) other member'
            simpa [List.isPrefixOf_iff_prefix.2 start] using either
          rw [Match.find?_oneOf apart]
          simp only [exchangesOf, List.mem_flatMap, List.mem_map]
          constructor
          · rintro ⟨literal, member, rest, following, rfl, found, rfl⟩
            obtain ⟨old, new, listed, start, rfl⟩ := (ih later).1 found
            refine ⟨_, _, ⟨literal, member, (old, new), listed, rfl⟩, ?_, ?_⟩
            · exact (List.prefix_append_right_inj _).2 start
            · rw [List.length_append]
          · rintro ⟨_, _, ⟨literal, member, ⟨old, new⟩, listed, same⟩, ⟨rest, rfl⟩, rfl⟩
            obtain ⟨rfl, rfl⟩ := Prod.mk.inj same
            refine ⟨literal, member, old ++ rest, ⟨new, old.length⟩, ?_, ?_, ?_⟩
            · rw [List.append_assoc]
            · exact (ih later).2 ⟨old, new, listed, List.prefix_append old rest, rfl⟩
            · rw [List.length_append]

namespace Rule

variable {rule : Rule} {text line : List Char}

/-- A text that a rule reads, and what takes its place. -/
def Exchanges (rule : Rule) (old new : List Char) : Prop := (old, new) ∈ exchangesOf rule.pieces

/-- A rule that reads one of a few texts, none of them empty. -/
structure Literal (rule : Rule) : Prop where
  separate : rule.pieces.all isSeparate = true
  solid : ∀ pair ∈ exchangesOf rule.pieces, pair.1 ≠ []

theorem Literal.match?_eq_some_iff (literal : rule.Literal) {found : Match} :
    rule.match? text = some found ↔
      ∃ old new, rule.Exchanges old new ∧ old <+: text ∧ found = ⟨new, old.length⟩ :=
  find?_eq_some_iff literal.separate

theorem Literal.match?_eq_none_iff (literal : rule.Literal) :
    rule.match? text = none ↔ ∀ old new, rule.Exchanges old new → ¬ old <+: text := by
  rw [Option.eq_none_iff_forall_ne_some]
  constructor
  · intro missed old new exchanges start
    exact missed _ (literal.match?_eq_some_iff.2 ⟨old, new, exchanges, start, rfl⟩)
  · intro missed found here
    obtain ⟨old, new, exchanges, start, -⟩ := literal.match?_eq_some_iff.1 here
    exact missed old new exchanges start

/-! ## Alignment -/

/-- A rule that edits every occurrence is a sequence of exchanges. -/
@[elab_as_elim] theorem Literal.induction (literal : rule.Literal)
    {motive : List Char → List Char → Prop} (nil : motive [] [])
    (exchange : ∀ old new rest, rule.Exchanges old new → motive rest (rule.editEvery rest) →
      motive (old ++ rest) (new ++ rule.editEvery rest))
    (pass : ∀ c rest, rule.match? (c :: rest) = none → motive rest (rule.editEvery rest) →
      motive (c :: rest) (c :: rule.editEvery rest))
    (text : List Char) : motive text (rule.editEvery text) := by
  induction size : text.length using Nat.strongRecOn generalizing text with
  | ind length ih =>
  subst size
  cases here : rule.match? text with
  | some found =>
      obtain ⟨old, new, exchanges, ⟨rest, rfl⟩, rfl⟩ := literal.match?_eq_some_iff.1 here
      have positive := List.length_pos_iff.2 (literal.solid _ exchanges)
      rw [editEvery_of_some (literal.solid _ exchanges) here rfl]
      exact exchange old new rest exchanges (ih rest.length (by simpa using positive) rest rfl)
  | none =>
      cases text with
      | nil => exact nil
      | cons c rest =>
          rw [editEvery_cons_of_none here]
          exact pass c rest here (ih rest.length (by simp) rest rfl)

theorem Literal.aligns_editEvery (literal : rule.Literal) (text : List Char) :
    Aligns rule.Exchanges text (rule.editEvery text) := by
  induction text using literal.induction with
  | nil => exact .refl []
  | exchange old new rest exchanges ih => exact (Aligns.of_meets exchanges).append ih
  | pass c rest missed ih => exact ih.cons c

/-- A rule that edits the last occurrence of a row exchanges one text, or keeps a row in which
there is none to exchange. -/
theorem Literal.editLast_cases (literal : rule.Literal) (row : List Char) :
    (rule.editLast row = row ∧ ∀ old new, rule.Exchanges old new → ¬ old <:+: row) ∨
      ∃ before old new after, rule.Exchanges old new ∧ row = before ++ (old ++ after) ∧
        rule.editLast row = before ++ (new ++ after) := by
  rcases Rule.editLast_cases rule row with
    ⟨same, missed⟩ | ⟨before, suffix, found, rfl, -, here, edited⟩
  · refine .inl ⟨same, fun old new exchanges within => ?_⟩
    obtain ⟨before, after, split⟩ := within
    rw [List.append_assoc] at split
    have solid : old ++ after ≠ [] :=
      List.append_ne_nil_of_left_ne_nil (literal.solid _ exchanges) after
    have unread := literal.match?_eq_none_iff.1 (missed before (old ++ after) split.symm solid)
    exact unread old new exchanges (List.prefix_append old after)
  · obtain ⟨old, new, exchanges, ⟨after, rfl⟩, rfl⟩ := literal.match?_eq_some_iff.1 here
    rw [List.drop_left] at edited
    exact .inr ⟨before, old, new, after, exchanges, rfl, edited⟩

theorem Literal.aligns_editLast (literal : rule.Literal) (row : List Char) :
    Aligns rule.Exchanges row (rule.editLast row) := by
  rcases literal.editLast_cases row with
    ⟨same, -⟩ | ⟨before, old, new, after, exchanges, rfl, edited⟩
  · rw [same]
    exact .refl row
  · rw [edited]
    exact (Aligns.refl before).append ((Aligns.of_meets exchanges).append (.refl after))

/-- A line and what a rule makes of it differ in exchanges of the rule. -/
theorem Literal.aligns_apply (literal : rule.Literal) (single : '\n' ∉ line) :
    Aligns rule.Exchanges line (rule.apply line) := by
  cases reach : rule.reach with
  | every =>
      rw [apply, reach]
      exact literal.aligns_editEvery line
  | lastOfRow =>
      rw [apply_of_lastOfRow reach single]
      exact literal.aligns_editLast line

end Rule

/-! ## The rules for state files -/

namespace Dialect

theorem literal_state : ∀ rule ∈ state.rules, rule.Literal := by
  have separate : ∀ rule ∈ state.rules, rule.pieces.all isSeparate = true := by decide
  have solid : ∀ rule ∈ state.rules, ∀ pair ∈ exchangesOf rule.pieces, pair.1 ≠ [] := by decide
  exact fun rule member => ⟨separate rule member, solid rule member⟩

/-- What holds of texts that differ in exchanges of a rule for state files holds of the lines
of a text and of these lines with their names replaced. -/
theorem related_renameText_state {Related : List Char → List Char → Prop}
    (refl : ∀ text, Related text text)
    (trans : ∀ text middle other, Related text middle → Related middle other → Related text other)
    (aligned : ∀ rule ∈ state.rules, ∀ text other, Aligns rule.Exchanges text other →
      Related text other) (source : List Char) :
    Related (normalizeEnds source) (state.renameText source) := by
  have literal := literal_state
  have unwritten := newline_not_mem_ink state
  have single : ∀ line ∈ lines source, '\n' ∉ line := fun line member =>
    (within_of_mem_lines member).2
  have renamed : state.renameText source = unlines ((lines source).map fun line =>
      state.rules.foldl (fun line rule => rule.apply line) line) := rfl
  rw [normalizeEnds, renamed]
  generalize lines source = rows at single
  generalize state.rules = rules at literal unwritten aligned
  -- The rows go through one rule after the other.
  induction rules generalizing rows with
  | nil =>
      rw [List.map_congr_left fun row _ => List.foldl_nil, List.map_id']
      exact refl _
  | cons rule rules ih =>
      have listed : rule ∈ rule :: rules := List.mem_cons_self
      have first : Related (unlines rows) (unlines (rows.map rule.apply)) :=
        aligned rule listed _ _ <| Aligns.unlines fun row member =>
          (literal rule listed).aligns_apply (single row member)
      have applied : ∀ row ∈ rows.map rule.apply, '\n' ∉ row := by
        rw [List.forall_mem_map]
        intro row member
        exact Rule.newline_not_mem_apply (unwritten rule listed) (single row member)
      have rest := ih (rows.map rule.apply) applied
        (fun other member => literal other (List.mem_cons_of_mem rule member))
        (fun other member => unwritten other (List.mem_cons_of_mem rule member))
        (fun other member => aligned other (List.mem_cons_of_mem rule member))
      rw [List.map_map] at rest
      exact trans _ _ _ first rest

end Dialect

end ProviderMigration.Identifier
