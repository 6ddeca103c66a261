import Mathlib.Data.List.Forall2
import ProviderMigration.Proofs.Identifier.Pattern

/-!
# Patterns and rules

A rule leaves out what a pattern says only to keep it: the text in front of the
pieces, and the one behind them. Otherwise the two agree, and the rule edits what
the pattern replaces.
-/

namespace ProviderMigration.Identifier

open Text

namespace Pattern

/-- Whether a piece can have read a text. -/
def Spells : Piece → List Char → Prop
  | .oneOf literals _, text => text ∈ literals.map String.toList
  | .blanks _ _, _ => True

theorem spells_of_read? {piece : Piece} {text read : List Char}
    (here : piece.read? text = some read) : Spells piece read ∧ read <+: text := by
  cases piece with
  | oneOf literals edit =>
      have prefixed := List.find?_some here
      exact ⟨List.mem_of_find?_eq_some here, List.isPrefixOf_iff_prefix.1 prefixed⟩
  | blanks least edit =>
      rw [Piece.read?] at here
      split at here
      next =>
        obtain rfl := Option.some.inj here
        exact ⟨trivial, List.takeWhile_prefix _⟩
      next => contradiction

theorem spells_of_readAll? {pieces : List Piece} {text : List Char} {texts : List (List Char)}
    (here : readAll? pieces text = some texts) :
    List.Forall₂ Spells pieces texts ∧ texts.flatten <+: text := by
  induction pieces generalizing text texts with
  | nil =>
      obtain rfl := Option.some.inj here
      exact ⟨.nil, List.nil_prefix⟩
  | cons piece pieces ih =>
      rw [readAll?_cons, Option.bind_eq_some_iff] at here
      obtain ⟨read, first, here⟩ := here
      obtain ⟨following, later, rfl⟩ := Option.map_eq_some_iff.1 here
      obtain ⟨spelled, rest, rfl⟩ := spells_of_read? first
      rw [List.drop_left] at later
      obtain ⟨spells, prefixed⟩ := ih later
      exact ⟨.cons spelled spells, (List.prefix_append_right_inj read).2 prefixed⟩

/-- Whether a sequence of pieces starts with a literal that is not empty. -/
def isInked : List Piece → Bool
  | .oneOf literals _ :: _ => literals.all (startsInk ·.toList)
  | _ => false

theorem flatten_ne_nil_of_isInked {pieces : List Piece} (inked : isInked pieces = true)
    {texts : List (List Char)} (spells : List.Forall₂ Spells pieces texts) :
    texts.flatten ≠ [] := by
  cases spells with
  | nil => contradiction
  | @cons piece text pieces texts spelled _ =>
      cases piece with
      | blanks least edit => contradiction
      | oneOf literals edit =>
          obtain ⟨literal, member, rfl⟩ := List.mem_map.1 spelled
          have starts := List.all_eq_true.1 inked literal member
          intro empty
          rw [List.flatten_cons, List.append_eq_nil_iff] at empty
          rw [empty.1] at starts
          contradiction

/-- How a pattern says what a rule says. In front of the pieces there may be any
text, which is kept, and any text may follow them. -/
structure Mirrors (pattern : Pattern) (free : Bool) (rule : Rule) : Prop where
  steady : Steady rule.pieces
  items : pattern.groups.flatten =
    (if free then [anything] else []) ++ (rule.pieces.map Item.of ++ [anything])
  inked : isInked rule.pieces = true
  expand : ∀ passed texts, (free = false → passed = []) → List.Forall₂ Spells rule.pieces texts →
    pattern.expand ((if free then [passed] else []) ++ (texts ++ [[]])) =
      passed ++ edited rule.pieces texts

variable {pattern : Pattern} {free : Bool} {rule : Rule}

theorem Mirrors.head?_readings (mirrors : pattern.Mirrors free rule) (text : List Char) :
    (readings (rule.pieces.map Item.of ++ [anything]) text).head? =
      (readAll? rule.pieces text).map (· ++ [[]]) :=
  Pattern.head?_readings mirrors.steady head?_readings_anything_last text

theorem Mirrors.match?_eq_none (mirrors : pattern.Mirrors free rule) {text : List Char}
    (missed : (readings (rule.pieces.map Item.of ++ [anything]) text).head? = none) :
    rule.match? text = none := by
  rw [mirrors.head?_readings, Option.map_eq_none_iff] at missed
  rw [Rule.match?, find?_eq_readAll?, missed]
  rfl

/-- Where a pattern can be read, so can its rule, up to a text that the pattern
keeps. -/
theorem Mirrors.exists_of_reading? (mirrors : pattern.Mirrors free rule) {text : List Char}
    {texts : List (List Char)} (here : pattern.reading? text = some texts) :
    ∃ passed rest found, text = passed ++ rest ∧ (free = false → passed = []) ∧
      texts = (if free then [passed] else []) ++ (found ++ [[]]) ∧
      readAll? rule.pieces rest = some found ∧
      ∀ front back, passed = front ++ back → back ≠ [] → rule.match? (back ++ rest) = none := by
  rw [reading?, mirrors.items] at here
  cases free with
  | true =>
      rw [if_pos rfl, List.singleton_append] at here
      obtain ⟨passed, rest, following, rfl, rfl, read, missed⟩ :=
        head?_readings_anything_eq_some here
      rw [mirrors.head?_readings, Option.map_eq_some_iff] at read
      obtain ⟨found, read, rfl⟩ := read
      refine ⟨passed, rest, found, rfl, fun absent => Bool.noConfusion absent, rfl, read, ?_⟩
      intro front back split nonempty
      exact mirrors.match?_eq_none (missed front back split nonempty)
  | false =>
      have read := here
      rw [if_neg Bool.false_ne_true, List.nil_append, mirrors.head?_readings,
        Option.map_eq_some_iff] at read
      obtain ⟨found, read, rfl⟩ := read
      refine ⟨[], text, found, rfl, fun _ => rfl, rfl, read, ?_⟩
      intro front back split nonempty
      exact absurd (List.append_eq_nil_iff.1 split.symm).2 nonempty

theorem Mirrors.match?_of_reading?_eq_none (mirrors : pattern.Mirrors free rule)
    {text : List Char} (missed : pattern.reading? text = none) : rule.match? text = none := by
  rw [reading?, mirrors.items] at missed
  apply mirrors.match?_eq_none
  cases free with
  | true => exact head?_readings_anything_eq_none missed
  | false => exact missed

/-- A pattern replaces what its rule edits. -/
theorem Mirrors.replaceAll_eq_editEvery (mirrors : pattern.Mirrors free rule) (text : List Char) :
    pattern.replaceAll text = rule.editEvery text := by
  -- The pattern takes the characters in front of the pieces at one stroke and the rule
  -- takes them one by one, so the induction is on the length of what is left.
  induction size : text.length using Nat.strongRecOn generalizing text with
  | ind length ih =>
  subst size
  cases here : pattern.reading? text with
  | some texts =>
      obtain ⟨passed, rest, found, rfl, bound, rfl, read, missed⟩ := mirrors.exists_of_reading? here
      obtain ⟨spells, after, rfl⟩ := spells_of_readAll? read
      have nonempty := flatten_ne_nil_of_isInked mirrors.inked spells
      have all : ((if free then [passed] else []) ++ (found ++ [[]])).flatten =
          passed ++ found.flatten := by
        cases free with
        | true => simp
        | false => simp [bound rfl]
      have matched : rule.match? (found.flatten ++ after) =
          some ⟨edited rule.pieces found, found.flatten.length⟩ := by
        rw [Rule.match?, find?_eq_readAll?, read]
        rfl
      have shorter : after.length < (passed ++ (found.flatten ++ after)).length := by
        have positive := List.length_pos_iff.2 nonempty
        rw [List.length_append, List.length_append]
        omega
      calc
        pattern.replaceAll (passed ++ (found.flatten ++ after)) =
            passed ++ edited rule.pieces found ++ pattern.replaceAll after := by
          rw [← List.append_assoc] at here ⊢
          rw [replaceAll_of_some here all (List.append_ne_nil_of_right_ne_nil _ nonempty),
            mirrors.expand passed found bound spells]
        _ = passed ++ edited rule.pieces found ++ rule.editEvery after := by
          rw [ih after.length shorter after rfl]
        _ = passed ++ rule.editEvery (found.flatten ++ after) := by
          rw [Rule.editEvery_of_some nonempty matched rfl, List.append_assoc]
        _ = rule.editEvery (passed ++ (found.flatten ++ after)) :=
          (Rule.editEvery_append_of_none missed).symm
  | none =>
      cases text with
      | nil => rw [replaceAll, Rule.editEvery_nil]
      | cons c rest =>
          rw [replaceAll_cons_of_none here,
            Rule.editEvery_cons_of_none (mirrors.match?_of_reading?_eq_none here),
            ih rest.length (by simp) rest rfl]

theorem Mirrors.exists_of_occurs (mirrors : pattern.Mirrors free rule) {text : List Char}
    (occurs : pattern.Occurs text) :
    ∃ before after, text = before ++ after ∧ rule.match? after ≠ none := by
  obtain ⟨before, after, rfl, some⟩ := occurs
  cases here : pattern.reading? after with
  | none => exact absurd (List.head?_eq_none_iff.1 here) some
  | some texts =>
      obtain ⟨passed, rest, found, rfl, -, -, read, -⟩ := mirrors.exists_of_reading? here
      refine ⟨before ++ passed, rest, by rw [List.append_assoc], ?_⟩
      rw [Rule.match?, find?_eq_readAll?, read]
      exact Option.some_ne_none _

end Pattern

end ProviderMigration.Identifier
