import ProviderMigration.Text.Blank
import ProviderMigration.Text.Line

/-!
# Renaming rules

A rule describes a stretch of a text as a sequence of pieces and says what
becomes of each. Reading a stretch never has to go back: no literal of a piece
is a prefix of another one, and a run of blanks is taken whole because no piece
that follows one starts with a blank.
-/

namespace ProviderMigration.Identifier

open Text

/-- What becomes of the text of a piece. -/
inductive Edit where
  | keep
  | replace (text : String)
  deriving DecidableEq, Repr

/-- The text that stands in place of the text read. -/
def Edit.apply (edit : Edit) (read : List Char) : List Char :=
  match edit with
  | .keep => read
  | .replace text => text.toList

/-- One piece of a stretch. -/
inductive Piece where
  /-- One of several literals. -/
  | oneOf (literals : List String) (edit : Edit)
  /-- All blanks that follow, at least `least` of them. -/
  | blanks (least : Nat) (edit : Edit)
  deriving DecidableEq, Repr

/-- The text of a piece at the start of `text`. -/
def Piece.read? (piece : Piece) (text : List Char) : Option (List Char) :=
  match piece with
  | .oneOf literals _ => (literals.map String.toList).find? (·.isPrefixOf text)
  | .blanks least _ =>
      let run := text.takeWhile isBlank
      if least ≤ run.length then some run else none

/-- What becomes of the text of a piece. -/
def Piece.edit : Piece → Edit
  | .oneOf _ edit => edit
  | .blanks _ edit => edit

/-- A stretch that a sequence of pieces matches: the text that takes its place,
and its length. -/
structure Match where
  emitted : List Char
  length : Nat
  deriving DecidableEq, Repr

/-- The stretch at the start of `text` that is made of the given pieces. -/
def Match.find? (text : List Char) : List Piece → Option Match
  | [] => some ⟨[], 0⟩
  | piece :: pieces => do
      let read ← piece.read? text
      let following ← find? (text.drop read.length) pieces
      return ⟨piece.edit.apply read ++ following.emitted, read.length + following.length⟩

/-- Which of its occurrences a rule edits. -/
inductive Reach where
  /-- From left to right, every occurrence that begins after the one before it
  has ended. -/
  | every
  /-- Only the last occurrence of each row. -/
  | lastOfRow
  deriving DecidableEq, Repr

/-- A rule has a name by which a chain of rules is described. -/
structure Rule where
  name : String
  reach : Reach
  pieces : List Piece
  deriving DecidableEq, Repr

namespace Rule

/-- The occurrence of the rule at the start of `text`. -/
def match? (rule : Rule) (text : List Char) : Option Match :=
  Match.find? text rule.pieces

/-- Edits every occurrence. -/
def editEvery (rule : Rule) (text : List Char) : List Char :=
  go [] 0 text
where
  /-- `done` is the text produced so far, latest first. The next `skip`
  characters belong to an occurrence that is edited already. -/
  go (done : List Char) (skip : Nat) : List Char → List Char
    | [] => done.reverse
    | c :: rest =>
        match skip with
        | skip + 1 => go done skip rest
        | 0 =>
            match rule.match? (c :: rest) with
            | some found => go (found.emitted.reverse ++ done) (found.length - 1) rest
            | none => go (c :: done) 0 rest

/-- Edits the last occurrence in a row. The row is read from its end, so the
first occurrence that is met is the last one. -/
def editLast (rule : Rule) (row : List Char) : List Char :=
  (row.foldr step ([], none)).2.getD row
where
  /-- One more character in front of a suffix. With the suffix goes its edited
  form, once an occurrence has been met. -/
  step (c : Char) (state : List Char × Option (List Char)) :
      List Char × Option (List Char) :=
    let suffix := c :: state.1
    match state.2 with
    | some edited => (suffix, some (c :: edited))
    | none =>
        (suffix, (rule.match? suffix).map fun found =>
          found.emitted ++ suffix.drop found.length)

/-- The text with the occurrences in the rule's reach edited. -/
def apply (rule : Rule) (text : List Char) : List Char :=
  match rule.reach with
  | .every => rule.editEvery text
  | .lastOfRow =>
      let (rows, remainder) := rows text
      unlines (rows.map rule.editLast) ++ rule.editLast remainder

end Rule

/-! ## Reading pieces -/

theorem Match.find?_oneOf {literals : List String} {edit : Edit} {pieces : List Piece}
    (separate : ∀ one ∈ literals, ∀ other ∈ literals, one.toList <+: other.toList → one = other)
    {text : List Char} {found : Match} :
    Match.find? text (.oneOf literals edit :: pieces) = some found ↔
      ∃ literal ∈ literals, ∃ rest following, text = literal.toList ++ rest ∧
        Match.find? rest pieces = some following ∧
        found = ⟨edit.apply literal.toList ++ following.emitted,
          literal.toList.length + following.length⟩ := by
  simp only [Match.find?, Piece.read?, Piece.edit, Option.bind_eq_bind, Option.bind_eq_some_iff,
    Option.pure_def, Option.some.injEq]
  constructor
  · rintro ⟨read, first, following, found, rfl⟩
    obtain ⟨literal, member, rfl⟩ := List.mem_map.1 (List.mem_of_find?_eq_some first)
    have here := List.find?_some first
    obtain ⟨rest, rfl⟩ := List.isPrefixOf_iff_prefix.1 here
    rw [List.drop_left] at found
    exact ⟨literal, member, rest, following, rfl, found, rfl⟩
  · rintro ⟨literal, member, rest, following, rfl, found, rfl⟩
    refine ⟨literal.toList, ?_, following, by rwa [List.drop_left], rfl⟩
    have here : literal.toList.isPrefixOf (literal.toList ++ rest) = true := by simp
    cases first : (literals.map String.toList).find? (·.isPrefixOf (literal.toList ++ rest)) with
    | none =>
        have missed := List.find?_eq_none.1 first literal.toList (List.mem_map_of_mem member)
        exact absurd here missed
    | some read =>
        obtain ⟨other, otherMember, rfl⟩ := List.mem_map.1 (List.mem_of_find?_eq_some first)
        have otherHere := List.find?_some first
        rw [List.isPrefixOf_iff_prefix] at otherHere
        rcases List.prefix_or_prefix_of_prefix otherHere (List.prefix_append _ _) with one | one
        · rw [separate other otherMember literal member one]
        · rw [separate literal member other otherMember one]

theorem Match.find?_literal {literal : String} {edit : Edit} {pieces : List Piece}
    {text : List Char} {found : Match} :
    Match.find? text (.oneOf [literal] edit :: pieces) = some found ↔
      ∃ rest following, text = literal.toList ++ rest ∧
        Match.find? rest pieces = some following ∧
        found = ⟨edit.apply literal.toList ++ following.emitted,
          literal.toList.length + following.length⟩ := by
  have separate : ∀ one ∈ [literal], ∀ other ∈ [literal],
      one.toList <+: other.toList → one = other := by
    intro one member other member' _
    rw [List.mem_singleton.1 member, List.mem_singleton.1 member']
  rw [find?_oneOf separate]
  simp

theorem Match.find?_nil_iff {text : List Char} {found : Match} :
    Match.find? text [] = some found ↔ found = ⟨[], 0⟩ := by
  rw [Match.find?, Option.some.injEq, eq_comm]

theorem Match.find?_blanks {least : Nat} {edit : Edit} {pieces : List Piece} {text : List Char}
    {found : Match} :
    Match.find? text (.blanks least edit :: pieces) = some found ↔
      least ≤ (text.takeWhile isBlank).length ∧
        ∃ following, Match.find? (text.dropWhile isBlank) pieces = some following ∧
          found = ⟨edit.apply (text.takeWhile isBlank) ++ following.emitted,
            (text.takeWhile isBlank).length + following.length⟩ := by
  have rest : text.drop (text.takeWhile isBlank).length = text.dropWhile isBlank := by
    have divided := List.takeWhile_append_dropWhile (p := isBlank) (l := text)
    calc
      text.drop (text.takeWhile isBlank).length =
          (text.takeWhile isBlank ++ text.dropWhile isBlank).drop
            (text.takeWhile isBlank).length := by rw [divided]
      _ = text.dropWhile isBlank := List.drop_left
  simp only [Match.find?, Piece.read?, Piece.edit, Option.bind_eq_bind, Option.pure_def]
  by_cases enough : least ≤ (text.takeWhile isBlank).length
  · rw [if_pos enough, Option.bind_some, rest, Option.bind_eq_some_iff]
    constructor
    · rintro ⟨following, found, same⟩
      exact ⟨enough, following, found, (Option.some.inj same).symm⟩
    · rintro ⟨-, following, found, rfl⟩
      exact ⟨following, found, rfl⟩
  · rw [if_neg enough, Option.bind_none]
    constructor
    · intro found
      contradiction
    · intro found
      exact absurd found.1 enough

/-! ## Editing every occurrence -/

namespace Rule

variable {rule : Rule}

private theorem editEvery_go_eq (done : List Char) (skip : Nat) (text : List Char) :
    editEvery.go rule done skip text = done.reverse ++ rule.editEvery (text.drop skip) := by
  induction text generalizing done skip with
  | nil => simp [editEvery, editEvery.go]
  | cons c rest ih =>
      cases skip with
      | succ skip =>
          rw [editEvery.go, ih]
          rfl
      | zero =>
          rw [List.drop_zero, editEvery, editEvery.go, editEvery.go]
          cases rule.match? (c :: rest) with
          | none =>
              dsimp only
              rw [ih (c :: done), ih [c]]
              simp
          | some found =>
              dsimp only
              rw [ih (found.emitted.reverse ++ done), ih (found.emitted.reverse ++ [])]
              simp

@[simp] theorem editEvery_nil : rule.editEvery [] = [] := rfl

theorem editEvery_cons_of_none {c : Char} {rest : List Char}
    (missed : rule.match? (c :: rest) = none) :
    rule.editEvery (c :: rest) = c :: rule.editEvery rest := by
  rw [editEvery, editEvery.go, missed]
  exact editEvery_go_eq [c] 0 rest

theorem editEvery_of_some {text rest : List Char} {found : Match} (nonempty : text ≠ [])
    (here : rule.match? (text ++ rest) = some found) (length : found.length = text.length) :
    rule.editEvery (text ++ rest) = found.emitted ++ rule.editEvery rest := by
  cases text with
  | nil => exact absurd rfl nonempty
  | cons c text =>
      rw [List.cons_append] at here ⊢
      rw [editEvery, editEvery.go, here]
      dsimp only
      rw [editEvery_go_eq, length]
      simp

/-- A text in which no occurrence begins is kept. -/
theorem editEvery_append_of_none {passed rest : List Char}
    (missed : ∀ front back, passed = front ++ back → back ≠ [] →
      rule.match? (back ++ rest) = none) :
    rule.editEvery (passed ++ rest) = passed ++ rule.editEvery rest := by
  induction passed with
  | nil => rfl
  | cons c passed ih =>
      have here : rule.match? (c :: (passed ++ rest)) = none :=
        missed [] (c :: passed) rfl (List.cons_ne_nil c passed)
      rw [List.cons_append, editEvery_cons_of_none here, ih]
      · rfl
      · intro front back split
        exact missed (c :: front) back (congrArg (c :: ·) split)

end Rule

end ProviderMigration.Identifier
