import ProviderMigration.Proofs.Identifier.Literal

/-!
# The structure of state files

A state file is JSON: strings in double quotes, in which a backslash takes its meaning from the
character that follows, and structural characters, numbers and literals around them. Renaming a
state file changes letters and underscores within strings only. The quotes and backslashes that
a rule reads are put back where they were, so a reader of JSON comes to each of them in the same
place, and finds the same structure around the strings.
-/

namespace ProviderMigration.Identifier

open Text Block Column

/-! ## Characters -/

/-- A character that is in no name. -/
def isStructural (c : Char) : Bool := !c.isLower && c != '_'

/-- An exchange of name characters for others. -/
def KeepsStructure (old new : List Char) : Prop :=
  old.filter isStructural = new.filter isStructural

theorem KeepsStructure.of_aligns {text other : List Char}
    (aligned : Aligns KeepsStructure text other) : KeepsStructure text other := by
  obtain ⟨columns, rfl, rfl, keeps⟩ := aligned
  rw [KeepsStructure]
  induction columns with
  | nil => rfl
  | cons column columns ih =>
      rw [oldText_cons, newText_cons, List.filter_append, List.filter_append, ih keeps.of_cons]
      cases column with
      | same c => rfl
      | changed old new => exact congrArg (· ++ _) (keeps old new List.mem_cons_self)

/-! ## Strings -/

/-- Where a reader of JSON stands: outside the strings, inside a string, or behind a backslash
in a string. -/
inductive Place where
  | outside
  | inside
  | escaped
  deriving DecidableEq, Repr

namespace Place

/-- The place behind one more character. -/
def step : Place → Char → Place
  | outside, c => if c = '"' then inside else outside
  | inside, c => if c = '"' then outside else if c = '\\' then escaped else inside
  | escaped, _ => inside

/-- The place behind a text. -/
def after (place : Place) (text : List Char) : Place := text.foldl step place

/-- Whether a character belongs to a string and is not one of its quotes. -/
def hides : Place → Char → Bool
  | outside, _ => false
  | inside, c => c != '"'
  | escaped, _ => true

end Place

/-- A text without what stands in its strings. The quotes around the strings are left. -/
def skeleton (place : Place) : List Char → List Char
  | [] => []
  | c :: text =>
      if place.hides c then skeleton (place.step c) text else c :: skeleton (place.step c) text

theorem skeleton_append (place : Place) (front back : List Char) :
    skeleton place (front ++ back) =
      skeleton place front ++ skeleton (place.after front) back := by
  induction front generalizing place with
  | nil => rfl
  | cons c front ih =>
      have later := ih (place.step c)
      rw [List.cons_append, skeleton, skeleton]
      split
      next => exact later
      next => exact congrArg (c :: ·) later

/-- Whether the only legacy words of a text are in its strings. -/
def IsQuoted (place : Place) (text : List Char) : Prop :=
  ∀ word ∈ legacyWords, ¬ word <:+: skeleton place text

theorem IsQuoted.of_append {place : Place} {front back : List Char}
    (quoted : IsQuoted place (front ++ back)) :
    IsQuoted place front ∧ IsQuoted (place.after front) back := by
  rw [IsQuoted, skeleton_append] at quoted
  constructor
  · intro word legacy within
    exact quoted word legacy (within.trans (List.prefix_append _ _).isInfix)
  · intro word legacy within
    exact quoted word legacy (within.trans (List.suffix_append _ _).isInfix)

/-- What JSON has outside its strings: structural characters and blanks, and the characters of
numbers and of the literals `true`, `false` and `null`. -/
def jsonCharacters : List Char := "\x7b\x7d[]:,\" \t\r\n0123456789+-.eEtrufalsn".toList

theorem isQuoted_of_json {place : Place} {text : List Char}
    (json : ∀ c ∈ skeleton place text, c ∈ jsonCharacters) : IsQuoted place text := by
  have foreign : ∀ word ∈ legacyWords, word.all jsonCharacters.contains = false := by decide
  intro word legacy within
  obtain ⟨c, member, absent⟩ := List.all_eq_false.1 (foreign word legacy)
  exact absent (List.contains_iff_mem.2 (json c (within.subset member)))

/-- An exchange that a reader does not notice unless it happens outside the strings. -/
def IsUnseen (old new : List Char) : Prop :=
  ∀ place, IsQuoted place old →
    skeleton place new = skeleton place old ∧ place.after new = place.after old

theorem IsUnseen.of_aligns {text other : List Char} (aligned : Aligns IsUnseen text other) :
    IsUnseen text other := by
  obtain ⟨columns, rfl, rfl, unseen⟩ := aligned
  induction columns with
  | nil => exact fun place quoted => ⟨rfl, rfl⟩
  | cons column columns ih =>
      intro place quoted
      rw [oldText_cons] at quoted ⊢
      rw [newText_cons]
      obtain ⟨first, later⟩ := quoted.of_append
      have here : skeleton place column.new = skeleton place column.old ∧
          place.after column.new = place.after column.old := by
        cases column with
        | same c => exact ⟨rfl, rfl⟩
        | changed old new => exact unseen old new List.mem_cons_self place first
      have rest := ih unseen.of_cons (place.after column.old) later
      constructor
      · rw [skeleton_append, skeleton_append, here.1, here.2, rest.1]
      · simp only [Place.after, List.foldl_append] at here rest ⊢
        rw [here.2, rest.2]

/-! ## State files -/

theorem keepsStructure_of_exchanges {rule : Rule} (listed : rule ∈ Dialect.state.rules)
    {old new : List Char} (exchanges : rule.Exchanges old new) : KeepsStructure old new := by
  have known : ∀ rule ∈ Dialect.state.rules, ∀ pair ∈ exchangesOf rule.pieces,
      pair.1.filter isStructural = pair.2.filter isStructural := by decide
  exact known rule listed (old, new) exchanges

theorem isUnseen_of_exchanges {rule : Rule} (listed : rule ∈ Dialect.state.rules)
    {old new : List Char} (exchanges : rule.Exchanges old new) : IsUnseen old new := by
  have known : ∀ rule ∈ Dialect.state.rules, ∀ pair ∈ exchangesOf rule.pieces,
      ∀ place ∈ [Place.outside, .inside, .escaped],
        (skeleton place pair.2 = skeleton place pair.1 ∧ place.after pair.2 = place.after pair.1) ∨
          ∃ word ∈ legacyWords, occurs word (skeleton place pair.1) = true := by decide
  intro place quoted
  have every : place ∈ [Place.outside, .inside, .escaped] := by cases place <;> decide
  rcases known rule listed (old, new) exchanges place every with same | ⟨word, legacy, within⟩
  · exact same
  · exact absurd (occurs_eq_true_iff.1 within) (quoted word legacy)

/-- Renaming a file that is not a configuration leaves every character alone that is neither a
lowercase letter nor an underscore: the characters of a JSON text that have a meaning stay as
many as they were, and in the same order. If all legacy words are in strings, as in every JSON
text, then the text around the strings stays the same, and so does the number of strings. -/
theorem renameText_keeps_structure {extension : String}
    (state : Dialect.ofExtension extension = .state) (source : List Char) :
    ((Dialect.ofExtension extension).renameText source).filter isStructural =
        (normalizeEnds source).filter isStructural ∧
      ((∀ word ∈ legacyWords, ¬ word <:+: skeleton .outside (normalizeEnds source)) →
        skeleton .outside ((Dialect.ofExtension extension).renameText source) =
          skeleton .outside (normalizeEnds source)) := by
  rw [state]
  have keeps : KeepsStructure (normalizeEnds source) (Dialect.state.renameText source) := by
    apply Dialect.related_renameText_state
    · exact fun text => rfl
    · exact fun text middle other first last => Eq.trans first last
    · intro rule listed text other aligned
      exact .of_aligns (aligned.imp fun _ _ => keepsStructure_of_exchanges listed)
  have unseen : IsUnseen (normalizeEnds source) (Dialect.state.renameText source) := by
    apply Dialect.related_renameText_state
    · exact fun text place quoted => ⟨rfl, rfl⟩
    · intro text middle other first last place quoted
      obtain ⟨same, ends⟩ := first place quoted
      rw [IsQuoted, ← same] at quoted
      obtain ⟨same', ends'⟩ := last place quoted
      exact ⟨same'.trans same, ends'.trans ends⟩
    · intro rule listed text other aligned
      exact .of_aligns (aligned.imp fun _ _ => isUnseen_of_exchanges listed)
  exact ⟨keeps.symm, fun quoted => (unseen .outside quoted).1⟩

/-- A state file with an escaped quote in front of a legacy name. -/
def stateText : List Char :=
  "\x7b\"id\": \"\\\"metal_a\", \"at\": \"equinix/metal\\\"\"\x7d".toList

theorem renameText_keeps_structure_of_stateText :
    ((Dialect.ofExtension "tfstate").renameText stateText).filter isStructural =
        (normalizeEnds stateText).filter isStructural ∧
      skeleton .outside ((Dialect.ofExtension "tfstate").renameText stateText) =
        skeleton .outside (normalizeEnds stateText) := by
  have state : Dialect.ofExtension "tfstate" = .state := by decide
  have json : ∀ c ∈ skeleton .outside (normalizeEnds stateText), c ∈ jsonCharacters :=
    List.all_iff_forall_prop.1 (by decide)
  exact ⟨(renameText_keeps_structure state stateText).1,
    (renameText_keeps_structure state stateText).2 (isQuoted_of_json json)⟩

/-- The skeleton of that file, with both names replaced in the strings. -/
example : (Dialect.state.renameText stateText =
    "\x7b\"id\": \"\\\"equinix_metal_a\", \"at\": \"equinix/equinix\\\"\"\x7d\n".toList) ∧
      skeleton .outside stateText = "\x7b\"\": \"\", \"\": \"\"\x7d".toList := by decide

end ProviderMigration.Identifier
