import ProviderMigration.Text.Occurrence

/-!
# Lines

A text is a sequence of rows, each ended by a newline, and a remainder that
holds no newline. A line is a row without the carriage return that may stand in
front of its newline; a remainder that is not empty is the last line. Files are
read as lines and written with every line ended by a single newline.
-/

namespace ProviderMigration.Text

/-- The rows of a text, without their newlines, and its remainder. -/
def rows (text : List Char) : List (List Char) × List Char :=
  go [] [] text
where
  /-- `done` holds the finished rows and `row` the characters of the current
  one, both latest first. -/
  go (done : List (List Char)) (row : List Char) :
      List Char → List (List Char) × List Char
    | [] => (done.reverse, row.reverse)
    | c :: rest =>
        if c = '\n' then go (row.reverse :: done) [] rest
        else go done (c :: row) rest

/-- The text that holds the given rows, each ended by a newline. -/
def unlines (rows : List (List Char)) : List Char :=
  rows.flatMap fun row => row ++ ['\n']

theorem unlines_cons (row : List Char) (rows : List (List Char)) :
    unlines (row :: rows) = row ++ '\n' :: unlines rows := by
  simp [unlines]

private theorem rows_go_spec (done : List (List Char)) (row text : List Char) :
    unlines (rows.go done row text).1 ++ (rows.go done row text).2 =
      unlines done.reverse ++ row.reverse ++ text := by
  induction text generalizing done row with
  | nil => simp [rows.go]
  | cons c rest ih =>
      simp only [rows.go]
      split
      next newline =>
        subst newline
        rw [ih]
        simp [unlines]
      next =>
        simp [ih]

/-- Rows and remainder make up the text. -/
theorem unlines_rows (text : List Char) :
    unlines (rows text).1 ++ (rows text).2 = text := by
  simpa [rows, unlines] using rows_go_spec [] [] text

/-- A row without the carriage return at its end. -/
def withoutReturn (row : List Char) : List Char :=
  if row.getLast? = some '\r' then row.dropLast else row

/-- The lines of a text. -/
def lines (text : List Char) : List (List Char) :=
  (rows text).1.map withoutReturn ++
    (if (rows text).2.isEmpty then [] else [(rows text).2])

/-- The text with every line ended by a single newline. -/
def normalizeEnds (text : List Char) : List Char :=
  unlines (lines text)

private theorem not_mem_rows_go {done : List (List Char)} {row : List Char}
    (finished : ∀ other ∈ done, '\n' ∉ other) (current : '\n' ∉ row) (text : List Char) :
    (∀ other ∈ (rows.go done row text).1, '\n' ∉ other) ∧ '\n' ∉ (rows.go done row text).2 := by
  induction text generalizing done row with
  | nil =>
      simp only [rows.go, List.mem_reverse]
      exact ⟨finished, current⟩
  | cons c rest ih =>
      simp only [rows.go]
      split
      next newline =>
        refine ih ?_ List.not_mem_nil
        intro other member
        cases member with
        | head => simpa using current
        | tail _ member => exact finished other member
      next other =>
        apply ih finished
        intro member
        cases member with
        | head => exact other rfl
        | tail _ member => exact current member

/-- Rows and remainder hold no newline. -/
theorem not_mem_rows (text : List Char) :
    (∀ row ∈ (rows text).1, '\n' ∉ row) ∧ '\n' ∉ (rows text).2 :=
  not_mem_rows_go (fun _ member => absurd member List.not_mem_nil) List.not_mem_nil text

/-- A text without a newline is its own remainder. -/
theorem rows_of_not_mem {text : List Char} (newline : '\n' ∉ text) : rows text = ([], text) := by
  have whole : ∀ passed : List Char, rows.go [] passed text = ([], passed.reverse ++ text) := by
    induction text with
    | nil =>
        intro passed
        simp [rows.go]
    | cons c rest ih =>
        intro passed
        rw [List.mem_cons, not_or] at newline
        rw [rows.go, if_neg (Ne.symm newline.1), ih newline.2]
        simp
  exact whole []

theorem withoutReturn_prefix (row : List Char) : withoutReturn row <+: row := by
  rw [withoutReturn]
  split
  next => exact List.dropLast_prefix row
  next => exact List.prefix_refl row

theorem eq_withoutReturn_or (row : List Char) :
    row = withoutReturn row ∨ row = withoutReturn row ++ ['\r'] := by
  rw [withoutReturn]
  split
  next ends =>
    obtain ⟨line, rfl⟩ := List.getLast?_eq_some_iff.1 ends
    rw [List.dropLast_concat]
    exact .inr rfl
  next => exact .inl rfl

/-- A line is a part of the text, without a newline. -/
theorem within_of_mem_lines {text line : List Char} (member : line ∈ lines text) :
    line <:+: text ∧ '\n' ∉ line := by
  have clean := not_mem_rows text
  rw [← unlines_rows text]
  rcases List.mem_append.1 member with inside | last
  · obtain ⟨row, listed, rfl⟩ := List.mem_map.1 inside
    have start := withoutReturn_prefix row
    constructor
    · obtain ⟨before, after, split⟩ := List.append_of_mem listed
      apply start.isInfix.trans
      refine ⟨unlines before, '\n' :: unlines after ++ (rows text).2, ?_⟩
      simp [split, unlines]
    · exact fun newline => clean.1 row listed (start.subset newline)
  · split at last
    next => contradiction
    next =>
      rw [List.mem_singleton.1 last]
      exact ⟨(List.suffix_append _ _).isInfix, clean.2⟩

/-- A token without a newline stands within a row. -/
theorem exists_row_of_within_unlines {token : List Char} {rows : List (List Char)}
    (newline : '\n' ∉ token) (nonempty : token ≠ []) (within : token <:+: unlines rows) :
    ∃ row ∈ rows, token <:+: row := by
  induction rows with
  | nil => exact absurd (List.infix_nil.1 within) nonempty
  | cons row rows ih =>
      rw [unlines, List.flatMap_cons, List.append_assoc, List.singleton_append,
        within_append_cons_iff newline] at within
      rcases within with here | later
      · exact ⟨row, List.mem_cons_self, here⟩
      · obtain ⟨other, member, found⟩ := ih later
        exact ⟨other, List.mem_cons_of_mem _ member, found⟩

theorem getLast?_unlines (rows : List (List Char)) :
    ∀ c ∈ (unlines rows).getLast?, c = '\n' := by
  induction rows with
  | nil => simp [unlines]
  | cons row rows ih =>
      rw [unlines, List.flatMap_cons, List.getLast?_append]
      intro c last
      cases later : (rows.flatMap fun row => row ++ ['\n']).getLast? with
      | none => simpa [later, eq_comm] using last
      | some d =>
          rw [later, Option.some_or] at last
          exact ih c (later.trans last)

/-- A text without carriage returns whose last line is ended has normal ends. -/
theorem normalizeEnds_eq_self {text : List Char} (returns : '\r' ∉ text)
    (ended : ∀ c ∈ text.getLast?, c = '\n') : normalizeEnds text = text := by
  have joined := unlines_rows text
  have kept : ∀ row ∈ (rows text).1, withoutReturn row = row := by
    intro row member
    rw [withoutReturn, if_neg]
    intro last
    apply returns
    rw [← joined, List.mem_append, unlines, List.mem_flatMap]
    exact .inl ⟨row, member, List.mem_append_left _ (List.mem_of_getLast? last)⟩
  have remainder : (rows text).2 = [] := by
    cases last : (rows text).2.getLast? with
    | none => exact List.getLast?_eq_none_iff.1 last
    | some c =>
        have newline := ended c (by rw [← joined, List.getLast?_append, last]; rfl)
        rw [newline] at last
        exact absurd (List.mem_of_getLast? last) (not_mem_rows text).2
  rw [remainder, List.append_nil] at joined
  have ends : (rows text).1.map withoutReturn = (rows text).1 := by
    rw [List.map_congr_left kept, List.map_id']
  rw [normalizeEnds, lines, ends, remainder]
  simpa using joined

end ProviderMigration.Text
