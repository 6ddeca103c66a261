/-!
# Occurrences of a token

A token occurs in a text where it is a prefix of what remains. All edits of a
block act on a first occurrence, so the module is built on one cut: the text
before the first occurrence, and the text from it on.
-/

namespace ProviderMigration.Text

/-- The text cut in front of the first occurrence of `token`. The empty token
occurs at the start of every text. -/
def cutAt? (token text : List Char) : Option (List Char × List Char) :=
  go [] text
where
  /-- `passed` holds the characters already passed over, latest first. -/
  go (passed : List Char) : List Char → Option (List Char × List Char)
    | [] => if token.isEmpty then some (passed.reverse, []) else none
    | c :: rest =>
        if token.isPrefixOf (c :: rest) then
          some (passed.reverse, c :: rest)
        else
          go (c :: passed) rest

/-- Whether `token` is found anywhere in `text`. -/
def occurs (token text : List Char) : Bool :=
  (cutAt? token text).isSome

/-- The text with the first occurrence of `token` exchanged for `other`. -/
def replaceFirst (token other text : List Char) : List Char :=
  match cutAt? token text with
  | none => text
  | some (before, found) => before ++ other ++ found.drop token.length

/-- The start of a text either lies in the first of two parts or goes over all of it. -/
theorem prefix_append_cases {start front back : List Char} (within : start <+: front ++ back) :
    start <+: front ∨ ∃ inner, start = front ++ inner ∧ inner <+: back := by
  obtain ⟨rest, joined⟩ := within
  rcases List.append_eq_append_iff.1 joined with ⟨inner, rfl, -⟩ | ⟨inner, rfl, rfl⟩
  · exact .inl (List.prefix_append start inner)
  · exact .inr ⟨inner, rfl, List.prefix_append inner rest⟩

private theorem cutAt?_go_spec {token passed text before found : List Char}
    (cut : cutAt?.go token passed text = some (before, found)) :
    before ++ found = passed.reverse ++ text ∧ token <+: found := by
  induction text generalizing passed with
  | nil =>
      simp only [cutAt?.go] at cut
      split at cut
      next empty =>
        obtain ⟨rfl, rfl⟩ := by simpa using cut
        simp_all
      next => contradiction
  | cons c rest ih =>
      simp only [cutAt?.go] at cut
      split at cut
      next here =>
        obtain ⟨rfl, rfl⟩ := by simpa using cut
        exact ⟨rfl, List.isPrefixOf_iff_prefix.1 here⟩
      next =>
        obtain ⟨joined, found⟩ := ih cut
        exact ⟨by simpa using joined, found⟩

/-- A cut loses nothing. -/
theorem append_of_cutAt? {token text before found : List Char}
    (cut : cutAt? token text = some (before, found)) : before ++ found = text := by
  simpa using (cutAt?_go_spec cut).1

/-- The second part of a cut starts with the token. -/
theorem prefix_of_cutAt? {token text before found : List Char}
    (cut : cutAt? token text = some (before, found)) : token <+: found :=
  (cutAt?_go_spec cut).2

private theorem cutAt?_go_eq_none_iff {token passed text : List Char} :
    cutAt?.go token passed text = none ↔ ¬ token <:+: text := by
  induction text generalizing passed with
  | nil => simp [cutAt?.go]
  | cons c rest ih =>
      rw [cutAt?.go, List.infix_cons_iff]
      split
      next here => simp [List.isPrefixOf_iff_prefix.1 here]
      next elsewhere => simp [ih, ← List.isPrefixOf_iff_prefix, elsewhere]

/-- There is no cut exactly where there is no token. -/
theorem cutAt?_eq_none_iff {token text : List Char} :
    cutAt? token text = none ↔ ¬ token <:+: text :=
  cutAt?_go_eq_none_iff

theorem occurs_eq_true_iff {token text : List Char} : occurs token text = true ↔ token <:+: text := by
  rw [occurs, Option.isSome_iff_ne_none, ne_eq, cutAt?_eq_none_iff, Classical.not_not]

private theorem cutAt?_go_eq (token passed text : List Char) :
    cutAt?.go token passed text =
      (cutAt? token text).map fun (before, found) => (passed.reverse ++ before, found) := by
  induction text generalizing passed with
  | nil => cases empty : token.isEmpty <;> simp [cutAt?, cutAt?.go, empty]
  | cons c rest ih =>
      simp only [cutAt?, cutAt?.go]
      split
      next => simp
      next =>
        rw [ih (c :: passed), ih [c], Option.map_map]
        simp [Function.comp_def]

/-- A token is found at the start of a text or behind its first character. -/
theorem cutAt?_cons (token : List Char) (c : Char) (rest : List Char) :
    cutAt? token (c :: rest) =
      if token.isPrefixOf (c :: rest) then some ([], c :: rest)
      else (cutAt? token rest).map fun (before, found) => (c :: before, found) := by
  simp only [cutAt?, cutAt?.go]
  split
  next => rfl
  next =>
    rw [cutAt?_go_eq]
    rfl

/-- A token at the start of a text is its first occurrence. -/
theorem cutAt?_of_prefix {token text : List Char} (start : token <+: text) :
    cutAt? token text = some ([], text) := by
  cases text with
  | nil =>
      rw [List.prefix_nil.1 start]
      rfl
  | cons c rest => rw [cutAt?_cons, if_pos (List.isPrefixOf_iff_prefix.2 start)]

/-- A search passes over a stretch in which the token does not start. -/
theorem cutAt?_append_of_not_prefix {token front back : List Char}
    (elsewhere : ∀ tail, tail ≠ [] → tail <:+ front → ¬ token <+: tail ++ back) :
    cutAt? token (front ++ back) =
      (cutAt? token back).map fun (before, found) => (front ++ before, found) := by
  induction front with
  | nil => simp
  | cons d front ih =>
      have later : ∀ tail, tail ≠ [] → tail <:+ front → ¬ token <+: tail ++ back :=
        fun tail nonempty ends =>
          elsewhere tail nonempty (ends.trans (List.suffix_cons d front))
      have here := elsewhere (d :: front) (List.cons_ne_nil d front) (List.suffix_refl _)
      rw [List.cons_append] at here ⊢
      rw [cutAt?_cons, if_neg (mt List.isPrefixOf_iff_prefix.1 here), ih later, Option.map_map]
      rfl

/-- A token does not start in a stretch without its first character. -/
theorem cutAt?_append_of_not_mem {c : Char} {token front : List Char} (foreign : c ∉ front)
    (back : List Char) :
    cutAt? (c :: token) (front ++ back) =
      (cutAt? (c :: token) back).map fun (before, found) => (front ++ before, found) := by
  apply cutAt?_append_of_not_prefix
  intro tail nonempty ends start
  obtain ⟨d, tail, rfl⟩ := List.exists_cons_of_ne_nil nonempty
  rw [List.cons_append, List.cons_prefix_cons] at start
  exact foreign (start.1 ▸ ends.subset List.mem_cons_self)

/-- The token does not start in front of its first occurrence. -/
theorem not_prefix_of_cutAt? {token text before found : List Char}
    (cut : cutAt? token text = some (before, found)) {tail : List Char} (nonempty : tail ≠ [])
    (ends : tail <:+ before) : ¬ token <+: tail ++ found := by
  induction text generalizing before with
  | nil =>
      obtain ⟨rfl, -⟩ := List.append_eq_nil_iff.1 (append_of_cutAt? cut)
      exact absurd (List.suffix_nil.1 ends) nonempty
  | cons c rest ih =>
      rw [cutAt?_cons] at cut
      split at cut
      next =>
        obtain ⟨rfl, rfl⟩ := by simpa using cut
        exact absurd (List.suffix_nil.1 ends) nonempty
      next elsewhere =>
        obtain ⟨⟨before', found'⟩, later, same⟩ := Option.map_eq_some_iff.1 cut
        obtain ⟨rfl, rfl⟩ := Prod.mk.inj same
        rcases List.suffix_cons_iff.1 ends with rfl | inside
        · rw [List.cons_append, append_of_cutAt? later]
          exact mt List.isPrefixOf_iff_prefix.2 elsewhere
        · exact ih later inside

/-- The token does not occur in front of its first occurrence. -/
theorem not_within_of_cutAt? {token text before found : List Char}
    (cut : cutAt? token text = some (before, found)) (nonempty : token ≠ []) :
    ¬ token <:+: before := by
  rintro ⟨front, back, rfl⟩
  rw [List.append_assoc] at cut
  apply not_prefix_of_cutAt? cut _ (List.suffix_append front (token ++ back))
  · rw [List.append_assoc]
    exact List.prefix_append token _
  · simp [nonempty]

/-- A first occurrence stays the first one, whatever follows it. -/
theorem cutAt?_of_cutAt? {token text before found found' : List Char}
    (cut : cutAt? token text = some (before, found)) (start : token <+: found') :
    cutAt? token (before ++ found') = some (before, found') := by
  have elsewhere : ∀ tail, tail ≠ [] → tail <:+ before → ¬ token <+: tail ++ found' := by
    intro tail nonempty ends here
    obtain ⟨after, rfl⟩ := prefix_of_cutAt? cut
    obtain ⟨after', rfl⟩ := start
    rw [← List.append_assoc] at here
    have inside : token <+: tail ++ token := by
      apply List.prefix_of_prefix_length_le here (List.prefix_append _ _)
      rw [List.length_append]
      exact Nat.le_add_left _ _
    apply not_prefix_of_cutAt? cut nonempty ends
    rw [← List.append_assoc]
    exact inside.trans (List.prefix_append _ _)
  have first := cutAt?_of_prefix start
  have later := cutAt?_append_of_not_prefix elsewhere
  rw [first, Option.map_some] at later
  dsimp only at later
  rwa [List.append_nil] at later

theorem replaceFirst_of_absent {token text : List Char} (absent : ¬ token <:+: text)
    (other : List Char) : replaceFirst token other text = text := by
  rw [replaceFirst, cutAt?_eq_none_iff.2 absent]

/-- What an exchange leaves as it is. -/
theorem exists_of_replaceFirst {token text : List Char} (present : token <:+: text)
    (other : List Char) :
    ∃ before after, text = before ++ token ++ after ∧
      replaceFirst token other text = before ++ other ++ after := by
  cases cut : cutAt? token text with
  | none => exact absurd present (cutAt?_eq_none_iff.1 cut)
  | some parts =>
      obtain ⟨before, found⟩ := parts
      obtain ⟨after, rfl⟩ := prefix_of_cutAt? cut
      refine ⟨before, after, ?_, ?_⟩
      · rw [List.append_assoc, append_of_cutAt? cut]
      · rw [replaceFirst, cut]
        dsimp only
        rw [List.drop_left]

private theorem prefix_append_cons_iff {c : Char} {token front back : List Char}
    (foreign : c ∉ token) : token <+: front ++ c :: back ↔ token <+: front := by
  constructor
  · intro start
    induction front generalizing token with
    | nil =>
        cases token with
        | nil => exact List.nil_prefix
        | cons d token =>
            rw [List.nil_append, List.cons_prefix_cons] at start
            exact absurd (start.1 ▸ List.mem_cons_self) foreign
    | cons d front ih =>
        cases token with
        | nil => exact List.nil_prefix
        | cons e token =>
            rw [List.cons_append, List.cons_prefix_cons] at start
            rw [List.cons_prefix_cons]
            exact ⟨start.1, ih (fun member => foreign (List.mem_cons_of_mem _ member)) start.2⟩
  · intro start
    exact start.trans (List.prefix_append _ _)

/-- A token stands on one side of a character that it does not have. -/
theorem within_append_cons_iff {c : Char} {token front back : List Char} (foreign : c ∉ token) :
    token <:+: front ++ c :: back ↔ token <:+: front ∨ token <:+: back := by
  induction front with
  | nil =>
      have start : token <+: [] ++ c :: back ↔ token <+: [] := prefix_append_cons_iff foreign
      rw [List.nil_append] at start ⊢
      rw [List.infix_cons_iff, start]
      simp
  | cons d front ih =>
      rw [List.cons_append, List.infix_cons_iff, ih, ← List.cons_append,
        prefix_append_cons_iff foreign, List.infix_cons_iff, or_assoc]

end ProviderMigration.Text
