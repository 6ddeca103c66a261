import ProviderMigration.Toml.Quoted

/-!
# Strings that are read back

Whatever string is written, in whichever of its forms, is read back, and what follows it is
left to be read. This takes a string that no quote follows: one that stands directly behind
closing quotes would be counted among them.
-/

namespace ProviderMigration.Toml.Quoted

variable {c : Char} {text rest read : List Char} {multiline : Bool}

/-! ## One character in double quotes -/

/-- Whether a character of a string in double quotes has to be escaped, a quote apart. -/
def NeedsEscape (multiline : Bool) (c : Char) : Prop :=
  (c = '\n' ∧ !multiline) ∨ c = '\t' ∨ c = '\\' ∨ isControl c

/-- A character that may stand as it is. -/
theorem readBasic_plain (quote : c ≠ '"') (plain : ¬ NeedsEscape multiline c) :
    readBasic multiline .text read (c :: rest) =
      readBasic multiline .text (c :: read) rest := by
  obtain ⟨lineEnd, -, backslash, control⟩ := by simpa only [NeedsEscape, not_or] using plain
  rw [readBasic, readBasic.readText.eq_def]
  split
  next => contradiction
  next => contradiction
  next => contradiction
  next => contradiction
  next => contradiction
  next => exact absurd (by decide) control
  next => rw [if_neg (not_or.2 ⟨control, lineEnd⟩)]

/-- A letter behind a backslash. -/
theorem readBasic_letter {letter : Char} (means : ofEscape? letter = some c) :
    readBasic multiline .text read ('\\' :: letter :: rest) =
      readBasic multiline .text (c :: read) rest := by
  rw [readBasic, readBasic.readText.eq_def]
  split
  next => contradiction
  next same => cases same; contradiction
  next same => cases same; contradiction
  next same => cases same; contradiction
  next same =>
    cases same
    rw [means]
  next => contradiction
  next noLetter _ => exact absurd rfl (noLetter letter rest rfl)

/-- A code point behind a backslash. -/
theorem readBasic_code {first second third fourth : Char}
    (means : charOfHex? [first, second, third, fourth] = some c) :
    readBasic multiline .text read ('\\' :: 'u' :: first :: second :: third :: fourth :: rest) =
      readBasic multiline .text (c :: read) rest := by
  rw [readBasic, readBasic.readText]
  rw [means]
  rfl

theorem charOfHex?_hexDigits :
    ∀ code < 128, charOfHex? (hexDigits code) = some (Char.ofNat code) := by
  decide

/-- Control characters are told by their code points. -/
theorem charOfHex?_hexDigits_of_isControl (control : isControl c = true) :
    charOfHex? (hexDigits c.toNat) = some c := by
  have small : c.toNat < 128 := by
    rw [isControl] at control
    simp only [Bool.or_eq_true, Bool.and_eq_true, decide_eq_true_eq] at control
    omega
  rw [charOfHex?_hexDigits _ small, Char.ofNat_toNat]

/-- A character that is escaped. -/
theorem readBasic_escaped (special : c = '"' ∨ NeedsEscape multiline c) :
    readBasic multiline .text read (escaped c ++ rest) =
      readBasic multiline .text (c :: read) rest := by
  rw [escaped.eq_def]
  split
  next => exact readBasic_letter rfl
  next => exact readBasic_letter rfl
  next => exact readBasic_letter rfl
  next => exact readBasic_letter rfl
  next => exact readBasic_letter rfl
  next => exact readBasic_letter rfl
  next => exact readBasic_letter rfl
  next _ tab newline _ _ quote backslash =>
    have control : isControl c = true :=
      ((special.resolve_left quote).resolve_left fun lineEnd => newline lineEnd.1).resolve_left tab
        |>.resolve_left backslash
    exact readBasic_code (charOfHex?_hexDigits_of_isControl control)

/-- A quote that stands as it is, in front of fewer than two others. -/
theorem readBasic_quote (apart : ¬ ['"', '"'] <+: rest) :
    readBasic true .text read ('"' :: rest) = readBasic true .text ('"' :: read) rest := by
  rw [readBasic, readBasic.readText.eq_def]
  simp only [Bool.not_true, Bool.false_eq_true, if_false]
  split
  next => exact absurd ⟨_, rfl⟩ apart
  next => exact absurd ⟨_, rfl⟩ apart
  next => exact absurd ⟨_, rfl⟩ apart
  next => rfl

/-! ## Strings in double quotes -/

theorem head?_escaped (c : Char) (rest : List Char) : (escaped c ++ rest).head? = some '\\' := by
  rw [escaped.eq_def]
  split <;> rfl

/-- A quote stands as it is only in tripled quotes, behind fewer than two others. -/
theorem exists_of_head?_escape {quotes : Nat}
    (starts : (escape multiline quotes text).head? = some '"') :
    multiline = true ∧ quotes < 2 ∧ ∃ later, text = '"' :: later ∧
      escape multiline quotes text = '"' :: escape multiline (quotes + 1) later := by
  cases text with
  | nil => contradiction
  | cons c text =>
      rw [escape] at starts ⊢
      by_cases quote : c = '"'
      · rw [if_pos quote] at starts ⊢
        by_cases few : multiline = true ∧ quotes < 2
        · rw [if_pos few, quote]
          exact ⟨few.1, few.2, text, rfl, rfl⟩
        · rw [if_neg few, head?_escaped] at starts
          contradiction
      · rw [if_neg quote] at starts
        split at starts
        next =>
          rw [head?_escaped] at starts
          contradiction
        next => exact absurd (Option.some.inj starts) quote

/-- Up to two quotes may stand in front of the closing ones. -/
theorem readBasic_closing {count : Nat} (few : count ≤ 2) (ends : rest.head? ≠ some '"') :
    readBasic true .text read (List.replicate count '"' ++ '"' :: '"' :: '"' :: rest) =
      some (read.reverse ++ List.replicate count '"', rest) := by
  have apart : ∀ more, rest ≠ '"' :: more := by
    rintro more rfl
    exact ends rfl
  match count, few with
  | 0, _ => simp [readBasic, readBasic.readText, apart]
  | 1, _ => simp [readBasic, readBasic.readText, List.replicate]
  | 2, _ => simp [readBasic, readBasic.readText, List.replicate]

/-- A character that is no quote, or a quote that is escaped, is read back. -/
theorem readBasic_escape_cons {quotes : Nat}
    (other : ¬ (c = '"' ∧ multiline = true ∧ quotes < 2)) :
    readBasic multiline .text read (escape multiline quotes (c :: text) ++ rest) =
      readBasic multiline .text (c :: read) (escape multiline 0 text ++ rest) := by
  rw [escape]
  by_cases quote : c = '"'
  · rw [if_pos quote, if_neg fun few => other ⟨quote, few⟩, List.append_assoc,
      readBasic_escaped (.inl quote)]
  · rw [if_neg quote]
    split
    next special => rw [List.append_assoc, readBasic_escaped (.inr special)]
    next plain => rw [List.cons_append, readBasic_plain quote plain]

/-- A text in double quotes is read back up to the quote that ends it. -/
theorem readBasic_escape (quotes : Nat) :
    readBasic false .text read (escape false quotes text ++ '"' :: rest) =
      some (read.reverse ++ text, rest) := by
  induction text generalizing read quotes with
  | nil =>
      rw [escape, List.nil_append, List.append_nil, readBasic, readBasic.readText.eq_def]
      rfl
  | cons c text ih =>
      rw [readBasic_escape_cons fun few => Bool.false_ne_true few.2.1, ih, List.reverse_cons,
        List.append_assoc, List.singleton_append]

theorem escape_ne_nil (quotes : Nat) : escape multiline quotes (c :: text) ≠ [] := by
  have filled : ∀ rest, escaped c ++ rest ≠ [] := by
    intro rest empty
    have starts := head?_escaped c rest
    rw [empty] at starts
    contradiction
  rw [escape]
  split
  next =>
    split
    next => exact List.cons_ne_nil _ _
    next => exact filled _
  next =>
    split
    next => exact filled _
    next => exact List.cons_ne_nil _ _

theorem not_prefix_of_head? {front : List Char} (filled : front ≠ [])
    (other : front.head? ≠ some c) (back : List Char) : ¬ [c] <+: front ++ back := by
  obtain ⟨d, front, rfl⟩ := List.exists_cons_of_ne_nil filled
  rintro ⟨more, joined⟩
  obtain ⟨rfl, -⟩ := List.cons.inj joined
  exact other rfl

/-- A text in tripled double quotes is read back up to the quotes that end it. -/
theorem readBasic_escape_tripled (quotes : Nat) (ends : rest.head? ≠ some '"') :
    readBasic true .text read (escape true quotes text ++ '"' :: '"' :: '"' :: rest) =
      some (read.reverse ++ text, rest) := by
  induction text generalizing read quotes with
  | nil => exact readBasic_closing (Nat.zero_le 2) ends
  | cons c text ih =>
      have onward : ∀ quotes,
          readBasic true .text (c :: read) (escape true quotes text ++ '"' :: '"' :: '"' :: rest) =
            some (read.reverse ++ c :: text, rest) := by
        intro quotes
        rw [ih, List.reverse_cons, List.append_assoc, List.singleton_append]
      by_cases bare : c = '"' ∧ quotes < 2
      · obtain ⟨rfl, few⟩ := bare
        rw [escape, if_pos rfl, if_pos ⟨rfl, few⟩, List.cons_append]
        -- The quote may be one of those in front of the closing ones.
        cases text with
        | nil => exact readBasic_closing (Nat.le_succ 1) ends
        | cons d later =>
            by_cases second : (escape true (quotes + 1) (d :: later)).head? = some '"'
            · obtain ⟨-, fewer, _, same, written⟩ := exists_of_head?_escape second
              obtain ⟨rfl, rfl⟩ := List.cons.inj same
              cases later with
              | nil =>
                  rw [written]
                  exact readBasic_closing (Nat.le_refl 2) ends
              | cons e last =>
                  have third : (escape true (quotes + 2) (e :: last)).head? ≠ some '"' := by
                    intro third
                    obtain ⟨-, fewest, -⟩ := exists_of_head?_escape third
                    omega
                  rw [readBasic_quote, onward]
                  rw [written, List.cons_append, List.cons_prefix_cons, not_and]
                  exact fun _ => not_prefix_of_head? (escape_ne_nil _) third _
            · rw [readBasic_quote, onward]
              intro close
              exact not_prefix_of_head? (escape_ne_nil _) second _
                ((List.prefix_append ['"'] ['"']).trans close)
      · rw [readBasic_escape_cons fun few => bare ⟨few.1, few.2.2⟩, onward]

/-! ## Strings in single quotes -/

/-- A character of a string in single quotes stands as it is. -/
theorem readLiteral_plain (quote : c ≠ '\'') (control : isControl c = false)
    (lineEnd : c = '\n' → multiline = true) :
    readLiteral multiline read (c :: rest) = readLiteral multiline (c :: read) rest := by
  have plain : ¬ (isControl c = true ∨ (c = '\n' ∧ !multiline)) := by simpa [control] using lineEnd
  rw [readLiteral.eq_def]
  split
  next => contradiction
  next same => exact absurd (List.cons.inj same).1 quote
  next same =>
    obtain ⟨rfl, -⟩ := List.cons.inj same
    contradiction
  next same =>
    obtain ⟨rfl, rfl⟩ := List.cons.inj same
    rw [if_neg plain]

/-- A text in single quotes is read back up to the quote that ends it. -/
theorem readLiteral_line (quotes : '\'' ∉ text) (controls : ∀ c ∈ text, isControl c = false)
    (line : '\n' ∉ text) :
    readLiteral false read (text ++ '\'' :: rest) = some (read.reverse ++ text, rest) := by
  induction text generalizing read with
  | nil =>
      rw [List.nil_append, readLiteral.eq_def, List.append_nil]
      rfl
  | cons c text ih =>
      rw [List.mem_cons, not_or] at quotes line
      rw [List.forall_mem_cons] at controls
      rw [List.cons_append, readLiteral_plain (Ne.symm quotes.1) controls.1
        (fun same => absurd same.symm line.1), ih quotes.2 controls.2 line.2, List.reverse_cons,
        List.append_assoc, List.singleton_append]

/-- A quote that stands as it is, in front of fewer than two others. -/
theorem readLiteral_quote (apart : ¬ ['\'', '\''] <+: rest) :
    readLiteral true read ('\'' :: rest) = readLiteral true ('\'' :: read) rest := by
  rw [readLiteral.eq_def]
  simp only [Bool.not_true, Bool.false_eq_true, if_false]
  split
  next => exact absurd ⟨_, rfl⟩ apart
  next => exact absurd ⟨_, rfl⟩ apart
  next => exact absurd ⟨_, rfl⟩ apart
  next => rfl

/-- Up to two quotes may stand in front of the closing ones. -/
theorem readLiteral_closing {count : Nat} (few : count ≤ 2) (ends : rest.head? ≠ some '\'') :
    readLiteral true read (List.replicate count '\'' ++ '\'' :: '\'' :: '\'' :: rest) =
      some (read.reverse ++ List.replicate count '\'', rest) := by
  have apart : ∀ more, rest ≠ '\'' :: more := by
    rintro more rfl
    exact ends rfl
  match count, few with
  | 0, _ => simp [readLiteral, apart]
  | 1, _ => simp [readLiteral, List.replicate]
  | 2, _ => simp [readLiteral, List.replicate]

/-- A text in tripled single quotes is read back up to the quotes that end it. -/
theorem readLiteral_tripled (runs : ¬ ['\'', '\'', '\''] <:+: text)
    (controls : ∀ c ∈ text, isControl c = false) (ends : rest.head? ≠ some '\'') :
    readLiteral true read (text ++ '\'' :: '\'' :: '\'' :: rest) =
      some (read.reverse ++ text, rest) := by
  induction text generalizing read with
  | nil => exact readLiteral_closing (Nat.zero_le 2) ends
  | cons c text ih =>
      rw [List.forall_mem_cons] at controls
      rw [List.infix_cons_iff, not_or] at runs
      have onward :
          readLiteral true (c :: read) (text ++ '\'' :: '\'' :: '\'' :: rest) =
            some (read.reverse ++ c :: text, rest) := by
        rw [ih runs.2 controls.2, List.reverse_cons, List.append_assoc, List.singleton_append]
      by_cases quote : c = '\''
      · subst quote
        rw [List.cons_append]
        -- The quote may be one of those in front of the closing ones.
        cases text with
        | nil => exact readLiteral_closing (Nat.le_succ 1) ends
        | cons d later =>
            by_cases second : d = '\''
            · subst second
              cases later with
              | nil => exact readLiteral_closing (Nat.le_refl 2) ends
              | cons e last =>
                  have third : e ≠ '\'' := by
                    rintro rfl
                    exact runs.1 (List.prefix_append _ last)
                  rw [readLiteral_quote, onward]
                  simp [Ne.symm third]
            · rw [readLiteral_quote, onward]
              simp [Ne.symm second]
      · rw [List.cons_append, readLiteral_plain quote controls.1 (fun _ => rfl), onward]

/-! ## What is written -/

/-- A run that is longer than any other is longer than two characters if there are three in a
row. -/
theorem not_within_of_longestRun_le (short : longestRun c text ≤ 2) : ¬ [c, c, c] <:+: text := by
  let count := fun (run : Nat × Nat) d =>
    if d = c then (run.1 + 1, max run.2 (run.1 + 1)) else (0, run.2)
  have grows : ∀ (text : List Char) run, run.2 ≤ (text.foldl count run).2 := by
    intro text
    induction text with
    | nil => exact fun _ => Nat.le_refl _
    | cons d text ih =>
        intro run
        refine Nat.le_trans ?_ (ih (count run d))
        dsimp only [count]
        split
        next => exact Nat.le_max_left _ _
        next => exact Nat.le_refl _
  rintro ⟨front, back, rfl⟩
  have whole := grows back ((front ++ [c, c, c]).foldl count (0, 0))
  rw [← List.foldl_append] at whole
  have three : 3 ≤ ((front ++ [c, c, c]).foldl count (0, 0)).2 := by
    rw [List.foldl_append]
    generalize front.foldl count (0, 0) = run
    simp only [List.foldl_cons, List.foldl_nil, count, ↓reduceIte]
    omega
  exact Nat.not_succ_le_self 2 (Nat.le_trans three (Nat.le_trans whole short))

/-- Only the line end that a text is given is taken away from it. -/
theorem withoutFirstEnd_tripled {content : List Char} {quote : Char}
    (mark : quote = '"' ∨ quote = '\'')
    (first : ∀ d ∈ content.head?, isControl d = false ∧ (d = '\n' → '\n' ∈ text))
    (rest : List Char) :
    withoutFirstEnd ((if text.contains '\n' then ['\n'] else []) ++ (content ++ quote :: rest)) =
      content ++ quote :: rest := by
  by_cases lines : '\n' ∈ text
  · rw [if_pos (List.contains_iff_mem.2 lines)]
    rfl
  · have start : ∀ d ∈ (content ++ quote :: rest).head?, d ≠ '\n' ∧ d ≠ '\r' := by
      intro d starts
      cases content with
      | nil =>
          obtain rfl := Option.some.inj starts
          rcases mark with rfl | rfl <;> decide
      | cons e content =>
          obtain ⟨control, lineEnd⟩ := first d starts
          refine ⟨fun same => lines (lineEnd same), ?_⟩
          rintro rfl
          exact absurd control (by decide)
    rw [if_neg (mt List.contains_iff_mem.1 lines), List.nil_append, withoutFirstEnd.eq_def]
    split
    next same => exact absurd rfl (start '\n' (same ▸ rfl)).1
    next same => exact absurd rfl (start '\r' (same ▸ rfl)).2
    next => rfl

theorem first_of_escape {quotes : Nat} :
    ∀ d ∈ (escape multiline quotes text).head?,
      isControl d = false ∧ (d = '\n' → '\n' ∈ text) := by
  intro d starts
  cases text with
  | nil => contradiction
  | cons c text =>
      have escapes : ∀ rest, d ∈ (escaped c ++ rest).head? →
          isControl d = false ∧ (d = '\n' → '\n' ∈ c :: text) := by
        intro rest starts
        rw [head?_escaped] at starts
        obtain rfl := Option.some.inj starts
        exact ⟨by decide, nofun⟩
      rw [escape] at starts
      split at starts
      next quote =>
        split at starts
        next =>
          obtain rfl := Option.some.inj starts
          rw [quote]
          exact ⟨by decide, nofun⟩
        next => exact escapes _ starts
      next =>
        split at starts
        next => exact escapes _ starts
        next plain =>
          obtain rfl := Option.some.inj starts
          simp only [not_or] at plain
          exact ⟨by simpa using plain.2.2.2, fun lineEnd => lineEnd ▸ List.mem_cons_self⟩

/-- A text in tripled double quotes. -/
theorem read?_tripled_escape (ends : rest.head? ≠ some '"') :
    read? (tripled '"' text (escape true 0 text) ++ rest) = some (text, rest) := by
  have opened : tripled '"' text (escape true 0 text) ++ rest = '"' :: '"' :: '"' ::
      ((if text.contains '\n' then ['\n'] else []) ++
        (escape true 0 text ++ '"' :: '"' :: '"' :: rest)) := by
    simp [tripled]
  rw [opened, read?, withoutFirstEnd_tripled (.inl rfl) first_of_escape]
  exact readBasic_escape_tripled 0 ends

/-- A text in tripled single quotes. -/
theorem read?_tripled_literal (runs : ¬ ['\'', '\'', '\''] <:+: text)
    (controls : ∀ c ∈ text, isControl c = false) (ends : rest.head? ≠ some '\'') :
    read? (tripled '\'' text text ++ rest) = some (text, rest) := by
  have opened : tripled '\'' text text ++ rest = '\'' :: '\'' :: '\'' ::
      ((if text.contains '\n' then ['\n'] else []) ++
        (text ++ '\'' :: '\'' :: '\'' :: rest)) := by
    simp [tripled]
  rw [opened, read?, withoutFirstEnd_tripled (.inr rfl)]
  · exact readLiteral_tripled runs controls ends
  · intro d starts
    have member := List.mem_of_mem_head? starts
    exact ⟨controls d member, fun lineEnd => lineEnd ▸ member⟩

/-- A text in double quotes on one line. -/
theorem read?_line_escape (ends : rest.head? ≠ some '"') :
    read? ('"' :: escape false 0 text ++ ['"'] ++ rest) = some (text, rest) := by
  have opened : '"' :: escape false 0 text ++ ['"'] ++ rest =
      '"' :: (escape false 0 text ++ '"' :: rest) := by simp
  have untripled : ∀ more, escape false 0 text ++ '"' :: rest ≠ '"' :: '"' :: more := by
    intro more same
    cases text with
    | nil => exact ends ((List.cons.inj same).2 ▸ rfl)
    | cons c text =>
        have starts : (escape false 0 (c :: text)).head? = some '"' := by
          obtain ⟨d, content, written⟩ := List.exists_cons_of_ne_nil (escape_ne_nil 0)
          rw [written] at same ⊢
          exact congrArg some (List.cons.inj same).1
        exact nomatch (exists_of_head?_escape starts).1
  rw [opened, read?.eq_def]
  split
  next same => exact absurd (List.cons.inj same).2 (untripled _)
  next same => exact absurd (List.cons.inj same).1 (by decide)
  next => exact readBasic_escape 0

/-- A text in single quotes on one line. -/
theorem read?_line_literal (filled : text ≠ []) (quotes : '\'' ∉ text)
    (controls : ∀ c ∈ text, isControl c = false) (line : '\n' ∉ text) :
    read? ('\'' :: text ++ ['\''] ++ rest) = some (text, rest) := by
  have opened : '\'' :: text ++ ['\''] ++ rest = '\'' :: (text ++ '\'' :: rest) := by simp
  rw [opened, read?.eq_def]
  split
  next same => exact absurd (List.cons.inj same).1 (by decide)
  next same =>
    obtain ⟨c, text, rfl⟩ := List.exists_cons_of_ne_nil filled
    exact absurd ((List.cons.inj (List.cons.inj same).2).1 ▸ List.mem_cons_self) quotes
  next => exact readLiteral_line quotes controls line

/-- A string starts with a quote. -/
theorem exists_quote_write (text : List Char) :
    ∃ quote content, write text = quote :: content ∧ (quote = '"' ∨ quote = '\'') := by
  rw [write]
  split
  next => exact ⟨_, _, rfl, .inl rfl⟩
  next =>
    split
    next => exact ⟨_, _, rfl, .inr rfl⟩
    next =>
      split
      next => exact ⟨_, _, rfl, .inl rfl⟩
      next =>
        split
        next => exact ⟨_, _, rfl, .inr rfl⟩
        next => split <;> exact ⟨_, _, rfl, .inl rfl⟩

/-- A string that is written is read back, whatever follows it but a quote. -/
theorem read?_write (text : List Char) (double : rest.head? ≠ some '"')
    (single : rest.head? ≠ some '\'') : read? (write text ++ rest) = some (text, rest) := by
  have controls : text.any isControl = false → ∀ c ∈ text, isControl c = false :=
    fun none c member => by simpa using List.any_eq_false.1 none c member
  rw [write]
  split
  next => exact read?_line_escape double
  next unfit =>
    split
    next fits =>
      simp only [Bool.and_eq_true, Bool.not_eq_true', List.contains_eq_mem, decide_eq_false_iff_not]
        at fits
      have filled : text ≠ [] := by
        rintro rfl
        exact unfit rfl
      exact read?_line_literal filled fits.1.2 (controls fits.1.1) fits.2
    next =>
      split
      next => exact read?_tripled_escape double
      next =>
        split
        next fits =>
          simp only [Bool.and_eq_true, Bool.not_eq_true', decide_eq_true_eq] at fits
          exact read?_tripled_literal (not_within_of_longestRun_le fits.2) (controls fits.1) single
        next =>
          split
          next => exact read?_tripled_escape double
          next => exact read?_line_escape double

end ProviderMigration.Toml.Quoted
