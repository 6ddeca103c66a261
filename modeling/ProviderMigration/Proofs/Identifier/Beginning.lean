import ProviderMigration.Proofs.Block.Alignment
import ProviderMigration.Proofs.Identifier.Template

/-!
# Where a name begins

A line of a configuration has type names in it, other identifiers that begin with the same
letters, and identifiers that have these letters within. A renaming is meant for the first kind.
The line and the renamed line are laid side by side, column by column: what a pass renames stands
behind a character that belongs to no word and in front of an underscore, and every other
identifier stands in both lines. A minus belongs to no word, for it is an operator. Two contexts
say less. The letters `in` lead to a name even if they end a longer word, and the name of a
header, which is quoted, is not looked at beyond its first letters.
-/

namespace ProviderMigration.Identifier

open Text Block

/-! ## A pass, column by column -/

namespace Filling

variable {filling : Filling} {passed : List Char}

/-- A text next to what a pass makes of it. -/
def columns (filling : Filling) (passed : List Char) : List Char → List Column
  | [] => []
  | c :: rest =>
      match filling.at? passed (c :: rest) with
      | some (site, gap) =>
          .changed site.stretch (gap ++ (site.quote ++ currentWord)) ::
            columns filling (site.stretch.reverse ++ passed) (rest.drop (site.stretch.length - 1))
      | none => .same c :: columns filling (c :: passed) rest
termination_by text => text.length

@[simp] theorem columns_nil : filling.columns passed [] = [] := by
  rw [columns]

theorem columns_cons {rest : List Char} {c : Char}
    (still : filling.at? passed (c :: rest) = none) :
    filling.columns passed (c :: rest) = .same c :: filling.columns (c :: passed) rest := by
  rw [columns, still]

theorem columns_site {after gap : List Char} {site : Site}
    (here : filling.at? passed (site.stretch ++ after) = some (site, gap)) :
    filling.columns passed (site.stretch ++ after) =
      .changed site.stretch (gap ++ (site.quote ++ currentWord)) ::
        filling.columns (site.stretch.reverse ++ passed) after := by
  have solid := (Site.find?_eq_some_iff.1 (at?_eq_some_iff.1 here).1).1.stretch_ne_nil
  obtain ⟨c, stretch, split⟩ := List.exists_cons_of_ne_nil solid
  have following : (stretch ++ after).drop (site.stretch.length - 1) = after := by
    simp [split]
  have joined : site.stretch ++ after = c :: (stretch ++ after) := by rw [split, List.cons_append]
  rw [joined] at here ⊢
  rw [columns, here]
  dsimp only
  rw [following]

theorem oldText_columns (filling : Filling) (passed text : List Char) :
    Column.oldText (filling.columns passed text) = text := by
  induction passed, text using filling.induction with
  | nil passed => rw [columns_nil, Column.oldText_nil]
  | site passed site gap after here ih => rw [columns_site here, Column.oldText_cons, ih]; rfl
  | cons passed c rest still ih => rw [columns_cons still, Column.oldText_cons, ih]; rfl

theorem newText_columns (filling : Filling) (passed text : List Char) :
    Column.newText (filling.columns passed text) = filling.pass passed text := by
  induction passed, text using filling.induction with
  | nil passed => rw [columns_nil, Column.newText_nil, pass_nil]
  | site passed site gap after here ih =>
      rw [columns_site here, pass_site here, Column.newText_cons, ih]
      rfl
  | cons passed c rest still ih =>
      rw [columns_cons still, pass_cons still, Column.newText_cons, ih]
      rfl

end Filling

/-! ## Contexts -/

/-- A character of a word: a letter, a digit or an underscore. Outside ASCII, every character but
a blank counts as a letter. -/
def isWordChar (c : Char) : Bool :=
  !isBlank c && (c.isAlphanum || c == '_' || 0x80 ≤ c.toNat)

theorem isWordChar_of_isBlank {c : Char} (blank : isBlank c = true) : isWordChar c = false := by
  rw [isWordChar, blank]
  rfl

theorem isWordChar_of_mem_legacyWords {word : List Char} (legacy : word ∈ legacyWords) :
    ∀ c ∈ word ++ ['_'], isWordChar c = true := by
  have known : ∀ word ∈ legacyWords, (word ++ ['_']).all isWordChar = true := by decide
  exact List.all_eq_true.1 (known word legacy)

/-- There is one way to divide a text between what belongs to no word and a word. -/
theorem eq_of_append_eq {apart word front back : List Char} (joined : apart ++ word = front ++ back)
    (outside : ∀ c ∈ apart, isWordChar c = false) (inside : ∀ c ∈ word, isWordChar c = true)
    (ends : ∀ c, front.getLast? = some c → isWordChar c = false)
    (starts : ∀ c, back.head? = some c → isWordChar c = true) : apart = front ∧ word = back := by
  rcases List.append_eq_append_iff.1 joined with ⟨beyond, rfl, rfl⟩ | ⟨beyond, rfl, rfl⟩
  · cases last : beyond.getLast? with
    | none => simp [List.getLast?_eq_none_iff.1 last]
    | some c =>
        have other := ends c (by simp [last])
        rw [inside c (List.mem_append_left back (List.mem_of_getLast? last))] at other
        contradiction
  · cases beyond with
    | nil => simp
    | cons c beyond =>
        have letter := starts c rfl
        rw [outside c (by simp)] at letter
        contradiction

/-- A text that ends with a literal ends with its last character. -/
theorem exists_cons_of_endsWith {literals : List String} {passed : List Char}
    (ends : endsWith literals passed = true)
    (marks : literals.all (fun literal => literal.toList.getLast?.any (!isWordChar ·)) = true) :
    ∃ c rest, passed = c :: rest ∧ isWordChar c = false := by
  obtain ⟨literal, listed, rest, rfl⟩ := endsWith_iff.1 ends
  obtain ⟨c, last, other⟩ := (Option.any_eq_true _ _).1 (List.all_eq_true.1 marks literal listed)
  obtain ⟨front, split⟩ := List.getLast?_eq_some_iff.1 last
  exact ⟨c, front.reverse ++ rest, by simp [split], by simpa using other⟩

/-- Whether a text ends with the beginning of a header, up to the quote in front of the type. -/
def OpensHeader (before : List Char) : Prop :=
  ∃ keyword ∈ ["resource", "data"], ∃ front gap, gap ≠ [] ∧ (∀ c ∈ gap, isBlank c = true) ∧
    before = front ++ keyword.toList ++ gap ++ ['"']

/-- A quoted name is renamed in a header. -/
theorem opensHeader_of_templateFilling {passed gap new : List Char}
    (blank : ∀ c ∈ gap, isBlank c = true) (filled : templateFilling passed gap true = some new) :
    OpensHeader (passed.reverse ++ gap ++ ['"']) := by
  simp only [templateFilling, if_true] at filled
  split at filled
  next known =>
    rw [Bool.and_eq_true, decide_eq_true_eq, endsWith_iff] at known
    obtain ⟨⟨keyword, listed, front, rfl⟩, spaced⟩ := known
    exact ⟨keyword, listed, front.reverse, gap, spaced, blank, by simp⟩
  next => contradiction

/-- Another name is renamed behind the letters `in`, or behind a character that belongs to no
word. -/
theorem context_of_templateFilling {passed gap new : List Char}
    (filled : templateFilling passed gap false = some new) :
    "in".toList.reverse <+: passed ∨ ∃ c rest, passed = c :: rest ∧ isWordChar c = false := by
  have spaced := endsWith_append ["=", ":", "|", "?"] ["in"] passed
  simp only [List.cons_append, List.nil_append] at spaced
  simp only [templateFilling, Bool.false_eq_true, if_false] at filled
  split at filled
  next opening => exact .inr (exists_cons_of_endsWith opening (by decide))
  split at filled
  next context =>
    rw [spaced, Bool.or_eq_true] at context
    rcases context with sign | word
    · exact .inr (exists_cons_of_endsWith sign (by decide))
    · obtain ⟨literal, listed, within⟩ := endsWith_iff.1 word
      exact .inl (List.mem_singleton.1 listed ▸ within)
  split at filled
  next operator => exact .inr (exists_cons_of_endsWith operator (by decide))
  split at filled
  next source =>
    rw [Bool.and_eq_true] at source
    exact .inr (exists_cons_of_endsWith source.1 (by decide))
  next => contradiction

namespace Site

variable {site : Site}

/-- The word of a site is the first of its words. -/
theorem Valid.isWordChar_eq_false (valid : site.Valid) :
    ∀ c ∈ site.gap ++ site.quote, isWordChar c = false := by
  intro c member
  rcases List.mem_append.1 member with blank | quote
  · exact isWordChar_of_isBlank (valid.blank c blank)
  · rw [Site.quote] at quote
    split at quote
    next =>
      rw [List.mem_singleton.1 quote]
      decide
    next => exact absurd quote List.not_mem_nil

theorem mark_of_not_quoted (unquoted : site.quoted = false) :
    site.mark = site.gap ++ (site.word ++ ['_']) := by
  simp [mark, quote, unquoted]

/-- A site that starts with a character of a word starts with its word. -/
theorem Valid.bare_of_isWordChar (valid : site.Valid) {c : Char} {rest : List Char}
    (letter : isWordChar c = true) (marked : site.mark <+: c :: rest) :
    site.gap = [] ∧ site.quoted = false := by
  have outside := valid.isWordChar_eq_false
  have divided : site.mark =
      (site.gap ++ site.quote) ++ (site.word ++ if site.quoted then [] else ['_']) := by
    simp [mark]
  cases apart : site.gap ++ site.quote with
  | nil => simpa [quote] using apart
  | cons d apart' =>
      rw [divided, apart, List.cons_append, List.cons_prefix_cons] at marked
      have other : isWordChar d = false := outside d (by simp [apart])
      rw [marked.1, letter] at other
      contradiction

end Site

/-! ## What is renamed -/

/-- Whether a site stands right behind the letters `in`. -/
def Site.IsGlued (site : Site) (before : List Char) : Prop :=
  site.gap = [] ∧ site.quoted = false ∧ "in".toList <:+ before

/-- A legacy word between two texts, with the blanks in front of it, and what it becomes. The word
begins an identifier, unless the letters `in` stand right in front of it, and an underscore follows
it, unless it is the quoted name of a header. -/
inductive IsTypeName (before after : List Char) : List Char → List Char → Prop where
  | mk {site : Site} {gap : List Char} (legacy : site.word ∈ legacyWords)
      (blank : ∀ c ∈ site.gap ++ gap, isBlank c = true)
      (begins : ¬ site.IsGlued before →
        ∃ c, (before ++ site.gap ++ site.quote).getLast? = some c ∧ isWordChar c = false)
      (follows : site.quoted = false → after.head? = some '_')
      (header : site.quoted = true → OpensHeader (before ++ site.gap ++ site.quote)) :
      IsTypeName before after site.stretch (gap ++ (site.quote ++ currentWord))

/-- What a pass over a configuration renames is a type name. -/
theorem isTypeName_of_at? {passed after gap : List Char} {site : Site}
    (here : templateFilling.at? passed (site.stretch ++ after) = some (site, gap)) :
    IsTypeName passed.reverse after site.stretch (gap ++ (site.quote ++ currentWord)) := by
  obtain ⟨found, filled⟩ := Filling.at?_eq_some_iff.1 here
  obtain ⟨valid, marked⟩ := Site.find?_eq_some_iff.1 found
  refine .mk valid.legacy ?_ ?_ ?_ ?_
  · intro c member
    rcases List.mem_append.1 member with old | new
    · exact valid.blank c old
    · exact lawful_template.blank valid.blank filled c new
  · intro apart
    cases quoted : site.quoted with
    | true => exact ⟨'"', by simp [Site.quote, quoted], by decide⟩
    | false =>
        have quote : site.quote = [] := by simp [Site.quote, quoted]
        rw [quote, List.append_nil, List.getLast?_append]
        cases last : site.gap.getLast? with
        | some c =>
            exact ⟨c, rfl, isWordChar_of_isBlank (valid.blank c (List.mem_of_getLast? last))⟩
        | none =>
            have empty := List.getLast?_eq_none_iff.1 last
            rw [quoted] at filled
            rcases context_of_templateFilling filled with glued | ⟨c, rest, rfl, other⟩
            · refine absurd ⟨empty, quoted, ?_⟩ apart
              rwa [← List.reverse_prefix, List.reverse_reverse]
            · exact ⟨c, by simp, other⟩
  · intro quoted
    have mark : site.mark = site.stretch ++ ['_'] := by
      simp [Site.mark_of_not_quoted quoted, Site.stretch, Site.quote, quoted]
    rw [mark, List.prefix_append_right_inj] at marked
    obtain ⟨rest, rfl⟩ := marked
    rfl
  · intro quoted
    have quote : site.quote = ['"'] := by simp [Site.quote, quoted]
    rw [quoted] at filled
    rw [quote]
    exact opensHeader_of_templateFilling valid.blank filled

/-- Every change that a pass makes is a type name between the texts around it. -/
theorem isTypeName_of_columns (passed text : List Char) :
    ∀ first old new last,
      templateFilling.columns passed text = first ++ .changed old new :: last →
        IsTypeName (passed.reverse ++ Column.oldText first) (Column.oldText last) old new := by
  induction passed, text using templateFilling.induction with
  | nil passed =>
      intro first old new last split
      rw [Filling.columns_nil] at split
      exact absurd split.symm (by simp)
  | site passed site gap after here ih =>
      intro first old new last split
      rw [Filling.columns_site here] at split
      rcases List.cons_eq_append_iff.1 split with ⟨rfl, same⟩ | ⟨earlier, rfl, later⟩
      · obtain ⟨changed, rfl⟩ := List.cons_eq_cons.1 same
        obtain ⟨rfl, rfl⟩ := Column.changed.inj changed
        rw [Filling.oldText_columns, Column.oldText_nil, List.append_nil]
        exact isTypeName_of_at? here
      · have known := ih earlier old new last later
        rw [List.reverse_append, List.reverse_reverse, List.append_assoc] at known
        exact known
  | cons passed c rest still ih =>
      intro first old new last split
      rw [Filling.columns_cons still] at split
      rcases List.cons_eq_append_iff.1 split with ⟨rfl, same⟩ | ⟨earlier, rfl, later⟩
      · exact absurd (List.cons_eq_cons.1 same).1 (by simp)
      · have known := ih earlier old new last later
        rw [List.reverse_cons, List.append_assoc] at known
        exact known

/-! ## What is kept -/

namespace Filling

variable {filling : Filling}

/-- The columns of a text can be cut where no renamed site is divided. -/
theorem exists_columns_append (passed text : List Char) :
    ∀ before rest, text = before ++ rest →
      (∀ front back site gap, before = front ++ back → back ≠ [] →
        filling.at? (front.reverse ++ passed) (back ++ rest) = some (site, gap) →
          site.stretch <+: back) →
      ∃ first, filling.columns passed text =
          first ++ filling.columns (before.reverse ++ passed) rest ∧
        Column.oldText first = before := by
  induction passed, text using filling.induction with
  | nil passed =>
      intro before rest split whole
      obtain ⟨rfl, rfl⟩ := List.append_eq_nil_iff.1 split.symm
      exact ⟨[], rfl, rfl⟩
  | site passed site gap after here ih =>
      intro before rest split whole
      by_cases empty : before = []
      · rw [empty] at split ⊢
        rw [split]
        exact ⟨[], rfl, rfl⟩
      · have inside : site.stretch <+: before := whole [] before site gap rfl empty (split ▸ here)
        obtain ⟨later, rfl⟩ := inside
        rw [List.append_assoc] at split
        have joined := List.append_cancel_left split
        obtain ⟨first, same, read⟩ := ih later rest joined (by
          intro front back other gap' divided nonempty found
          exact whole (site.stretch ++ front) back other gap' (by rw [divided, List.append_assoc])
            nonempty (by rwa [List.reverse_append, List.append_assoc]))
        rw [columns_site here, same]
        refine ⟨.changed site.stretch (gap ++ (site.quote ++ currentWord)) :: first, ?_,
          by rw [Column.oldText_cons, read]; rfl⟩
        rw [List.reverse_append, List.append_assoc]
        rfl
  | cons passed c text still ih =>
      intro before rest split whole
      cases before with
      | nil =>
          rw [split]
          exact ⟨[], rfl, rfl⟩
      | cons d before =>
          obtain ⟨rfl, joined⟩ := List.cons_eq_cons.1 split
          obtain ⟨first, same, read⟩ := ih before rest joined (by
            intro front back other gap' divided nonempty found
            exact whole (c :: front) back other gap' (by rw [divided]; rfl) nonempty
              (by simpa using found))
          rw [columns_cons still, same]
          exact ⟨.same c :: first, by simp, by rw [Column.oldText_cons, read]; rfl⟩

/-- A text in which no site is renamed is kept. -/
theorem columns_append_of_still {kept : List Char} (passed : List Char) {after : List Char}
    (still : ∀ front back, kept = front ++ back → back ≠ [] →
      filling.at? (front.reverse ++ passed) (back ++ after) = none) :
    filling.columns passed (kept ++ after) =
      kept.map .same ++ filling.columns (kept.reverse ++ passed) after := by
  induction kept generalizing passed with
  | nil => rfl
  | cons c kept ih =>
      have later := ih (c :: passed) (by
        intro front back divided nonempty
        have known := still (c :: front) back (by rw [divided]; rfl) nonempty
        simpa using known)
      have here : filling.at? passed (c :: (kept ++ after)) = none :=
        still [] (c :: kept) rfl (List.cons_ne_nil c kept)
      rw [List.cons_append, columns_cons here, later]
      simp

end Filling

/-- An identifier of a line: as many characters of a word as stand together. -/
structure StandsAlone (before identifier after : List Char) : Prop where
  nonempty : identifier ≠ []
  word : ∀ c ∈ identifier, isWordChar c = true
  starts : ∀ c, before.getLast? = some c → isWordChar c = false
  stops : ∀ c, after.head? = some c → isWordChar c = false

/-- An identifier that is no legacy type name. It may have the legacy words within, but not glued
to the letters `in`, and it may begin with them, but not in a header. -/
structure IsForeign (before identifier : List Char) : Prop where
  unnamed : ∀ word ∈ legacyWords, ¬ word ++ ['_'] <+: identifier
  unglued : ∀ word ∈ legacyWords, ¬ "in".toList ++ word ++ ['_'] <:+: identifier
  headed : ∀ word ∈ legacyWords, word <+: identifier → ¬ OpensHeader before

namespace StandsAlone

variable {before identifier after : List Char}

/-- What is made of characters of a word does not reach over the end of an identifier. -/
theorem prefix_of_word (alone : StandsAlone before identifier after) {back word : List Char}
    (known : ∀ c ∈ word, isWordChar c = true) (start : word <+: back ++ after) :
    word <+: back := by
  rcases prefix_append_cases start with inside | ⟨beyond, rfl, rest, rfl⟩
  · exact inside
  · cases beyond with
    | nil => simp
    | cons c beyond =>
        have letter : isWordChar c = true := known c (by simp)
        rw [alone.stops c rfl] at letter
        contradiction

/-- Neither does it reach over the start of one. -/
theorem suffix_of_word (alone : StandsAlone before identifier after) {front word : List Char}
    (known : ∀ c ∈ word, isWordChar c = true) (ends : word <:+ before ++ front) :
    word <:+ front := by
  obtain ⟨rest, joined⟩ := ends
  rcases List.append_eq_append_iff.1 joined with ⟨beyond, rfl, rfl⟩ | ⟨beyond, -, rfl⟩
  · cases last : beyond.getLast? with
    | none => simp [List.getLast?_eq_none_iff.1 last]
    | some c =>
        have letter : isWordChar c = true :=
          known c (List.mem_append_left front (List.mem_of_getLast? last))
        rw [alone.starts c (by simp [last])] at letter
        contradiction
  · exact List.suffix_append beyond word

/-- No site of an identifier that is no type name is renamed. -/
theorem not_at?_of_foreign (alone : StandsAlone before identifier after)
    (foreign : IsForeign before identifier) {front back : List Char}
    (split : identifier = front ++ back) (nonempty : back ≠ []) :
    templateFilling.at? (front.reverse ++ before.reverse) (back ++ after) = none := by
  rw [Filling.at?_eq_none_iff]
  intro site found
  obtain ⟨valid, marked⟩ := Site.find?_eq_some_iff.1 found
  obtain ⟨c, rest, rfl⟩ := List.exists_cons_of_ne_nil nonempty
  have letter : isWordChar c = true := alone.word c (by simp [split])
  obtain ⟨bare, unquoted⟩ := valid.bare_of_isWordChar letter marked
  rw [Site.mark_of_not_quoted unquoted, bare, List.nil_append] at marked
  obtain ⟨later, named⟩ :=
    alone.prefix_of_word (isWordChar_of_mem_legacyWords valid.legacy) marked
  rw [← named] at split
  rw [unquoted]
  cases filled : templateFilling (front.reverse ++ before.reverse) site.gap false with
  | none => rfl
  | some gap =>
      exfalso
      rcases context_of_templateFilling filled with glued | ⟨d, passed, joined, other⟩
      · -- The letters `in` are part of the identifier.
        rw [← List.reverse_append, List.reverse_prefix] at glued
        obtain ⟨earlier, rfl⟩ := alone.suffix_of_word (List.all_eq_true.1 (by decide)) glued
        exact foreign.unglued site.word valid.legacy ⟨earlier, later, by simp [split]⟩
      · cases reversed : front.reverse with
        | nil =>
            rw [List.reverse_eq_nil_iff.1 reversed] at split
            exact foreign.unnamed site.word valid.legacy ⟨later, split.symm⟩
        | cons e front' =>
            rw [reversed, List.cons_append] at joined
            have member : d ∈ front := by
              rw [← List.mem_reverse, reversed, (List.cons.inj joined).1]
              exact List.mem_cons_self
            rw [alone.word d (by simp [split, member])] at other
            contradiction

/-- A site in front of an identifier that is no type name does not reach into it. -/
theorem stretch_prefix_of_foreign (alone : StandsAlone before identifier after)
    (foreign : IsForeign before identifier) {front back gap : List Char} {site : Site}
    (split : before = front ++ back)
    (here : templateFilling.at? front.reverse (back ++ (identifier ++ after)) = some (site, gap)) :
    site.stretch <+: back := by
  obtain ⟨found, filled⟩ := Filling.at?_eq_some_iff.1 here
  obtain ⟨valid, marked⟩ := Site.find?_eq_some_iff.1 found
  rcases prefix_append_cases (site.stretch_prefix_mark.trans marked) with
    inside | ⟨beyond, joined, reached⟩
  · exact inside
  exfalso
  have letters : ∀ d ∈ site.word, isWordChar d = true := fun d member =>
    isWordChar_of_mem_legacyWords valid.legacy d (List.mem_append_left ['_'] member)
  obtain ⟨c, rest, rfl⟩ := List.exists_cons_of_ne_nil alone.nonempty
  -- What stands in front of the word ends where the identifier starts.
  obtain ⟨rfl, rfl⟩ : site.gap ++ site.quote = back ∧ site.word = beyond := by
    apply eq_of_append_eq
    · rw [← joined, Site.stretch, List.append_assoc]
    · exact valid.isWordChar_eq_false
    · exact letters
    · intro d last
      exact alone.starts d (by simp [split, last])
    · intro d head
      cases beyond with
      | nil => contradiction
      | cons e beyond =>
          rw [List.cons_append, List.cons_prefix_cons] at reached
          exact alone.word d (by simp_all)
  cases quoted : site.quoted with
  | true =>
      have named := alone.prefix_of_word letters reached
      have quote : site.quote = ['"'] := by simp [Site.quote, quoted]
      rw [quoted] at filled
      have header := opensHeader_of_templateFilling valid.blank filled
      rw [List.reverse_reverse, ← quote, List.append_assoc, ← split] at header
      exact foreign.headed site.word valid.legacy named header
  | false =>
      have quote : site.quote = [] := by simp [Site.quote, quoted]
      rw [Site.mark_of_not_quoted quoted, quote, List.append_nil,
        List.prefix_append_right_inj] at marked
      exact foreign.unnamed site.word valid.legacy
        (alone.prefix_of_word (isWordChar_of_mem_legacyWords valid.legacy) marked)

end StandsAlone

/-- A renamed line next to the line. What is changed is a type name between the texts around it,
and an identifier that is no legacy type name stands in both lines. -/
theorem renameLine_template_names (line : List Char) :
    ∃ columns, Column.oldText columns = line ∧
      Column.newText columns = Dialect.template.renameLine line ∧
      (∀ first old new last, columns = first ++ .changed old new :: last →
        IsTypeName (Column.oldText first) (Column.oldText last) old new) ∧
      ∀ before identifier after, line = before ++ identifier ++ after →
        StandsAlone before identifier after → IsForeign before identifier →
          ∃ first last, columns = first ++ identifier.map .same ++ last ∧
            Column.oldText first = before ∧ Column.oldText last = after := by
  refine ⟨templateFilling.columns [] line, Filling.oldText_columns _ [] line, ?_,
    isTypeName_of_columns [] line, ?_⟩
  · rw [Filling.newText_columns, renameLine_template]
  · rintro before identifier after rfl alone foreign
    obtain ⟨first, same, read⟩ := Filling.exists_columns_append [] (before ++ identifier ++ after)
      before (identifier ++ after) (List.append_assoc _ _ _) (by
        intro front back site gap split _ here
        rw [List.append_nil] at here
        exact alone.stretch_prefix_of_foreign foreign split here)
    have kept : templateFilling.columns before.reverse (identifier ++ after) =
        identifier.map .same ++
          templateFilling.columns (identifier.reverse ++ before.reverse) after :=
      Filling.columns_append_of_still before.reverse
        fun front back => alone.not_at?_of_foreign foreign
    rw [List.append_nil, kept] at same
    exact ⟨first, _, by rw [same, List.append_assoc], read, Filling.oldText_columns _ _ after⟩

theorem renameLine_template_metalcloud :
    ∃ first last,
      Column.oldText first = "x = ".toList ∧
        Column.oldText last = ".b + metal_c.d".toList ∧
        Column.newText (first ++ "metalcloud_a".toList.map .same ++ last) =
          Dialect.template.renameLine "x = metalcloud_a.b + metal_c.d".toList := by
  obtain ⟨columns, -, renamed, -, kept⟩ :=
    renameLine_template_names "x = metalcloud_a.b + metal_c.d".toList
  have alone : StandsAlone "x = ".toList "metalcloud_a".toList ".b + metal_c.d".toList :=
    { nonempty := by decide
      word := List.all_eq_true.1 (by decide)
      starts := by
        intro c last
        obtain rfl := Option.some.inj last
        decide
      stops := by
        intro c head
        obtain rfl := Option.some.inj head
        decide }
  have foreign : IsForeign "x = ".toList "metalcloud_a".toList :=
    { unnamed := by decide
      unglued := by
        intro word legacy
        rw [← occurs_eq_true_iff, Bool.not_eq_true]
        revert word
        decide
      headed := by
        rintro word legacy named ⟨keyword, listed, front, gap, spaced, blank, split⟩
        have last := congrArg List.getLast? split
        rw [List.getLast?_concat] at last
        exact absurd last (by decide) }
  obtain ⟨first, last, rfl, before, after⟩ := kept "x = ".toList "metalcloud_a".toList
    ".b + metal_c.d".toList (by decide) alone foreign
  exact ⟨first, last, before, after, renamed⟩

/-- A minus is an operator, so the name behind it is renamed. -/
theorem renameLine_template_minus :
    Dialect.template.renameLine "x = -metal_connection.a.speed".toList =
      "x = -equinix_metal_connection.a.speed".toList := by
  decide +kernel

end ProviderMigration.Identifier
