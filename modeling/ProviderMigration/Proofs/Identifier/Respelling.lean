import Mathlib.Data.List.Infix
import ProviderMigration.Proofs.Block.Alignment
import ProviderMigration.Proofs.Identifier.Template

/-!
# Respelled texts

To rename the names of a text is to exchange words and the blanks in front of them,
and to give its lines normal ends. None of this means anything to a scan for
braces, and no keyword of a block begins or ends in what is exchanged. So a text
and its respelled form have the same blocks, one after the other.
-/

namespace ProviderMigration.Identifier

open Text Block

/-- A stretch of blanks within a line. -/
def IsGap (gap : List Char) : Prop := ∀ c ∈ gap, isBlank c = true ∧ c ≠ '\n'

/-- A text, and the text with the same lines in which some legacy words are the
current one. The blanks in front of an exchanged word may change, but those in
front of a quoted one neither appear nor vanish, for a quote behind a backslash is
another quote. -/
inductive Respelled : List Char → List Char → Prop where
  | nil : Respelled [] []
  | ended : Respelled [] ['\n']
  | cons (c : Char) {text other : List Char} (later : Respelled text other) :
      Respelled (c :: text) (c :: other)
  | ending {text other : List Char} (later : Respelled text other) :
      Respelled ('\r' :: '\n' :: text) ('\n' :: other)
  | site {site : Site} {gap text other : List Char} (legacy : site.word ∈ legacyWords)
      (old : IsGap site.gap) (new : IsGap gap)
      (spaced : site.quoted = true → site.gap ≠ [] ∧ gap ≠ []) (later : Respelled text other) :
      Respelled (site.stretch ++ text) (gap ++ (site.quote ++ currentWord) ++ other)

variable {text other : List Char}

/-! ## Renaming respells -/

theorem templateFilling_of_quoted {passed gap new : List Char}
    (filled : templateFilling passed gap true = some new) : gap ≠ [] ∧ new = [' '] := by
  simp only [templateFilling, if_true] at filled
  split at filled
  next known =>
    simp only [Bool.and_eq_true, decide_eq_true_eq] at known
    exact ⟨known.2, (Option.some.inj filled).symm⟩
  next => contradiction

/-- A site, and what a pass makes of it. -/
inductive IsRenaming : List Char → List Char → Prop where
  | site {site : Site} {gap : List Char} (legacy : site.word ∈ legacyWords)
      (old : IsGap site.gap) (new : IsGap gap)
      (spaced : site.quoted = true → site.gap ≠ [] ∧ gap ≠ []) :
      IsRenaming site.stretch (gap ++ (site.quote ++ currentWord))

/-- A pass renames sites and keeps everything between them. -/
theorem aligns_pass (passed : List Char) {line : List Char} (newline : '\n' ∉ line) :
    Column.Aligns IsRenaming line (templateFilling.pass passed line) := by
  induction passed, line using templateFilling.induction with
  | nil passed =>
      rw [Filling.pass_nil]
      exact .refl []
  | site passed site gap after here ih =>
      obtain ⟨found, filled⟩ := Filling.at?_eq_some_iff.1 here
      have valid := (Site.find?_eq_some_iff.1 found).1
      rw [List.mem_append, not_or] at newline
      have old : IsGap site.gap := by
        refine fun c member => ⟨valid.blank c member, ?_⟩
        rintro rfl
        exact newline.1 (List.mem_append_left _ member)
      have new : IsGap gap := by
        rcases templateFilling_cases filled with rfl | rfl | rfl
        · exact fun c member => absurd member List.not_mem_nil
        · intro c member
          obtain rfl := List.mem_singleton.1 member
          decide
        · exact old
      have spaced : site.quoted = true → site.gap ≠ [] ∧ gap ≠ [] := by
        intro quoted
        rw [quoted] at filled
        obtain ⟨nonempty, rfl⟩ := templateFilling_of_quoted filled
        exact ⟨nonempty, List.cons_ne_nil _ _⟩
      rw [Filling.pass_site here]
      exact (Column.Aligns.of_meets (.site valid.legacy old new spaced)).append (ih newline.2)
  | cons passed c line still ih =>
      rw [List.mem_cons, not_or] at newline
      rw [Filling.pass_cons still]
      exact (ih newline.2).cons c

theorem aligns_renameLine {line : List Char} (newline : '\n' ∉ line) :
    Column.Aligns IsRenaming line (Dialect.template.renameLine line) := by
  rw [renameLine_template]
  exact aligns_pass [] newline

/-- A text is respelled where it is renamed. -/
theorem Respelled.of_aligns {line new : List Char} (aligned : Column.Aligns IsRenaming line new)
    (later : Respelled text other) : Respelled (line ++ text) (new ++ other) := by
  obtain ⟨columns, rfl, rfl, renames⟩ := aligned
  induction columns with
  | nil => exact later
  | cons column columns ih =>
      have rest := ih renames.of_cons
      rw [Column.oldText_cons, Column.newText_cons, List.append_assoc, List.append_assoc]
      cases column with
      | same c => exact .cons c rest
      | changed old new =>
          cases renames old new List.mem_cons_self with
          | site legacy old new spaced => exact .site legacy old new spaced rest

theorem respelled_renameLine {line : List Char} (newline : '\n' ∉ line)
    (later : Respelled text other) :
    Respelled (line ++ text) (Dialect.template.renameLine line ++ other) :=
  .of_aligns (aligns_renameLine newline) later

/-- Rows and a remainder are respelled line by line. -/
theorem respelled_unlines {rows : List (List Char)} {last : List Char}
    (clean : ∀ row ∈ rows, '\n' ∉ row) (single : '\n' ∉ last) :
    Respelled (unlines rows ++ last)
      (unlines ((rows.map withoutReturn ++ if last.isEmpty then [] else [last]).map
        Dialect.template.renameLine)) := by
  induction rows with
  | nil =>
      cases last with
      | nil => exact .nil
      | cons c last =>
          have line := respelled_renameLine single .ended
          rw [List.append_nil] at line
          simpa [unlines] using line
  | cons row rows ih =>
      have later := ih fun other member => clean other (List.mem_cons_of_mem row member)
      have start := withoutReturn_prefix row
      have newline : '\n' ∉ withoutReturn row := fun member =>
        clean row List.mem_cons_self (start.subset member)
      rw [unlines_cons, List.append_assoc, List.cons_append, List.map_cons, List.cons_append,
        List.map_cons, unlines_cons]
      rcases eq_withoutReturn_or row with same | same
      · have line := respelled_renameLine newline (later.cons '\n')
        rw [← same] at line ⊢
        exact line
      · have line := respelled_renameLine newline later.ending
        have joined := List.append_assoc (withoutReturn row) ['\r'] ('\n' :: (unlines rows ++ last))
        rw [← same] at joined
        rw [joined]
        exact line

theorem respelled_renameText (content : List Char) :
    Respelled content (Dialect.template.renameText content) := by
  have clean := not_mem_rows content
  have joined := respelled_unlines clean.1 clean.2
  rwa [unlines_rows] at joined

/-! ## What a scan sees -/

theorem isInert_of_isBlank {c : Char} (blank : isBlank c = true) (newline : c ≠ '\n') :
    IsInert c := by
  have inked : ∀ d ∈ meaningful, d = '\n' ∨ isBlank d = false :=
    List.all_iff_forall_prop.1 (by decide)
  intro d member same
  obtain rfl : c = d := same
  rcases inked c member with rfl | ink
  · exact newline rfl
  · exact Bool.false_ne_true (ink.symm.trans blank)

theorem isInert_return : IsInert '\r' := by
  have known : ∀ d ∈ meaningful, '\r' ≠ d := List.all_iff_forall_prop.1 (by decide)
  exact known

theorem isInert_of_mem_word {word : List Char} (member : word ∈ currentWord :: legacyWords) :
    ∀ c ∈ word, IsInert c := by
  have known : ∀ word ∈ currentWord :: legacyWords, isMeaningless word = true := by decide
  exact isInert_of_isMeaningless (known word member)

/-- A scan passes over a word and the blanks in front of it. The quote between them
counts, and it is no quote behind a backslash if there are blanks. -/
theorem remainder?_word {gap word : List Char} (isGap : IsGap gap)
    (listed : word ∈ currentWord :: legacyWords) (quoted : Bool)
    (spaced : quoted = true → gap ≠ []) (mode : Mode) (depth : Int) (text : List Char) :
    remainder? mode depth (gap ++ ((if quoted then ['"'] else []) ++ word) ++ text) =
      if quoted then remainder? (mode.pass.step '"' none).pass depth text
      else remainder? mode.pass depth text := by
  have blanks : ∀ c ∈ gap, IsInert c :=
    fun c member => isInert_of_isBlank (isGap c member).1 (isGap c member).2
  have letters := isInert_of_mem_word listed
  have nonempty : word ≠ [] := by
    have known : ∀ word ∈ currentWord :: legacyWords, word ≠ [] := by decide
    exact known word listed
  cases quoted with
  | false =>
      have all : ∀ c ∈ gap ++ word, IsInert c := by
        intro c member
        rcases List.mem_append.1 member with blank | letter
        · exact blanks c blank
        · exact letters c letter
      exact remainder?_append_of_isInert all (by simp [nonempty]) mode depth text
  | true =>
      have quote : ∀ mode : Mode, remainder? mode depth ('"' :: (word ++ text)) =
          remainder? (mode.step '"' none) depth (word ++ text) := by
        intro mode
        have lone : mode.step '"' (word ++ text).head? = mode.step '"' none := by
          cases mode <;> rfl
        rw [remainder?, lone]
        simp only [show ('"' : Char) ≠ symbol '\x7d' by decide,
          show ('"' : Char) ≠ symbol '\x7b' by decide, and_false, if_false]
      have spelled : gap ++ ((if true then ['"'] else []) ++ word) ++ text =
          gap ++ '"' :: (word ++ text) := by simp
      rw [spelled, remainder?_append_of_isInert blanks (spaced rfl), quote,
        remainder?_append_of_isInert letters nonempty, if_pos rfl]

/-- A word with blanks in front of it starts with a quote or with a character that
means nothing. -/
theorem exists_head_word {gap word : List Char} (isGap : IsGap gap)
    (listed : word ∈ currentWord :: legacyWords) (quoted : Bool) (text : List Char) :
    ∃ c, (gap ++ ((if quoted then ['"'] else []) ++ word) ++ text).head? = some c ∧
      (c = '"' ∨ IsInert c) := by
  cases gap with
  | cons c gap =>
      have blank := isGap c List.mem_cons_self
      exact ⟨c, rfl, .inr (isInert_of_isBlank blank.1 blank.2)⟩
  | nil =>
      cases quoted with
      | true => exact ⟨'"', rfl, .inl rfl⟩
      | false =>
          have known : ∀ word ∈ currentWord :: legacyWords, word ≠ [] := by decide
          obtain ⟨c, rest, rfl⟩ := List.exists_cons_of_ne_nil (known word listed)
          exact ⟨c, rfl, .inr (isInert_of_mem_word listed c List.mem_cons_self)⟩

theorem currentWord_listed : currentWord ∈ currentWord :: legacyWords := List.mem_cons_self

/-- A scan passes over a word with the blanks in front of it. A quote between them counts, and
it is not escaped if there are blanks. -/
theorem passes_word {gap word : List Char} (isGap : IsGap gap)
    (listed : word ∈ currentWord :: legacyWords) (quoted : Bool)
    (spaced : quoted = true → gap ≠ []) (mode : Mode) :
    Balance.Passes mode (if quoted then (mode.pass.step '"' none).pass else mode.pass)
      (gap ++ ((if quoted then ['"'] else []) ++ word)) := by
  have blanks : ∀ c ∈ gap, IsInert c :=
    fun c member => isInert_of_isBlank (isGap c member).1 (isGap c member).2
  have letters := isInert_of_mem_word listed
  have known : ∀ word ∈ currentWord :: legacyWords, word ≠ [] := by decide
  have nonempty := known word listed
  cases quoted with
  | false =>
      apply Balance.passes_of_isInert
      · intro c member
        rcases List.mem_append.1 member with blank | letter
        · exact blanks c blank
        · exact letters c letter
      · simp [nonempty]
  | true =>
      have before := Balance.passes_of_isInert blanks (spaced rfl) mode
      have quote := Balance.passes_quote mode.pass
      have after := Balance.passes_of_isInert letters nonempty (mode.pass.step '"' none)
      exact before.append (quote.append after)

/-- Nothing of a renaming is seen by a scan. -/
theorem isSilent_of_isRenaming {old new : List Char} (renames : IsRenaming old new) :
    IsSilent old new := by
  cases renames with
  | @site site gap legacy isGap isGap' spaced =>
  have listed := List.mem_cons_of_mem currentWord legacy
  constructor
  · intro mode
    refine ⟨_, passes_word isGap listed site.quoted (fun quoted => (spaced quoted).1) mode, ?_⟩
    exact passes_word isGap' currentWord_listed site.quoted (fun quoted => (spaced quoted).2) mode
  · intro text other
    obtain ⟨c, first, known⟩ := exists_head_word isGap listed site.quoted text
    obtain ⟨d, first', known'⟩ := exists_head_word isGap' currentWord_listed site.quoted other
    have plain : ∀ c, c = '"' ∨ IsInert c → c ∉ ['/', '*', '\x7b'] := by
      have meant : ∀ c ∈ ['/', '*', '\x7b'], c ∈ meaningful ∧ c ≠ '"' :=
        List.all_iff_forall_prop.1 (by decide)
      intro c known member
      rcases known with quote | inert
      · exact (meant c member).2 quote
      · exact inert c (meant c member).1 rfl
    rw [Site.stretch, Site.quote, first, first']
    exact sameAhead_of_not_mem (plain c known) (plain d known')

namespace Respelled

/-- A scan that looks one character ahead sees no difference. -/
theorem sameAhead (respelled : Respelled text other) : SameAhead text.head? other.head? := by
  have known : ∀ d ∈ ['/', '*', '\x7b'], '\r' ≠ d ∧ '\n' ≠ d := List.all_iff_forall_prop.1 (by decide)
  cases respelled with
  | nil => exact fun _ _ => Iff.rfl
  | ended =>
      intro d listed
      simp [symbol, (known d listed).2]
  | cons c => exact fun _ _ => Iff.rfl
  | ending =>
      apply sameAhead_of_not_mem
      · exact fun listed => (known _ listed).1 rfl
      · exact fun listed => (known _ listed).2 rfl
  | site legacy old new spaced =>
      exact (isSilent_of_isRenaming (.site legacy old new spaced)).ahead _ _

end Respelled

/-- Two remainders, of a text and of its respelled form, with what is in front of
them respelled as well. -/
def SameCut (text other : List Char) : Option (List Char) → Option (List Char) → Prop :=
  Option.Rel fun rest rest' => ∃ front front', text = front ++ rest ∧ other = front' ++ rest' ∧
    Respelled front front' ∧ Respelled rest rest'

namespace SameCut

theorem here (respelled : Respelled text other) : SameCut text other (some text) (some other) :=
  .some ⟨[], [], rfl, rfl, .nil, respelled⟩

/-- A cut behind a front that can be respelled. -/
theorem append (front front' : List Char) {rest? rest?' : Option (List Char)}
    (extend : ∀ {text other}, Respelled text other → Respelled (front ++ text) (front' ++ other))
    (same : SameCut text other rest? rest?') :
    SameCut (front ++ text) (front' ++ other) rest? rest?' := by
  cases same with
  | none => exact .none
  | some cut =>
      obtain ⟨before, before', rfl, rfl, fronts, rests⟩ := cut
      exact .some ⟨front ++ before, front' ++ before', (List.append_assoc _ _ _).symm,
        (List.append_assoc _ _ _).symm, extend fronts, rests⟩

theorem exists_of_some {rest : List Char} {rest?' : Option (List Char)}
    (same : SameCut text other (some rest) rest?') :
    ∃ rest' front front', rest?' = some rest' ∧ text = front ++ rest ∧ other = front' ++ rest' ∧
      Respelled front front' ∧ Respelled rest rest' := by
  cases same with
  | some cut =>
      obtain ⟨front, front', split, split', fronts, rests⟩ := cut
      exact ⟨_, front, front', rfl, split, split', fronts, rests⟩

end SameCut

namespace Respelled

/-- A newline ends what an escape or a star may have begun. -/
theorem remainder?_newline (mode : Mode) (depth : Int) (text : List Char) :
    Block.remainder? mode depth ('\n' :: text) = Block.remainder? (mode.step '\n' none) depth text := by
  have step : mode.step '\n' text.head? = mode.step '\n' none := by
    cases mode <;> rfl
  have opening : '\n' ≠ symbol '\x7b' := by decide
  have closing : '\n' ≠ symbol '\x7d' := by decide
  rw [Block.remainder?, step]
  simp only [opening, closing, and_false, if_false]

/-- A block that is closed in a text is closed in the respelled text, and what
follows it is respelled. -/
theorem remainder? (respelled : Respelled text other) (mode : Mode) (depth : Int) :
    SameCut text other (Block.remainder? mode depth text) (Block.remainder? mode depth other) := by
  induction respelled generalizing mode depth with
  | nil => exact .none
  | ended =>
      rw [remainder?_newline]
      exact .none
  | @cons c text other later ih =>
      rw [Block.remainder?, Block.remainder?,
        Mode.step_congr (fun _ _ => Iff.rfl) later.sameAhead]
      by_cases closing : mode = .code ∧ c = symbol '\x7d'
      · rw [if_pos closing, if_pos closing]
        by_cases balanced : depth = 1
        · rw [if_pos balanced, if_pos balanced]
          exact SameCut.append [c] [c] (.cons c) (.here later)
        · rw [if_neg balanced, if_neg balanced]
          exact SameCut.append [c] [c] (.cons c) (ih _ _)
      · rw [if_neg closing, if_neg closing]
        exact SameCut.append [c] [c] (.cons c) (ih _ _)
  | @ending text other later ih =>
      have inert : ∀ c ∈ ['\r'], IsInert c := List.forall_mem_singleton.2 isInert_return
      have first : Block.remainder? mode depth ('\r' :: '\n' :: text) =
          Block.remainder? mode.pass depth ('\n' :: text) :=
        remainder?_append_of_isInert inert (List.cons_ne_nil _ _) mode depth _
      have same : mode.pass.step '\n' none = mode.step '\n' none := by
        cases mode <;> rfl
      rw [first, remainder?_newline, remainder?_newline, same]
      exact SameCut.append ['\r', '\n'] ['\n'] .ending (ih _ _)
  | @site site gap text other legacy old new spaced later ih =>
      have before : Block.remainder? mode depth (site.stretch ++ text) =
          if site.quoted then Block.remainder? (mode.pass.step '"' none).pass depth text
          else Block.remainder? mode.pass depth text :=
        remainder?_word old (List.mem_cons_of_mem _ legacy) site.quoted
          (fun quoted => (spaced quoted).1) mode depth text
      have after : Block.remainder? mode depth (gap ++ (site.quote ++ currentWord) ++ other) =
          if site.quoted then Block.remainder? (mode.pass.step '"' none).pass depth other
          else Block.remainder? mode.pass depth other :=
        remainder?_word new currentWord_listed site.quoted
          (fun quoted => (spaced quoted).2) mode depth other
      rw [before, after]
      apply SameCut.append _ _ (.site legacy old new spaced)
      split
      next => exact ih _ _
      next => exact ih _ _

/-- Blanks are respelled as blanks. -/
theorem isBlank_of_mem (respelled : Respelled text other)
    (blank : ∀ c ∈ text, isBlank c = true) : ∀ c ∈ other, isBlank c = true := by
  induction respelled with
  | nil => exact blank
  | ended => exact List.forall_mem_singleton.2 (by decide)
  | cons c later ih =>
      rw [List.forall_mem_cons] at blank ⊢
      exact ⟨blank.1, ih blank.2⟩
  | ending later ih =>
      rw [List.forall_mem_cons, List.forall_mem_cons] at blank
      rw [List.forall_mem_cons]
      exact ⟨blank.2.1, ih blank.2.2⟩
  | @site site gap text other legacy old new spaced later ih =>
      have inked : ∀ word ∈ legacyWords, word.any (!isBlank ·) = true := by decide
      obtain ⟨c, member, ink⟩ := List.any_eq_true.1 (inked site.word legacy)
      have inside : c ∈ site.stretch ++ text := by simp [Site.stretch, member]
      rw [blank c inside] at ink
      contradiction

end Respelled

/-! ## Where a keyword is found -/

/-- Whether neither of two texts starts with the other. -/
def diverge (one other : List Char) : Bool :=
  !one.isPrefixOf other && !other.isPrefixOf one

/-- Whether a token has no character in a gap or a quote, and neither starts in a
word nor has a word start in it. -/
def isAloof (token : List Char) : Bool :=
  token.all (fun c => !isBlank c && c != '"') &&
    (currentWord :: legacyWords).all fun word =>
      token.tails.all (fun tail => tail.isEmpty || diverge tail word) &&
        word.tails.all (fun tail => tail.isEmpty || diverge token tail)

theorem not_prefix_append_of_diverge {one other : List Char} (apart : diverge one other = true)
    (text : List Char) : ¬ one <+: other ++ text := by
  simp only [diverge, Bool.and_eq_true, Bool.not_eq_true', Bool.eq_false_iff, ne_eq,
    List.isPrefixOf_iff_prefix] at apart
  intro start
  rcases List.prefix_or_prefix_of_prefix start (List.prefix_append other text) with left | right
  · exact apart.1 left
  · exact apart.2 right

section Aloof

variable {token : List Char} 

theorem ink_of_isAloof (aloof : isAloof token = true) {c : Char} (member : c ∈ token) :
    isBlank c = false ∧ c ≠ '"' := by
  simp only [isAloof, Bool.and_eq_true, List.all_eq_true] at aloof
  simpa using aloof.1 c member

/-- No end of the token starts in a gap, a quote or a word. -/
theorem not_prefix_word {gap word tail : List Char} (aloof : isAloof token = true)
    (ends : tail <:+ token) (nonempty : tail ≠ []) (isGap : IsGap gap)
    (listed : word ∈ currentWord :: legacyWords) (quoted : Bool) (text : List Char) :
    ¬ tail <+: gap ++ ((if quoted then ['"'] else []) ++ word) ++ text := by
  obtain ⟨c, rest, rfl⟩ := List.exists_cons_of_ne_nil nonempty
  have ink := ink_of_isAloof aloof (ends.subset List.mem_cons_self)
  intro start
  cases gap with
  | cons d gap =>
      obtain ⟨rfl, -⟩ := List.cons_prefix_cons.1 start
      exact Bool.false_ne_true (ink.1.symm.trans (isGap c List.mem_cons_self).1)
  | nil =>
      cases quoted with
      | true =>
          obtain ⟨rfl, -⟩ := List.cons_prefix_cons.1 start
          exact ink.2 rfl
      | false =>
          simp only [isAloof, Bool.and_eq_true, List.all_eq_true] at aloof
          have apart := (aloof.2 word listed).1 _ ((List.mem_tails _ _).2 ends)
          exact not_prefix_append_of_diverge (by simpa using apart) text start

/-- A search for the token passes over a gap, a quote and a word. -/
theorem cutAt?_word {gap word : List Char} (aloof : isAloof token = true) (nonempty : token ≠ [])
    (isGap : IsGap gap) (listed : word ∈ currentWord :: legacyWords) (quoted : Bool)
    (text : List Char) :
    cutAt? token (gap ++ ((if quoted then ['"'] else []) ++ word) ++ text) =
      (cutAt? token text).map fun (before, found) =>
        (gap ++ ((if quoted then ['"'] else []) ++ word) ++ before, found) := by
  obtain ⟨c, rest, rfl⟩ := List.exists_cons_of_ne_nil nonempty
  have ink := ink_of_isAloof aloof List.mem_cons_self
  have foreign : c ∉ gap ++ if quoted then ['"'] else [] := by
    rw [List.mem_append, not_or]
    constructor
    · exact fun member => Bool.false_ne_true (ink.1.symm.trans (isGap c member).1)
    · split <;> simp [ink.2]
  have inside : ∀ tail, tail ≠ [] → tail <:+ word → ¬ c :: rest <+: tail ++ text := by
    intro tail nonempty ends
    simp only [isAloof, Bool.and_eq_true, List.all_eq_true] at aloof
    have apart := (aloof.2 word listed).2 tail ((List.mem_tails _ _).2 ends)
    exact not_prefix_append_of_diverge (by simpa [nonempty] using apart) text
  rw [← List.append_assoc gap, List.append_assoc _ word, cutAt?_append_of_not_mem foreign,
    cutAt?_append_of_not_prefix inside, Option.map_map]
  simp [Function.comp_def]

/-- A search for the token passes over blanks. -/
theorem cutAt?_blanks (aloof : isAloof token = true) (nonempty : token ≠ []) (front : List Char)
    (blank : front.all isBlank = true) (text : List Char) :
    (cutAt? token (front ++ text)).map (·.2) = (cutAt? token text).map (·.2) := by
  obtain ⟨c, rest, rfl⟩ := List.exists_cons_of_ne_nil nonempty
  have ink := ink_of_isAloof aloof List.mem_cons_self
  have foreign : c ∉ front := fun member =>
    Bool.false_ne_true (ink.1.symm.trans (List.all_eq_true.1 blank c member))
  rw [cutAt?_append_of_not_mem foreign, Option.map_map]
  rfl

end Aloof

namespace Respelled

variable {token : List Char}

/-- What an end of a token starts with is no blank. -/
private theorem not_prefix_blank {tail : List Char} (aloof : isAloof token = true)
    (ends : tail <:+ token) (nonempty : tail ≠ []) {c : Char} (blank : isBlank c = true)
    (text : List Char) : ¬ tail <+: c :: text := by
  obtain ⟨d, rest, rfl⟩ := List.exists_cons_of_ne_nil nonempty
  intro start
  obtain ⟨rfl, -⟩ := List.cons_prefix_cons.1 start
  have ink := ink_of_isAloof aloof (ends.subset List.mem_cons_self)
  exact Bool.false_ne_true (ink.1.symm.trans blank)

/-- A token that is aloof starts where it has started. -/
theorem prefix_iff (respelled : Respelled text other) (aloof : isAloof token = true)
    {tail : List Char} (ends : tail <:+ token) : tail <+: text ↔ tail <+: other := by
  by_cases nonempty : tail = []
  · rw [nonempty]
    exact iff_of_true List.nil_prefix List.nil_prefix
  induction respelled generalizing tail with
  | nil => rfl
  | ended =>
      apply iff_of_false
      · rwa [List.prefix_nil]
      · exact not_prefix_blank aloof ends nonempty (by decide) []
  | @cons c text other later ih =>
      obtain ⟨d, rest, rfl⟩ := List.exists_cons_of_ne_nil nonempty
      rw [List.cons_prefix_cons, List.cons_prefix_cons]
      apply and_congr_right
      intro same
      by_cases last : rest = []
      · rw [last]
        exact iff_of_true List.nil_prefix List.nil_prefix
      · exact ih ((List.suffix_cons d rest).trans ends) last
  | ending later ih =>
      apply iff_of_false
      · exact not_prefix_blank aloof ends nonempty (by decide) _
      · exact not_prefix_blank aloof ends nonempty (by decide) _
  | @site site gap text other legacy old new spaced later ih =>
      apply iff_of_false
      · exact not_prefix_word aloof ends nonempty old (List.mem_cons_of_mem _ legacy) site.quoted text
      · exact not_prefix_word aloof ends nonempty new currentWord_listed site.quoted other

/-- A keyword that is aloof is found in a text and in the respelled text at the same
place. -/
theorem cutAt? (respelled : Respelled text other) (aloof : isAloof token = true)
    (nonempty : token ≠ []) :
    SameCut text other ((Text.cutAt? token text).map (·.2)) ((Text.cutAt? token other).map (·.2)) := by
  have absent : Text.cutAt? token [] = none := by rwa [cutAt?_eq_none_iff, List.infix_nil]
  induction respelled with
  | nil =>
      rw [absent]
      exact .none
  | ended =>
      have same := cutAt?_blanks aloof nonempty ['\n'] (by decide) []
      rw [List.append_nil] at same
      rw [same, absent]
      exact .none
  | @cons c text other later ih =>
      have starts := prefix_iff (.cons c later) aloof (List.suffix_refl token)
      rw [cutAt?_cons, cutAt?_cons]
      by_cases here : token <+: c :: text
      · rw [if_pos (List.isPrefixOf_iff_prefix.2 here),
          if_pos (List.isPrefixOf_iff_prefix.2 (starts.1 here))]
        exact .here (.cons c later)
      · rw [if_neg (mt List.isPrefixOf_iff_prefix.1 here),
          if_neg (mt List.isPrefixOf_iff_prefix.1 (mt starts.2 here)), Option.map_map,
          Option.map_map]
        exact SameCut.append [c] [c] (.cons c) ih
  | @ending text other later ih =>
      have before := cutAt?_blanks aloof nonempty ['\r', '\n'] (by decide) text
      have after := cutAt?_blanks aloof nonempty ['\n'] (by decide) other
      have cut := SameCut.append ['\r', '\n'] ['\n'] .ending ih
      rwa [← before, ← after] at cut
  | @site site gap text other legacy old new spaced later ih =>
      have before : Text.cutAt? token (site.stretch ++ text) =
          (Text.cutAt? token text).map fun (before, found) => (site.stretch ++ before, found) :=
        cutAt?_word aloof nonempty old (List.mem_cons_of_mem _ legacy) site.quoted text
      have after : Text.cutAt? token (gap ++ (site.quote ++ currentWord) ++ other) =
          (Text.cutAt? token other).map fun (before, found) =>
            (gap ++ (site.quote ++ currentWord) ++ before, found) :=
        cutAt?_word aloof nonempty new currentWord_listed site.quoted other
      rw [before, after, Option.map_map, Option.map_map]
      exact SameCut.append _ _ (.site legacy old new spaced) ih

end Respelled

end ProviderMigration.Identifier
