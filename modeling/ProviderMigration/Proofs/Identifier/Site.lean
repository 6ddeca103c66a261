import ProviderMigration.Text.Blank

/-!
# Sites

A site is a place where a text may have a legacy type name: the first word of the
name together with all the blanks in front of it. A text has one site at most at
each place.
-/

namespace ProviderMigration.Identifier

open Text

/-- The first words of the legacy type names. -/
def legacyWords : List (List Char) := ["metal".toList, "packet".toList]

/-- The first words of the type names that succeed them. -/
def currentWord : List Char := "equinix_metal".toList

theorem currentWord_eq :
    currentWord = ['e', 'q', 'u', 'i', 'n', 'i', 'x', '_', 'm', 'e', 't', 'a', 'l'] := rfl

/-- The blanks at the start of a text end where another character stands. -/
theorem takeWhile_isBlank_append {gap text : List Char} (blank : ∀ c ∈ gap, isBlank c = true)
    (stop : ∀ c ∈ text.head?, isBlank c = false) : (gap ++ text).takeWhile isBlank = gap := by
  rw [List.takeWhile_append_of_pos blank]
  cases text with
  | nil => simp
  | cons c text => simp [stop c rfl]

/-- A legacy word with the blanks in front of it. A quote may stand between
them. -/
structure Site where
  gap : List Char
  quoted : Bool
  word : List Char
  deriving DecidableEq, Repr

namespace Site

variable {site : Site} {text : List Char}

def quote (site : Site) : List Char := if site.quoted then ['"'] else []

/-- The text that a site takes up. -/
def stretch (site : Site) : List Char := site.gap ++ (site.quote ++ site.word)

/-- The text that shows that there is a site. A word that is not quoted is part
of a type name only if an underscore follows. -/
def mark (site : Site) : List Char :=
  site.gap ++ (site.quote ++ site.word ++ if site.quoted then [] else ['_'])

/-- The sites that a text with the given blanks at its start may have there. -/
def candidates (gap : List Char) : List Site :=
  legacyWords.map (⟨gap, true, ·⟩) ++ legacyWords.map (⟨gap, false, ·⟩)

/-- The site at the start of a text. All the blanks at the start belong to it. -/
def find? (text : List Char) : Option Site :=
  (candidates (text.takeWhile isBlank)).find? (·.mark.isPrefixOf text)

/-- A site is made of blanks and a legacy word. -/
structure Valid (site : Site) : Prop where
  blank : ∀ c ∈ site.gap, isBlank c = true
  legacy : site.word ∈ legacyWords

theorem Valid.cases (valid : site.Valid) :
    site = ⟨site.gap, true, "metal".toList⟩ ∨ site = ⟨site.gap, true, "packet".toList⟩ ∨
      site = ⟨site.gap, false, "metal".toList⟩ ∨ site = ⟨site.gap, false, "packet".toList⟩ := by
  obtain ⟨gap, quoted, word⟩ := site
  obtain ⟨-, legacy⟩ := valid
  simp only [legacyWords, List.mem_cons, List.not_mem_nil, or_false] at legacy
  cases quoted <;> rcases legacy with rfl | rfl <;> simp

/-- The blanks at the start of a text with a site are those of the site. -/
theorem Valid.takeWhile_mark_append (valid : site.Valid) (after : List Char) :
    (site.mark ++ after).takeWhile isBlank = site.gap := by
  rw [mark, List.append_assoc]
  apply takeWhile_isBlank_append valid.blank
  rcases valid.cases with same | same | same | same <;> rw [same] <;> simp [quote] <;> decide

/-- There is one way at most to read a site at the start of a text. -/
theorem find?_eq_some_iff : find? text = some site ↔ site.Valid ∧ site.mark <+: text := by
  constructor
  · intro found
    have candidate := List.mem_of_find?_eq_some found
    have here := List.find?_some found
    refine ⟨⟨?_, ?_⟩, List.isPrefixOf_iff_prefix.1 here⟩
    · have gap : site.gap = text.takeWhile isBlank := by
        simp only [candidates, List.mem_append, List.mem_map] at candidate
        rcases candidate with ⟨word, -, rfl⟩ | ⟨word, -, rfl⟩ <;> rfl
      rw [gap]
      intro c member
      exact List.all_eq_true.1 List.all_takeWhile c member
    · simp only [candidates, List.mem_append, List.mem_map] at candidate
      rcases candidate with ⟨word, legacy, rfl⟩ | ⟨word, legacy, rfl⟩ <;> exact legacy
  · rintro ⟨valid, after, rfl⟩
    rw [find?, valid.takeWhile_mark_append]
    rcases valid.cases with same | same | same | same <;> rw [same] <;>
      simp [candidates, legacyWords, mark, quote]

theorem stretch_prefix_mark (site : Site) : site.stretch <+: site.mark := by
  rw [stretch, mark, ← List.append_assoc, ← List.append_assoc, ← List.append_assoc]
  exact List.prefix_append _ _

theorem Valid.stretch_ne_nil (valid : site.Valid) : site.stretch ≠ [] := by
  rcases valid.cases with same | same | same | same <;> rw [same] <;> simp [stretch, quote]

theorem Valid.length_stretch_pos (valid : site.Valid) : 0 < site.stretch.length :=
  List.length_pos_iff.2 valid.stretch_ne_nil

/-- A text starts with its site. -/
theorem exists_append_of_find? (found : find? text = some site) :
    ∃ after, text = site.stretch ++ after := by
  obtain ⟨-, here⟩ := find?_eq_some_iff.1 found
  obtain ⟨after, joined⟩ := site.stretch_prefix_mark.trans here
  exact ⟨after, joined.symm⟩

end Site

/-! ## Places without a site -/

/-- A character that starts no site. -/
def isPlain (c : Char) : Bool := !isBlank c && c != '"' && c != 'm' && c != 'p'

/-- What shows that there is a site starts with a blank, a quote, or the first
letter of a legacy word. -/
theorem Site.Valid.exists_mark_eq_cons {site : Site} (valid : site.Valid) :
    ∃ c rest, site.mark = c :: rest ∧ isPlain c = false := by
  have blank := valid.blank
  cases gap : site.gap with
  | nil =>
      rcases valid.cases with same | same | same | same <;> rw [same, gap] <;>
        exact ⟨_, _, rfl, by decide⟩
  | cons c gap' =>
      refine ⟨c, gap' ++ (site.quote ++ site.word ++ if site.quoted then [] else ['_']), ?_, ?_⟩
      · rw [Site.mark, gap]
        rfl
      · simp [isPlain, blank c (by simp [gap])]

theorem Site.find?_of_isPlain {c : Char} {rest : List Char} (plain : isPlain c = true) :
    Site.find? (c :: rest) = none := by
  rw [Option.eq_none_iff_forall_ne_some]
  intro site found
  obtain ⟨valid, here⟩ := Site.find?_eq_some_iff.1 found
  obtain ⟨first, tail, mark, special⟩ := valid.exists_mark_eq_cons
  rw [mark, List.cons_prefix_cons] at here
  rw [here.1, plain] at special
  contradiction

/-- There is no site where a renamed one begins. -/
theorem find?_renamed {site : Site} {gap : List Char} (blank : ∀ c ∈ gap, isBlank c = true)
    (after : List Char) : Site.find? (gap ++ (site.quote ++ currentWord) ++ after) = none := by
  rw [Option.eq_none_iff_forall_ne_some]
  intro other found
  obtain ⟨valid, rest, joined⟩ := Site.find?_eq_some_iff.1 found
  have gaps : other.gap = gap := by
    rw [← valid.takeWhile_mark_append rest, joined, List.append_assoc]
    apply takeWhile_isBlank_append blank
    rw [Site.quote]
    cases site.quoted <;> simp [currentWord_eq] <;> decide
  rw [Site.mark, gaps, List.append_assoc, List.append_assoc gap] at joined
  have cores := List.append_cancel_left joined
  rcases valid.cases with same | same | same | same <;> rw [same] at cores <;>
    cases quoted : site.quoted <;> simp [Site.quote, quoted, currentWord_eq] at cores

end ProviderMigration.Identifier
