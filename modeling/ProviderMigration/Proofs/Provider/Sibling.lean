import ProviderMigration.Proofs.Provider.Attributes
import ProviderMigration.Proofs.Provider.Succession
import ProviderMigration.Text.Blank

/-!
# The siblings of a legacy entry

A block of requirements is a list of entries, each with a constraint between quotes or with
attributes between braces. The edit of the block finds a mention of a legacy provider in one of
the entries, and is meant for this entry alone. It renames and updates whatever comes first
behind the mention, though. So the siblings survive exactly if every exchange finds its token in
the entry before it finds it in a sibling: the other legacy name anywhere in the block, a source
or a version up to the brace that closes the first braces behind the mention. This brace is the
entry's own if the mention is the key of attributes, and a sibling's if it is the key of a
constraint.
-/

namespace ProviderMigration.Provider

open Text Block Relation

/-! ## Entries -/

/-- The value of an entry: a constraint between quotes, or attributes between braces. -/
inductive Value where
  | constraint (text : List Char) (quoted : IsQuoted (utf8 text))
  | attributes (body : List Char) (complete : IsBody body)

def Value.text : Value → List Char
  | constraint text _ => '"' :: (text ++ ['"'])
  | attributes body _ => '\x7b' :: (body ++ ['\x7d'])

/-- A character of an entry's name. -/
def isNameChar (c : Char) : Bool := c.isAlphanum || c = '_' || c = '-'

/-- The characters of a name mean nothing to a scan. -/
theorem isInert_of_isNameChar {c : Char} (named : isNameChar c = true) : IsInert c := by
  have known : ∀ d ∈ meaningful, isNameChar d = false := List.all_iff_forall_prop.1 (by decide)
  rintro d listed rfl
  exact Bool.false_ne_true ((known _ listed).symm.trans named)

/-- An entry of a block of requirements, with the blanks in front of it. -/
structure Entry where
  gap : List Char
  name : List Char
  sign : List Char
  value : Value
  blank : ∀ c ∈ gap, isBlank c = true
  named : name ≠ [] ∧ ∀ c ∈ name, isNameChar c = true
  assigns : ∀ c ∈ sign, c = ' ' ∨ c = '\t' ∨ c = '='

def Entry.text (entry : Entry) : List Char :=
  entry.gap ++ entry.name ++ entry.sign ++ entry.value.text

/-- The texts of some entries, one after the other. -/
def Entry.texts (entries : List Entry) : List Char := entries.flatMap Entry.text

/-- A block of requirements as a list of entries. Blanks stand between the entries. -/
structure Requirements where
  gap : List Char
  entries : List Entry
  last : List Char
  blank : ∀ c ∈ gap ++ last, isBlank c = true
  apart : ∀ entry ∈ entries.tail, entry.gap ≠ []

namespace Requirements

variable (block : Requirements)

/-- The block up to its first entry. -/
def opening : List Char := requirementsKeyword.toList ++ block.gap ++ ['\x7b']

/-- The block behind its last entry. -/
def closing : List Char := block.last ++ ['\x7d']

def text : List Char := block.opening ++ Entry.texts block.entries ++ block.closing

end Requirements

/-! ## The entry that holds a mention -/

/-- The entry of a block in which a mention starts. The block is the text ahead of the entry, the
entry, and the text behind it. -/
structure Holder (block : Requirements) (mention : Mention) where
  earlier : List Entry
  entry : Entry
  later : List Entry
  front : List Char
  rest : List Char
  listed : block.entries = earlier ++ entry :: later
  parts : entry.text = front ++ rest
  before : mention.before = block.opening ++ Entry.texts earlier ++ front
  starts : mention.name.toList <+: rest

namespace Holder

variable {block : Requirements} {mention : Mention} (holder : Holder block mention)

def ahead : List Char := block.opening ++ Entry.texts holder.earlier

def behind : List Char := Entry.texts holder.later ++ block.closing

/-- The part of the siblings behind the entry that reaches up to the brace that closes the first
braces behind the mention. -/
def reach : List Char :=
  (takeBytes ((Balance.ofBraces mention.found).closing?.getD 0) mention.found).drop
    holder.rest.length

/-- A text differs from the block within the entry only. -/
def Spares (out : List Char) : Prop :=
  ∃ changed, out = holder.ahead ++ changed ++ holder.behind

/-- Every token that the edit exchanges is found in the entry, or in no sibling that the search
for it comes to. -/
def Confines : Prop :=
  Stays "packet".toList holder.rest holder.behind ∧
    ∀ token ∈ "version" :: legacySources, Stays token.toList (renameKeys holder.rest) holder.reach

/-- The mention is in the name of the entry, and the entry has attributes. -/
def IsKeyOfAttributes : Prop :=
  (∃ first last, holder.entry.name = first ++ last ∧ holder.front = holder.entry.gap ++ first) ∧
    ∃ body complete, holder.entry.value = .attributes body complete

theorem text_eq : block.text = holder.ahead ++ holder.entry.text ++ holder.behind := by
  simp [Requirements.text, ahead, behind, holder.listed, Entry.texts]

theorem found_eq (found : Mention.find? block.text = some mention) :
    mention.found = holder.rest ++ holder.behind := by
  have split := (Mention.spec found).1
  have joined : holder.ahead ++ holder.front ++ mention.found =
      holder.ahead ++ holder.front ++ (holder.rest ++ holder.behind) := by
    rw [ahead, ← holder.before, ← split, holder.text_eq, holder.parts, holder.before, ahead]
    simp only [List.append_assoc]
  exact List.append_cancel_left joined

end Holder

/-- A mention is the first place of its name in the block. -/
theorem cutAt?_of_find? {block : List Char} {mention : Mention}
    (found : Mention.find? block = some mention) :
    mention.name ∈ legacyNames ∧
      cutAt? mention.name.toList block = some (mention.before, mention.found) := by
  obtain ⟨name, legacy, named⟩ := List.exists_of_findSome?_eq_some found
  obtain ⟨⟨before, found⟩, cut, rfl⟩ := Option.map_eq_some_iff.1 named
  exact ⟨legacy, cut⟩

/-- The preferred name is found if it is mentioned at all. -/
theorem name_of_find? {block : List Char} {mention : Mention}
    (found : Mention.find? block = some mention) (present : "metal".toList <:+: block) :
    mention.name = "metal" := by
  cases cut : cutAt? "metal".toList block with
  | none => exact absurd present (cutAt?_eq_none_iff.1 cut)
  | some parts =>
      rw [Mention.find?, legacyNames, List.findSome?_cons, cut] at found
      exact (congrArg Mention.name (Option.some_inj.1 found)).symm

/-- A token is not in a text that lacks one of its characters. -/
theorem not_within_of_not_mem {c : Char} {token text : List Char} (letter : c ∈ token)
    (foreign : c ∉ text) : ¬ token <:+: text :=
  fun within => foreign (within.subset letter)

theorem Value.getLast?_text (value : Value) :
    ∃ c, value.text.getLast? = some c ∧ (c = '"' ∨ c = '\x7d') := by
  cases value with
  | constraint text quoted =>
      have last : ('"' :: text ++ ['"']).getLast? = some '"' := List.getLast?_concat
      exact ⟨'"', last, .inl rfl⟩
  | attributes body complete =>
      have last : ('\x7b' :: body ++ ['\x7d']).getLast? = some '\x7d' := List.getLast?_concat
      exact ⟨'\x7d', last, .inr rfl⟩

theorem Entry.getLast?_text (entry : Entry) :
    ∃ c, entry.text.getLast? = some c ∧ (c = '"' ∨ c = '\x7d') := by
  obtain ⟨c, last, quote⟩ := entry.value.getLast?_text
  exact ⟨c, by rw [Entry.text, List.getLast?_append, last, Option.some_or], quote⟩

/-- What is known of the legacy names when they are looked for in a block. -/
theorem letters_of_legacy {name : String} (legacy : name ∈ legacyNames) :
    't' ∈ name.toList ∧ '"' ∉ name.toList ∧ '\x7b' ∉ name.toList ∧ '\x7d' ∉ name.toList := by
  have known : ∀ name ∈ legacyNames, 't' ∈ name.toList ∧ '"' ∉ name.toList ∧
      '\x7b' ∉ name.toList ∧ '\x7d' ∉ name.toList := by decide
  exact known name legacy

theorem ne_nil_of_find? {block : List Char} {mention : Mention}
    (found : Mention.find? block = some mention) : mention.name.toList ≠ [] :=
  List.ne_nil_of_mem (letters_of_legacy (cutAt?_of_find? found).1).1

/-- A name that is found in some entries starts in one of them. -/
theorem exists_entry_of_cutAt? {name : String} (legacy : name ∈ legacyNames)
    {entries : List Entry} {closing before found : List Char} (absent : 't' ∉ closing)
    (cut : cutAt? name.toList (Entry.texts entries ++ closing) = some (before, found)) :
    ∃ earlier entry later front rest, entries = earlier ++ entry :: later ∧
      entry.text = front ++ rest ∧ before = Entry.texts earlier ++ front ∧
      name.toList <+: rest := by
  obtain ⟨letter, noQuote, -, noBrace⟩ := letters_of_legacy legacy
  induction entries generalizing before with
  | nil =>
      have gone := cutAt?_eq_none_iff.2 (not_within_of_not_mem letter absent)
      rw [Entry.texts, List.flatMap_nil, List.nil_append, gone] at cut
      contradiction
  | cons entry entries ih =>
      have split : Entry.texts (entry :: entries) ++ closing =
          entry.text ++ (Entry.texts entries ++ closing) := by simp [Entry.texts]
      rw [split] at cut
      cases here : cutAt? name.toList entry.text with
      | some parts =>
          obtain ⟨front, rest⟩ := parts
          rw [cutAt?_append_of_within here] at cut
          obtain ⟨rfl, -⟩ := Prod.mk.inj (Option.some_inj.1 cut)
          exact ⟨[], entry, entries, front, rest, rfl, (append_of_cutAt? here).symm, rfl,
            prefix_of_cutAt? here⟩
      | none =>
          obtain ⟨c, last, quote⟩ := entry.getLast?_text
          have foreign : c ∉ name.toList := by rcases quote with rfl | rfl <;> assumption
          rw [cutAt?_append_of_absent last foreign (cutAt?_eq_none_iff.1 here)] at cut
          obtain ⟨⟨before', found'⟩, later, same⟩ := Option.map_eq_some_iff.1 cut
          obtain ⟨rfl, rfl⟩ := Prod.mk.inj same
          obtain ⟨earlier, holder, siblings, front, rest, rfl, parts, rfl, starts⟩ := ih later
          exact ⟨entry :: earlier, holder, siblings, front, rest, rfl, parts,
            by simp [Entry.texts], starts⟩

/-- A mention in a block of requirements starts in one of its entries. -/
theorem exists_holder {block : Requirements} {mention : Mention}
    (found : Mention.find? block.text = some mention) : Nonempty (Holder block mention) := by
  obtain ⟨legacy, cut⟩ := cutAt?_of_find? found
  obtain ⟨letter, -, noBrace, -⟩ := letters_of_legacy legacy
  have blank : 't' ∉ block.gap ++ block.last :=
    fun member => absurd (block.blank 't' member) (by decide)
  rw [List.mem_append, not_or] at blank
  have keyword : 't' ∉ requirementsKeyword.toList := by decide
  have opening : 't' ∉ block.opening := by simp [Requirements.opening, keyword, blank.1]
  have closing : 't' ∉ block.closing := by simp [Requirements.closing, blank.2]
  have last : block.opening.getLast? = some '\x7b' := List.getLast?_concat
  rw [Requirements.text, List.append_assoc,
    cutAt?_append_of_absent last noBrace (not_within_of_not_mem letter opening)] at cut
  obtain ⟨⟨before, rest⟩, later, same⟩ := Option.map_eq_some_iff.1 cut
  obtain ⟨joined, -⟩ := Prod.mk.inj same
  obtain ⟨earlier, entry, siblings, front, rest, listed, parts, rfl, starts⟩ :=
    exists_entry_of_cutAt? legacy closing later
  exact ⟨⟨earlier, entry, siblings, front, rest, listed, parts, by simp [← joined], starts⟩⟩

namespace Holder

variable {block : Requirements} {mention : Mention} (holder : Holder block mention)

/-- The rest of the entry ends like the entry. -/
theorem getLast?_rest (nonempty : mention.name.toList ≠ []) :
    ∃ c, holder.rest.getLast? = some c ∧ (c = '"' ∨ c = '\x7d') := by
  have solid : holder.rest ≠ [] := by
    intro empty
    have starts := holder.starts
    rw [empty] at starts
    exact nonempty (List.prefix_nil.1 starts)
  obtain ⟨c, last⟩ := Option.isSome_iff_exists.1 (List.getLast?_isSome.2 solid)
  obtain ⟨d, ends, quote⟩ := holder.entry.getLast?_text
  rw [holder.parts, List.getLast?_append, last, Option.some_or, Option.some_inj] at ends
  exact ⟨c, last, ends ▸ quote⟩

/-- A blank or a closing brace stands right behind the entry. -/
theorem head?_behind : ∃ d, holder.behind.head? = some d ∧ d ≠ '#' ∧ d ≠ 'v' := by
  have foreign : ∀ d, isBlank d = true → d ≠ '#' ∧ d ≠ 'v' := by
    rintro d blank
    constructor <;> rintro rfl <;> exact absurd blank (by decide)
  cases siblings : holder.later with
  | nil =>
      rw [behind, siblings, Requirements.closing]
      cases gap : block.last with
      | nil => exact ⟨'\x7d', rfl, by decide, by decide⟩
      | cons d gap' => exact ⟨d, rfl, foreign d (block.blank d (by simp [gap]))⟩
  | cons sibling siblings' =>
      have member : sibling ∈ block.entries.tail := by
        rw [holder.listed, siblings]
        cases holder.earlier <;> simp
      cases gap : sibling.gap with
      | nil => exact absurd gap (block.apart sibling member)
      | cons d gap' =>
          refine ⟨d, ?_, foreign d (sibling.blank d (by simp [gap]))⟩
          simp [behind, siblings, Entry.texts, Entry.text, gap]

theorem spares_iff {edited : List Char} :
    holder.Spares (mention.before ++ edited) ↔ holder.behind <:+ holder.front ++ edited := by
  rw [Spares, holder.before, ← ahead]
  constructor
  · rintro ⟨changed, same⟩
    rw [List.append_assoc, List.append_assoc] at same
    exact ⟨changed, (List.append_cancel_left same).symm⟩
  · rintro ⟨changed, same⟩
    exact ⟨changed, by rw [List.append_assoc, ← same, List.append_assoc]⟩

end Holder

/-! ## Updates on one side of a boundary -/

theorem eq_of_mem_of_suffix {c : Char} {front text : List Char}
    (within : text <:+ front ++ (text ++ [c])) : ∀ d ∈ text, d = c := by
  induction text using List.reverseRecOn generalizing front with
  | nil => simp
  | append_singleton text e ih =>
      obtain ⟨gap, joined⟩ := within
      have split : gap ++ text ++ [e] = front ++ (text ++ [e]) ++ [c] := by simpa using joined
      obtain ⟨shorter, last⟩ := List.append_inj' split rfl
      obtain rfl := (List.cons_eq_cons.1 last).1
      intro d member
      rcases List.mem_append.1 member with inside | here
      · exact ih ⟨gap, shorter⟩ d inside
      · exact List.mem_singleton.1 here

/-- The version is commented out behind a text that neither ends in a comment nor is empty, so
the text that starts there does not come back. -/
theorem not_suffix_of_comment {reach rest : List Char}
    (head : ∃ d, (reach ++ rest).head? = some d ∧ d ≠ '#' ∧ d ≠ 'v')
    (present : "version".toList <:+: reach) (front : List Char) :
    ¬ reach ++ rest <:+
      front ++ (replaceFirst "version".toList "#version".toList reach ++ rest) := by
  obtain ⟨before, after, rfl, exchanged⟩ := exists_of_replaceFirst present "#version".toList
  rw [exchanged]
  intro within
  obtain ⟨d, starts, noHash, noLetter⟩ := head
  have comment : "#version".toList = ['#'] ++ "version".toList := by decide
  have split : front ++ (before ++ "#version".toList ++ after ++ rest) =
      front ++ (before ++ ['#']) ++ ("version".toList ++ (after ++ rest)) := by
    rw [comment]
    simp only [List.append_assoc]
  have split' : before ++ "version".toList ++ after ++ rest =
      before ++ ("version".toList ++ (after ++ rest)) := by
    simp only [List.append_assoc]
  rw [split'] at starts
  rw [split, split', suffix_append_right_iff] at within
  cases before with
  | nil => exact noLetter (Option.some_inj.1 starts).symm
  | cons e before =>
      obtain rfl := Option.some_inj.1 starts
      exact noHash (eq_of_mem_of_suffix within _ List.mem_cons_self)

theorem avoids_source : ∀ source ∈ currentSource :: legacySources,
    Avoids "version".toList source.toList := by
  have distinct : ∀ source ∈ currentSource :: legacySources,
      cannotOverlap "version".toList source.toList = true := by decide
  exact fun source listed => avoids_of_cannotOverlap (distinct source listed)

section Updates

variable {c : Char} {front reach : List Char}

theorem updateAttributes_append_of_stays (ends : front.getLast? = some c)
    (quote : c = '"' ∨ c = '\x7d')
    (stay : ∀ token ∈ "version" :: legacySources, Stays token.toList front reach) :
    updateAttributes (front ++ reach) = updateAttributes front ++ reach := by
  rw [List.forall_mem_cons] at stay
  have foreign : c ∉ "version".toList := by rcases quote with rfl | rfl <;> decide
  have later : Stays "version".toList (succeed legacySources currentSource front) reach := by
    rw [Stays, within_succeed_iff avoids_source]
    exact stay.1
  rw [updateAttributes_eq_succeed, updateAttributes_eq_succeed,
    succeed_append_of_stays isSuccession_legacySources ends quote stay.2,
    replaceFirst_append_of_stays (getLast?_succeed isSuccession_legacySources ends quote) foreign
      later]

theorem not_suffix_updateAttributes (ends : front.getLast? = some c)
    (quote : c = '"' ∨ c = '\x7d') {rest : List Char}
    (head : ∃ d, (reach ++ rest).head? = some d ∧ d ≠ '#' ∧ d ≠ 'v')
    (moves : ¬ ∀ token ∈ "version" :: legacySources, Stays token.toList front reach)
    (before : List Char) :
    ¬ reach ++ rest <:+ before ++ (updateAttributes (front ++ reach) ++ rest) := by
  rw [updateAttributes_eq_succeed]
  by_cases sources : ∀ token ∈ legacySources, Stays token.toList front reach
  · -- Only the version is exchanged behind the boundary.
    have version : ¬ Stays "version".toList (succeed legacySources currentSource front) reach := by
      rw [Stays, within_succeed_iff avoids_source]
      exact fun stays => moves (List.forall_mem_cons.2 ⟨stays, sources⟩)
    obtain ⟨absent, present⟩ := not_or.1 version
    have foreign : c ∉ "version".toList := by rcases quote with rfl | rfl <;> decide
    rw [succeed_append_of_stays isSuccession_legacySources ends quote sources,
      replaceFirst_append_of_absent (getLast?_succeed isSuccession_legacySources ends quote)
        foreign absent, List.append_assoc, ← List.append_assoc]
    exact not_suffix_of_comment head (not_not.1 present) _
  · have strays := strays_succeed isSuccession_legacySources ends quote sources
    exact (strays.append_right rest).not_suffix_replaceFirst before

end Updates

/-! ## Where the siblings survive -/

namespace Holder

variable {block : Requirements} {mention : Mention} (holder : Holder block mention)

/-- Of the legacy names, only the second one can be found behind the entry first. -/
theorem names_stay_iff (found : Mention.find? block.text = some mention) :
    (∀ name ∈ legacyNames, Stays name.toList holder.rest holder.behind) ↔
      Stays "packet".toList holder.rest holder.behind := by
  have preferred : Stays "metal".toList holder.rest holder.behind := by
    by_cases present : "metal".toList <:+: block.text
    · -- The preferred name is the one that is found.
      have starts := holder.starts
      rw [name_of_find? found present] at starts
      exact .inl starts.isInfix
    · right
      intro within
      apply present
      rw [holder.text_eq]
      exact within.trans (List.suffix_append _ _).isInfix
  have names : legacyNames = ["metal", "packet"] := rfl
  rw [names, List.forall_mem_cons, List.forall_mem_singleton]
  exact and_iff_right preferred

/-- A renaming that goes no further than the entry leaves what follows the entry as it is. -/
theorem renameKeys_append (found : Mention.find? block.text = some mention)
    (stays : Stays "packet".toList holder.rest holder.behind) {reach : List Char}
    (within : reach <+: holder.behind) :
    renameKeys (holder.rest ++ reach) = renameKeys holder.rest ++ reach := by
  obtain ⟨c, ends, quote⟩ := holder.getLast?_rest (ne_nil_of_find? found)
  apply succeed_append_of_stays isSuccession_legacyNames ends quote
  intro name legacy
  apply ((holder.names_stay_iff found).2 stays name legacy).imp_right
  exact mt fun inside => inside.trans within.isInfix

/-- If the braces close in the entry, what follows it is not updated. -/
theorem behind_suffix {front inner rest rest' : List Char} (joined : holder.rest = front ++ inner)
    (later : '\x7d' :: rest = inner ++ holder.behind)
    (renamed : renameKeys holder.rest ++ holder.behind = renameKeys front ++ '\x7d' :: rest') :
    holder.behind <:+ '\x7d' :: rest' := by
  cases inner with
  | nil =>
      rw [List.append_nil] at joined
      rw [joined] at renamed
      rw [List.append_cancel_left renamed]
  | cons d inner =>
      obtain ⟨rfl, -⟩ := List.cons_eq_cons.1 later
      obtain ⟨inner', moved⟩ :=
        exists_succeed_append_cons isSuccession_legacyNames front inner
      rw [joined, renameKeys_eq_succeed, moved, ← renameKeys_eq_succeed, List.append_assoc]
        at renamed
      rw [← List.append_cancel_left renamed]
      exact List.suffix_append ('\x7d' :: inner') holder.behind

/-- A renaming that goes no further than the entry leaves the siblings as they are, and the
updates reach as far as the braces say. -/
theorem spares_iff_of_stays (found : Mention.find? block.text = some mention)
    (stays : Stays "packet".toList holder.rest holder.behind) {front rest : List Char}
    (split : mention.found = front ++ '\x7d' :: rest) {rest' : List Char}
    (renamed : renameKeys mention.found = renameKeys front ++ '\x7d' :: rest') :
    holder.behind <:+
        holder.front ++ (updateAttributes (renameKeys front) ++ '\x7d' :: rest') ↔
      ∀ token ∈ "version" :: legacySources,
        Stays token.toList (renameKeys holder.rest) (front.drop holder.rest.length) := by
  obtain ⟨c, ends, quote⟩ := holder.getLast?_rest (ne_nil_of_find? found)
  have whole := holder.found_eq found
  rw [whole, holder.renameKeys_append found stays List.prefix_rfl] at renamed
  rw [whole] at split
  rcases List.append_eq_append_iff.1 split with ⟨reach, rfl, joined⟩ | ⟨inner, joined, later⟩
  · -- The braces close behind the entry.
    have ends' : (renameKeys holder.rest).getLast? = some c :=
      getLast?_succeed isSuccession_legacyNames ends quote
    have reached := holder.renameKeys_append found stays
      (joined ▸ List.prefix_append reach ('\x7d' :: rest))
    rw [reached, joined, List.append_assoc] at renamed
    obtain rfl : rest = rest' := by simpa using renamed
    rw [reached, List.drop_left, joined]
    have head := holder.head?_behind
    rw [joined] at head
    constructor
    · intro within token listed
      by_contra moves
      exact not_suffix_updateAttributes ends' quote head (fun stay => moves (stay token listed))
        holder.front within
    · intro stay
      rw [updateAttributes_append_of_stays ends' quote stay]
      exact ⟨holder.front ++ updateAttributes (renameKeys holder.rest), by simp⟩
  · -- The braces close in the entry, so nothing behind it is updated.
    have ends := holder.behind_suffix joined later renamed
    have empty : front.drop holder.rest.length = [] := by
      rw [joined]
      simp
    have solid : ∀ token ∈ "version" :: legacySources, token.toList ≠ [] := by decide
    rw [empty]
    apply iff_of_true
    · exact ends.trans ((List.suffix_append _ _).trans (List.suffix_append _ _))
    · exact fun token listed => .inr fun within => solid token listed (List.infix_nil.1 within)

/-- Where the braces behind the mention close, the updates reach as far as these braces. -/
theorem reach_eq {front rest : List Char} (split : mention.found = front ++ '\x7d' :: rest)
    (closes : (Balance.ofBraces mention.found).closing? = some (byteSize front)) :
    holder.reach = front.drop holder.rest.length := by
  rw [reach, closes, Option.getD_some, split, takeBytes_byteSize_append]

/-- A renaming that goes further than the entry changes a sibling for good. -/
theorem not_suffix_of_not_stays (found : Mention.find? block.text = some mention)
    (moves : ¬ Stays "packet".toList holder.rest holder.behind) {front rest' : List Char}
    (renamed : renameKeys mention.found = renameKeys front ++ '\x7d' :: rest') :
    ¬ holder.behind <:+
        holder.front ++ (updateAttributes (renameKeys front) ++ '\x7d' :: rest') := by
  obtain ⟨c, ends, quote⟩ := holder.getLast?_rest (ne_nil_of_find? found)
  have strays := strays_succeed isSuccession_legacyNames ends quote
    (mt (holder.names_stay_iff found).1 moves)
  rw [← holder.found_eq found, ← renameKeys_eq_succeed, renamed] at strays
  exact (strays.succeed isSuccession_legacySources).not_suffix_replaceFirst holder.front

/-- The braces of an entry with attributes close in the entry. -/
theorem exists_of_isKeyOfAttributes (found : Mention.find? block.text = some mention)
    (key : holder.IsKeyOfAttributes) :
    holder.reach = [] ∧ ∃ out, editRequirements block.text = .ok out := by
  obtain ⟨⟨first, last, name, front⟩, body, complete, value⟩ := key
  have rest : holder.rest = last ++ holder.entry.sign ++ '\x7b' :: (body ++ ['\x7d']) := by
    have parts := holder.parts
    rw [Entry.text, name, front, value] at parts
    have joined : holder.entry.gap ++ first ++ holder.rest = holder.entry.gap ++ first ++
        (last ++ holder.entry.sign ++ '\x7b' :: (body ++ ['\x7d'])) := by
      rw [← parts]
      simp [Value.text]
    exact List.append_cancel_left joined
  have inert : ∀ c ∈ last ++ holder.entry.sign, IsInert c := by
    intro c member
    rcases List.mem_append.1 member with named | assigns
    · apply isInert_of_isNameChar
      exact holder.entry.named.2 c (by rw [name]; exact List.mem_append_right first named)
    · have known : ∀ c ∈ [' ', '\t', '='], IsInert c := isInert_of_isMeaningless (by decide)
      exact known c (by simpa using holder.entry.assigns c assigns)
  have split : mention.found = last ++ holder.entry.sign ++ '\x7b' :: body ++
      '\x7d' :: holder.behind := by
    rw [holder.found_eq found, rest]
    simp
  have closes := closing?_ofBraces_of_lead inert complete holder.behind
  rw [← List.cons_append, ← List.append_assoc, ← split] at closes
  obtain ⟨rest', renamed, edited⟩ := editRequirements_of_closing found split closes
  refine ⟨?_, _, edited⟩
  rw [holder.reach_eq split closes, rest]
  apply List.drop_eq_nil_of_le
  simp

end Holder

/-- The edit of a block of requirements leaves a block without a mention as it is. Otherwise an
entry holds the mention, and the outcome differs from the block within this entry only, exactly
if the entry confines the exchanges. If the mention is the key of attributes, there is an outcome,
and no update reaches a sibling. -/
theorem editRequirements_spares_iff (block : Requirements) :
    (Mention.find? block.text = none → editRequirements block.text = .ok block.text) ∧
      ∀ mention, Mention.find? block.text = some mention →
        Nonempty (Holder block mention) ∧
          ∀ holder : Holder block mention,
            (∀ out, editRequirements block.text = .ok out →
              (holder.Spares out ↔ holder.Confines)) ∧
            (holder.IsKeyOfAttributes →
              holder.reach = [] ∧ ∃ out, editRequirements block.text = .ok out) := by
  constructor
  · intro clear
    rw [editRequirements, clear]
  intro mention found
  refine ⟨exists_holder found, fun holder => ⟨fun out done => ?_, ?_⟩⟩
  · obtain ⟨front, rest, split, closes⟩ := exists_of_editRequirements found done
    obtain ⟨rest', renamed, edited⟩ := editRequirements_of_closing found split closes
    rw [done, List.append_assoc] at edited
    rw [Except.ok.inj edited, holder.spares_iff, Holder.Confines, holder.reach_eq split closes]
    by_cases stays : Stays "packet".toList holder.rest holder.behind
    · rw [holder.spares_iff_of_stays found stays split renamed]
      exact (and_iff_right stays).symm
    · exact iff_of_false (holder.not_suffix_of_not_stays found stays renamed)
        fun confines => stays confines.1
  · exact holder.exists_of_isKeyOfAttributes found

theorem named_of_all {name : List Char} (filled : name ≠ [])
    (named : name.all isNameChar = true) : name ≠ [] ∧ ∀ c ∈ name, isNameChar c = true :=
  ⟨filled, List.all_eq_true.1 named⟩

/-- An entry behind a blank. -/
def entryOf (name : List Char) (value : Value)
    (named : name ≠ [] ∧ ∀ c ∈ name, isNameChar c = true) : Entry where
  gap := [' ']
  name := name
  sign := " = ".toList
  value := value
  blank := List.all_eq_true.1 (by decide)
  named := named
  assigns := by simp

/-- Attributes with a version. -/
def versioned : Value := .attributes " version = 5 ".toList (isBody_of_isMeaningless (by decide))

/-- A legacy entry with attributes, between two siblings. -/
def flanked : Requirements where
  gap := [' ']
  entries := [entryOf "aws".toList versioned (named_of_all (by decide) rfl),
    entryOf "metal".toList versioned (named_of_all (by decide) rfl),
    entryOf "random".toList versioned (named_of_all (by decide) rfl)]
  last := [' ']
  blank := List.all_eq_true.1 (by decide)
  apart := by decide

/-- The mention of the legacy provider in the list. -/
def flankedMention : Mention where
  name := "metal"
  before := flanked.text.take 43
  found := flanked.text.drop 43

/-- The entry that holds it. -/
def flankedHolder : Holder flanked flankedMention where
  earlier := [entryOf "aws".toList versioned (named_of_all (by decide) rfl)]
  entry := entryOf "metal".toList versioned (named_of_all (by decide) rfl)
  later := [entryOf "random".toList versioned (named_of_all (by decide) rfl)]
  front := [' ']
  rest := "metal = \x7b version = 5 \x7d".toList
  listed := rfl
  parts := rfl
  before := rfl
  starts := by decide

theorem editRequirements_spares_of_flanked :
    Mention.find? flanked.text = some flankedMention ∧ flankedHolder.IsKeyOfAttributes ∧
      ∃ out, editRequirements flanked.text = .ok out ∧ flankedHolder.Spares out := by
  have found : Mention.find? flanked.text = some flankedMention := rfl
  have key : flankedHolder.IsKeyOfAttributes :=
    ⟨⟨[], "metal".toList, rfl, rfl⟩, _, isBody_of_isMeaningless (by decide), rfl⟩
  obtain ⟨spares, complete⟩ := ((editRequirements_spares_iff flanked).2 _ found).2 flankedHolder
  obtain ⟨reach, out, done⟩ := complete key
  refine ⟨found, key, out, done, (spares out done).2 ⟨.inr ?_, fun token known => .inr ?_⟩⟩
  · exact cutAt?_eq_none_iff.1 (by decide)
  · have solid : ∀ token ∈ "version" :: legacySources, token.toList ≠ [] := by decide
    rw [reach, List.infix_nil]
    exact solid token known

theorem quotedDigit : IsQuoted (utf8 ['1']) := .plain (by decide) (by decide) .nil

/-- A legacy entry with a constraint, in front of a sibling with attributes. -/
def constrained : Requirements where
  gap := [' ']
  entries :=
    [entryOf "metal".toList (.constraint ['1'] quotedDigit) (named_of_all (by decide) rfl),
      entryOf "aws".toList versioned (named_of_all (by decide) rfl)]
  last := [' ']
  blank := List.all_eq_true.1 (by decide)
  apart := by decide

/-- The edit comments the version of the sibling out, whatever entry holds the mention. -/
theorem exists_sibling_not_spared :
    ∃ mention, Mention.find? constrained.text = some mention ∧
      editRequirements constrained.text =
        .ok "required_providers \x7b equinix = \"1\" aws = \x7b #version = 5 \x7d \x7d".toList ∧
      ∀ holder : Holder constrained mention, ¬ holder.Spares
        "required_providers \x7b equinix = \"1\" aws = \x7b #version = 5 \x7d \x7d".toList := by
  refine ⟨⟨"metal", constrained.text.take 21, constrained.text.drop 21⟩, rfl, rfl, ?_⟩
  rintro holder ⟨changed, same⟩
  have later : holder.later = constrained.entries.drop 1 := by
    have listed := holder.listed
    cases earlier : holder.earlier with
    | nil =>
        rw [listed, earlier]
        rfl
    | cons entry entries =>
        rw [earlier] at listed
        obtain ⟨rfl, -⟩ := List.cons_eq_cons.1 listed
        -- The mention would stand behind the entry that it is the name of.
        have before := congrArg List.length holder.before
        rw [earlier, Entry.texts, List.flatMap_cons] at before
        have place : (constrained.text.take 21).length = constrained.opening.length + 1 := rfl
        have long : 1 < (entryOf "metal".toList (.constraint ['1'] quotedDigit)
          (named_of_all (by decide) rfl)).text.length := by decide
        simp only [List.length_append] at before
        omega
  have behind : holder.behind <:+
      "required_providers \x7b equinix = \"1\" aws = \x7b #version = 5 \x7d \x7d".toList :=
    same ▸ List.suffix_append _ _
  rw [Holder.behind, later] at behind
  exact absurd behind (by decide)

end ProviderMigration.Provider
