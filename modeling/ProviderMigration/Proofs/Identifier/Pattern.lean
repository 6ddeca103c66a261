import ProviderMigration.Identifier.Rule

/-!
# Patterns

Renaming rules are written down as patterns of groups with a replacement. How a
pattern is read has a fixed meaning: occurrences are taken from left to right,
each as early as possible, and among the readings at one place the first in the
order of preference counts. Such a reading may have to try again with a shorter
or longer stretch. This module gives patterns that meaning, and shows for which of
them the first try decides.
-/

namespace ProviderMigration.Identifier

open Text

namespace Pattern

/-- One item of a pattern: one of several literals, the first ones preferred, or a
run of characters, which is as long as possible if it is greedy and as short as
possible if it is not. -/
inductive Item where
  | oneOf (literals : List String)
  | run (member : Char → Bool) (least : Nat) (greedy : Bool)

/-- Part of a replacement. Groups are counted from one. -/
inductive Part where
  | text (text : String)
  | group (number : Nat)
  deriving DecidableEq, Repr

/-- The texts at the start of `text` that an item may stand for, the preferred
ones first. -/
def Item.readings (item : Item) (text : List Char) : List (List Char) :=
  match item with
  | .oneOf literals => (literals.map String.toList).filter (·.isPrefixOf text)
  | .run member least greedy =>
      let longest := text.takeWhile member
      let lengths := (List.range (longest.length + 1)).filter (least ≤ ·)
      (if greedy then lengths.reverse else lengths).map longest.take

/-- The ways to read the items one after the other, the preferred ones first. A
way gives each item its text. -/
def readings : List Item → List Char → List (List (List Char))
  | [], _ => [[]]
  | item :: items, text =>
      (item.readings text).flatMap fun read =>
        (readings items (text.drop read.length)).map (read :: ·)

/-- The texts of the groups, when those of the items are given. -/
def groupTexts : List (List Item) → List (List Char) → List (List Char)
  | [], _ => []
  | group :: groups, texts =>
      (texts.take group.length).flatten :: groupTexts groups (texts.drop group.length)

/-- Any number of characters of a line, as few as possible. -/
def anything : Item := .run (· != '\n') 0 false

/-- All the blanks that follow, at least `least` of them. -/
def blanks (least : Nat) : Item := .run isBlank least true

end Pattern

open Pattern

/-- Groups of items, and what takes the place of an occurrence. -/
structure Pattern where
  groups : List (List Item)
  replacement : List Part

namespace Pattern

/-- The preferred way to read a pattern at the start of a text. -/
def reading? (pattern : Pattern) (text : List Char) : Option (List (List Char)) :=
  (readings pattern.groups.flatten text).head?

def expand (pattern : Pattern) (texts : List (List Char)) : List Char :=
  pattern.replacement.flatMap fun part =>
    match part with
    | .text text => text.toList
    | .group number => (groupTexts pattern.groups texts).getD (number - 1) []

/-- The text with every occurrence replaced, from left to right. The next
occurrence is looked for where the one before has ended. -/
def replaceAll (pattern : Pattern) : List Char → List Char
  | [] => []
  | c :: rest =>
      match pattern.reading? (c :: rest) with
      | some texts =>
          pattern.expand texts ++ replaceAll pattern (rest.drop (texts.flatten.length - 1))
      | none => c :: replaceAll pattern rest
termination_by text => text.length

/-- Whether a pattern can be read somewhere in a text. -/
def Occurs (pattern : Pattern) (text : List Char) : Prop :=
  ∃ before after, text = before ++ after ∧ readings pattern.groups.flatten after ≠ []

/-! ## Reading without trying again -/

/-- The item that a piece stands for. -/
def Item.of : Piece → Item
  | .oneOf literals _ => .oneOf literals
  | .blanks least _ => blanks least

/-- The texts of a sequence of pieces. -/
def readAll? : List Piece → List Char → Option (List (List Char))
  | [], _ => some []
  | piece :: pieces, text => do
      let read ← piece.read? text
      let following ← readAll? pieces (text.drop read.length)
      return read :: following

/-- What becomes of the texts of a sequence of pieces. -/
def edited (pieces : List Piece) (texts : List (List Char)) : List Char :=
  (pieces.zipWith (fun piece text => piece.edit.apply text) texts).flatten

/-- Whether no literal is the start of another one. -/
def Separate (literals : List String) : Prop :=
  (literals.map String.toList).Pairwise fun one other => ¬ one <+: other ∧ ¬ other <+: one

def startsInk (literal : List Char) : Bool :=
  literal.head?.any (!isBlank ·)

/-- A sequence of pieces whose first reading is the only one that can succeed:
literals are separate, and no literal behind a run of blanks starts with one. -/
def Steady : List Piece → Prop
  | [] => True
  | .oneOf literals _ :: pieces => Separate literals ∧ Steady pieces
  | .blanks _ _ :: .oneOf literals edit :: pieces =>
      (∀ literal ∈ literals, startsInk literal.toList = true) ∧
        Steady (.oneOf literals edit :: pieces)
  | .blanks _ _ :: _ => False

instance (literals : List String) : Decidable (Separate literals) :=
  inferInstanceAs (Decidable (List.Pairwise _ _))

instance decidableSteady : (pieces : List Piece) → Decidable (Steady pieces)
  | [] => .isTrue trivial
  | .oneOf literals _ :: pieces =>
      have := decidableSteady pieces
      inferInstanceAs (Decidable (Separate literals ∧ Steady pieces))
  | .blanks _ _ :: .oneOf literals edit :: pieces =>
      have := decidableSteady (.oneOf literals edit :: pieces)
      inferInstanceAs (Decidable ((∀ literal ∈ literals, startsInk literal.toList = true) ∧
        Steady (.oneOf literals edit :: pieces)))
  | .blanks _ _ :: .blanks _ _ :: _ => .isFalse id
  | [.blanks _ _] => .isFalse id

theorem find?_eq_readAll? (pieces : List Piece) (text : List Char) :
    Match.find? text pieces =
      (readAll? pieces text).map fun texts => ⟨edited pieces texts, texts.flatten.length⟩ := by
  induction pieces generalizing text with
  | nil => rfl
  | cons piece pieces ih =>
      rw [Match.find?, readAll?]
      cases piece.read? text with
      | none => rfl
      | some read =>
          simp only [Option.bind_eq_bind, Option.bind_some]
          rw [ih]
          cases readAll? pieces (text.drop read.length) with
          | none => rfl
          | some following => simp [edited]

private theorem filter_eq_toList_find? {α : Type} {values : List α} {accept : α → Bool}
    (once : values.Pairwise fun one other => ¬ (accept one = true ∧ accept other = true)) :
    values.filter accept = (values.find? accept).toList := by
  induction once with
  | nil => rfl
  | @cons value values others _ ih =>
      cases accepted : accept value with
      | false =>
          have refused : ¬ accept value = true := by simp [accepted]
          rw [List.filter_cons_of_neg refused, List.find?_cons_of_neg refused, ih]
      | true =>
          have rest : values.filter accept = [] := by
            rw [List.filter_eq_nil_iff]
            intro other member both
            exact others other member ⟨accepted, both⟩
          rw [List.filter_cons_of_pos accepted, List.find?_cons_of_pos accepted, rest]
          rfl

theorem readings_oneOf {literals : List String} (separate : Separate literals) (edit : Edit)
    (text : List Char) :
    (Item.oneOf literals).readings text = ((Piece.oneOf literals edit).read? text).toList := by
  apply filter_eq_toList_find?
  refine separate.imp fun {one other} apart both => ?_
  rcases List.prefix_or_prefix_of_prefix (List.isPrefixOf_iff_prefix.1 both.1)
      (List.isPrefixOf_iff_prefix.1 both.2) with start | start
  · exact apart.1 start
  · exact apart.2 start

/-- A run of blanks may be read in several ways. The longest comes first. -/
theorem readings_blanks (least : Nat) (edit : Edit) (text : List Char) :
    ∃ shorter, (blanks least).readings text =
        ((Piece.blanks least edit).read? text).toList ++ shorter ∧
      ∀ read ∈ shorter, read.length < (text.takeWhile isBlank).length ∧ read <+: text := by
  by_cases enough : least ≤ (text.takeWhile isBlank).length
  · refine ⟨(((List.range (text.takeWhile isBlank).length).filter (least ≤ ·)).reverse).map
      (text.takeWhile isBlank).take, ?_, ?_⟩
    · simp [blanks, Item.readings, Piece.read?, List.range_succ, List.filter_append, enough]
    · intro read member
      rw [List.mem_map] at member
      obtain ⟨length, member, rfl⟩ := member
      rw [List.mem_reverse, List.mem_filter, List.mem_range] at member
      refine ⟨?_, (List.take_prefix _ _).trans (List.takeWhile_prefix _)⟩
      rw [List.length_take]
      omega
  · refine ⟨[], ?_, fun read member => absurd member List.not_mem_nil⟩
    have none : (List.range ((text.takeWhile isBlank).length + 1)).filter (least ≤ ·) = [] := by
      rw [List.filter_eq_nil_iff]
      intro length member
      rw [List.mem_range] at member
      simp only [decide_eq_true_eq]
      omega
    simp [blanks, Item.readings, Piece.read?, none, enough]

theorem readings_oneOf_of_isBlank {literals : List String}
    (ink : ∀ literal ∈ literals, startsInk literal.toList = true) (items : List Item)
    {c : Char} {rest : List Char} (blank : isBlank c = true) :
    readings (.oneOf literals :: items) (c :: rest) = [] := by
  have missed : (Item.oneOf literals).readings (c :: rest) = [] := by
    rw [Item.readings, List.filter_eq_nil_iff]
    intro read member here
    obtain ⟨literal, given, rfl⟩ := List.mem_map.1 member
    have starts := ink literal given
    cases chars : literal.toList with
    | nil => simp [chars, startsInk] at starts
    | cons d literal' =>
        rw [chars, List.isPrefixOf_iff_prefix, List.cons_prefix_cons] at here
        simp [chars, startsInk, here.1, blank] at starts
  rw [readings, missed]
  rfl

/-- A shorter run of blanks leaves a blank behind, where no literal starts. -/
private theorem findSome?_shorter {literals : List String}
    (ink : ∀ literal ∈ literals, startsInk literal.toList = true) (items : List Item)
    {text : List Char} {shorter : List (List Char)}
    (short : ∀ read ∈ shorter, read.length < (text.takeWhile isBlank).length ∧ read <+: text) :
    shorter.findSome? (fun read =>
      ((readings (.oneOf literals :: items) (text.drop read.length)).map (read :: ·)).head?) =
        none := by
  rw [List.findSome?_eq_none_iff]
  intro read member
  have bound := (short read member).1
  have divided := List.takeWhile_append_dropWhile (p := isBlank) (l := text)
  have left : (text.takeWhile isBlank).drop read.length ≠ [] := by
    rw [ne_eq, List.drop_eq_nil_iff]
    omega
  have following : text.drop read.length =
      (text.takeWhile isBlank).drop read.length ++ text.dropWhile isBlank := by
    calc
      text.drop read.length =
          (text.takeWhile isBlank ++ text.dropWhile isBlank).drop read.length := by rw [divided]
      _ = _ := List.drop_append_of_le_length (by omega)
  cases remaining : (text.takeWhile isBlank).drop read.length with
  | nil => exact absurd remaining left
  | cons c rest =>
      have blank : isBlank c = true := by
        apply List.all_eq_true.1 (List.all_takeWhile (p := isBlank) (l := text)) c
        apply List.mem_of_mem_drop (i := read.length)
        rw [remaining]
        exact List.mem_cons_self
      rw [following, remaining, List.cons_append, readings_oneOf_of_isBlank ink items blank]
      rfl

theorem readAll?_cons (piece : Piece) (pieces : List Piece) (text : List Char) :
    readAll? (piece :: pieces) text =
      (piece.read? text).bind fun read =>
        (readAll? pieces (text.drop read.length)).map (read :: ·) := by
  rw [readAll?]
  cases piece.read? text with
  | none => rfl
  | some read =>
      simp only [Option.bind_eq_bind, Option.bind_some]
      cases readAll? pieces (text.drop read.length) <;> rfl

/-- A piece is read as it is if no other way to read its item leads on. -/
private theorem head?_readings_cons {piece : Piece} {pieces : List Piece} {last : List Item}
    {text : List Char} {others : List (List Char)}
    (ways : (Item.of piece).readings text = (piece.read? text).toList ++ others)
    (stuck : others.findSome? (fun read =>
      ((readings (pieces.map Item.of ++ last) (text.drop read.length)).map (read :: ·)).head?) =
        none)
    (following : ∀ text, (readings (pieces.map Item.of ++ last) text).head? =
      (readAll? pieces text).map (· ++ last.map fun _ => [])) :
    (readings ((piece :: pieces).map Item.of ++ last) text).head? =
      (readAll? (piece :: pieces) text).map (· ++ last.map fun _ => []) := by
  rw [List.map_cons, List.cons_append, readings, ways, List.head?_flatMap, List.findSome?_append,
    stuck, readAll?_cons]
  cases piece.read? text with
  | none => rfl
  | some read =>
      rw [Option.or_none, Option.toList_some, List.findSome?_cons, List.head?_map, following,
        Option.bind_some]
      cases readAll? pieces (text.drop read.length) <;> rfl

/-- Steady pieces are read in one go, whatever follows them without reading
anything. -/
theorem head?_readings {pieces : List Piece} (steady : Steady pieces) {last : List Item}
    (idle : ∀ text, (readings last text).head? = some (last.map fun _ => [])) (text : List Char) :
    (readings (pieces.map Item.of ++ last) text).head? =
      (readAll? pieces text).map (· ++ last.map fun _ => []) := by
  induction pieces generalizing text with
  | nil => simpa [readAll?] using idle text
  | cons piece pieces ih =>
      cases piece with
      | oneOf literals edit =>
          have ways := readings_oneOf steady.1 edit text
          rw [← List.append_nil (Option.toList _)] at ways
          exact head?_readings_cons ways rfl (ih steady.2)
      | blanks least edit =>
          obtain ⟨shorter, ways, short⟩ := readings_blanks least edit text
          cases pieces with
          | nil => exact steady.elim
          | cons next pieces =>
              cases next with
              | blanks more other => exact steady.elim
              | oneOf literals other =>
                  exact head?_readings_cons ways (findSome?_shorter steady.1 _ short) (ih steady.2)

/-! ## Reading anything -/

theorem head?_readings_anything_last (text : List Char) :
    (readings [anything] text).head? = some [[]] := by
  simp [readings, anything, Item.readings, List.range_succ_eq_map]

theorem readings_anything_nil (items : List Item) :
    readings (anything :: items) [] = (readings items []).map ([] :: ·) := by
  simp [readings, anything, Item.readings, List.range_succ_eq_map]

/-- A pattern that may begin anywhere on a line is read from the first place where
the rest of it can be read. -/
theorem readings_anything_cons (items : List Item) (c : Char) (rest : List Char) :
    readings (anything :: items) (c :: rest) =
      (readings items (c :: rest)).map ([] :: ·) ++
        if c = '\n' then []
        else (readings (anything :: items) rest).map (·.modifyHead (c :: ·)) := by
  by_cases newline : c = '\n'
  · simp [newline, readings, anything, Item.readings, List.range_succ_eq_map]
  · have ways : anything.readings (c :: rest) = [] :: (anything.readings rest).map (c :: ·) := by
      simp only [anything, Item.readings]
      rw [List.takeWhile_cons_of_pos (by simpa using newline), List.length_cons,
        List.range_succ_eq_map, List.filter_eq_self.2 (by simp), List.filter_eq_self.2 (by simp)]
      simp
    rw [readings, ways, List.flatMap_cons, List.flatMap_map, if_neg newline, readings,
      List.map_flatMap]
    simp [Function.comp_def]

theorem head?_readings_anything_eq_none {items : List Item} {text : List Char}
    (missed : (readings (anything :: items) text).head? = none) :
    (readings items text).head? = none := by
  cases text with
  | nil => simpa [readings_anything_nil] using missed
  | cons c rest =>
      rw [readings_anything_cons, List.head?_append, Option.or_eq_none_iff, List.head?_map]
        at missed
      simpa using missed.1

theorem head?_readings_anything_eq_some {items : List Item} {text : List Char}
    {texts : List (List Char)} (here : (readings (anything :: items) text).head? = some texts) :
    ∃ passed rest following, text = passed ++ rest ∧ texts = passed :: following ∧
      (readings items rest).head? = some following ∧
      ∀ front back, passed = front ++ back → back ≠ [] →
        (readings items (back ++ rest)).head? = none := by
  induction text generalizing texts with
  | nil =>
      rw [readings_anything_nil, List.head?_map, Option.map_eq_some_iff] at here
      obtain ⟨following, read, rfl⟩ := here
      refine ⟨[], [], following, rfl, rfl, read, ?_⟩
      intro front back split nonempty
      exact absurd (List.append_eq_nil_iff.1 split.symm).2 nonempty
  | cons c text ih =>
      rw [readings_anything_cons, List.head?_append, List.head?_map] at here
      cases now : (readings items (c :: text)).head? with
      | some following =>
          rw [now] at here
          obtain rfl := Option.some.inj here
          refine ⟨[], c :: text, following, rfl, rfl, now, ?_⟩
          intro front back split nonempty
          exact absurd (List.append_eq_nil_iff.1 split.symm).2 nonempty
      | none =>
          rw [now, Option.map_none, Option.none_or] at here
          split at here
          next => contradiction
          next =>
            rw [List.head?_map, Option.map_eq_some_iff] at here
            obtain ⟨_, later, rfl⟩ := here
            obtain ⟨passed, rest, following, rfl, rfl, read, missed⟩ := ih later
            refine ⟨c :: passed, rest, following, rfl, rfl, read, ?_⟩
            intro front back split nonempty
            cases front with
            | nil =>
                obtain rfl : c :: passed = back := split
                exact now
            | cons d front =>
                rw [List.cons_append, List.cons.injEq] at split
                exact missed front back split.2 nonempty

theorem replaceAll_cons_of_none {pattern : Pattern} {c : Char} {rest : List Char}
    (missed : pattern.reading? (c :: rest) = none) :
    pattern.replaceAll (c :: rest) = c :: pattern.replaceAll rest := by
  rw [replaceAll, missed]

theorem replaceAll_of_some {pattern : Pattern} {text rest : List Char} {texts : List (List Char)}
    (here : pattern.reading? (text ++ rest) = some texts) (read : texts.flatten = text)
    (nonempty : text ≠ []) :
    pattern.replaceAll (text ++ rest) = pattern.expand texts ++ pattern.replaceAll rest := by
  cases text with
  | nil => exact absurd rfl nonempty
  | cons c text =>
      rw [List.cons_append] at here ⊢
      rw [replaceAll, here]
      dsimp only
      rw [read]
      simp

end Pattern

end ProviderMigration.Identifier
