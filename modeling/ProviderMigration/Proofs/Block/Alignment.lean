import Mathlib.Data.Option.Basic
import ProviderMigration.Proofs.Block.Remainder
import ProviderMigration.Text.Line

/-!
# Aligned texts

Two texts are aligned column by column: a column holds a character of both, or a stretch of
the one with the stretch of the other that takes its place. If a scan passes over both
stretches of each column in the same way, it finds the same braces in both texts, each in a
column that they share. How far it has come differs by what the columns in front of it have
grown or shrunk.
-/

namespace ProviderMigration.Block

open Text

/-! ## Columns -/

/-- A character of two texts, or a stretch of the one and what the other has in its place. -/
inductive Column where
  | same (c : Char)
  | changed (old new : List Char)
  deriving DecidableEq, Repr

namespace Column

def old : Column → List Char
  | same c => [c]
  | changed old _ => old

def new : Column → List Char
  | same c => [c]
  | changed _ new => new

/-- The text on the one side of some columns. -/
def oldText (columns : List Column) : List Char := columns.flatMap old

/-- The text on the other side of them. -/
def newText (columns : List Column) : List Char := columns.flatMap new

@[simp] theorem oldText_nil : oldText [] = [] := rfl

@[simp] theorem newText_nil : newText [] = [] := rfl

@[simp] theorem oldText_cons (column : Column) (columns : List Column) :
    oldText (column :: columns) = column.old ++ oldText columns := List.flatMap_cons

@[simp] theorem newText_cons (column : Column) (columns : List Column) :
    newText (column :: columns) = column.new ++ newText columns := List.flatMap_cons

@[simp] theorem oldText_append (first last : List Column) :
    oldText (first ++ last) = oldText first ++ oldText last := List.flatMap_append

@[simp] theorem newText_append (first last : List Column) :
    newText (first ++ last) = newText first ++ newText last := List.flatMap_append

@[simp] theorem oldText_map_same (text : List Char) : oldText (text.map same) = text := by
  induction text with
  | nil => rfl
  | cons c text ih => simp [ih, old]

@[simp] theorem newText_map_same (text : List Char) : newText (text.map same) = text := by
  induction text with
  | nil => rfl
  | cons c text ih => simp [ih, new]

/-- Every change of some columns is as required. -/
def AllChanged (meets : List Char → List Char → Prop) (columns : List Column) : Prop :=
  ∀ old new, changed old new ∈ columns → meets old new

namespace AllChanged

variable {meets others : List Char → List Char → Prop} {column : Column}
  {columns first last : List Column}

theorem of_cons (all : AllChanged meets (column :: columns)) : AllChanged meets columns :=
  fun old new member => all old new (List.mem_cons_of_mem column member)

theorem left (all : AllChanged meets (first ++ last)) : AllChanged meets first :=
  fun old new member => all old new (List.mem_append_left last member)

theorem right (all : AllChanged meets (first ++ last)) : AllChanged meets last :=
  fun old new member => all old new (List.mem_append_right first member)

theorem imp (all : AllChanged meets columns)
    (implies : ∀ old new, meets old new → others old new) : AllChanged others columns :=
  fun old new member => implies old new (all old new member)

theorem nil : AllChanged meets [] := fun _ _ member => absurd member List.not_mem_nil

theorem same (c : Char) (all : AllChanged meets columns) :
    AllChanged meets (.same c :: columns) := by
  intro old new member
  cases member with
  | tail _ member => exact all old new member

theorem changed {old new : List Char} (here : meets old new) (all : AllChanged meets columns) :
    AllChanged meets (.changed old new :: columns) := by
  intro old new member
  cases member with
  | head => exact here
  | tail _ member => exact all old new member

theorem append (one : AllChanged meets first) (two : AllChanged meets last) :
    AllChanged meets (first ++ last) := by
  intro old new member
  rcases List.mem_append.1 member with here | there
  · exact one old new here
  · exact two old new there

theorem map_same (text : List Char) : AllChanged meets (text.map .same) := by
  induction text with
  | nil => exact nil
  | cons c text ih => exact ih.same c

end AllChanged

/-- Two texts that can be cut into columns whose changes are as required. -/
def Aligns (meets : List Char → List Char → Prop) (text other : List Char) : Prop :=
  ∃ columns, oldText columns = text ∧ newText columns = other ∧ AllChanged meets columns

namespace Aligns

variable {meets : List Char → List Char → Prop} {one other text new : List Char}

theorem refl (text : List Char) : Aligns meets text text :=
  ⟨text.map same, oldText_map_same text, newText_map_same text, .map_same text⟩

theorem imp {others : List Char → List Char → Prop} (aligned : Aligns meets text new)
    (implies : ∀ old new, meets old new → others old new) : Aligns others text new := by
  obtain ⟨columns, read, written, all⟩ := aligned
  exact ⟨columns, read, written, all.imp implies⟩

theorem append (front : Aligns meets one other) (back : Aligns meets text new) :
    Aligns meets (one ++ text) (other ++ new) := by
  obtain ⟨first, rfl, rfl, all⟩ := front
  obtain ⟨last, rfl, rfl, all'⟩ := back
  exact ⟨first ++ last, oldText_append first last, newText_append first last, all.append all'⟩

theorem of_meets (here : meets text new) : Aligns meets text new :=
  ⟨[.changed text new], List.append_nil text, List.append_nil new, .changed here .nil⟩

theorem cons (c : Char) (later : Aligns meets text new) : Aligns meets (c :: text) (c :: new) :=
  append (refl [c]) later

/-- Texts are aligned if their lines are. -/
theorem unlines {edit : List Char → List Char} {rows : List (List Char)}
    (aligned : ∀ row ∈ rows, Aligns meets row (edit row)) :
    Aligns meets (unlines rows) (unlines (rows.map edit)) := by
  induction rows with
  | nil => exact refl []
  | cons row rows ih =>
      rw [List.map_cons, unlines_cons, unlines_cons]
      apply append (aligned row List.mem_cons_self)
      exact cons '\n' (ih fun other member => aligned other (List.mem_cons_of_mem row member))

end Aligns

/-- A stretch that changes is not empty. -/
def IsSolid (old _new : List Char) : Prop := old ≠ []

theorem AllChanged.eq_nil {columns : List Column} (solid : AllChanged IsSolid columns)
    (empty : oldText columns = []) : columns = [] := by
  cases columns with
  | nil => rfl
  | cons column columns =>
      rw [oldText_cons, List.append_eq_nil_iff] at empty
      cases column with
      | same c => exact absurd empty.1 (List.cons_ne_nil c [])
      | changed old new => exact absurd empty.1 (solid old new List.mem_cons_self)

/-- There is one way only to cut columns at a place of the text, unless they hold nothing of it. -/
theorem AllChanged.append_inj {first last first' last' : List Column}
    (solid : AllChanged IsSolid (first ++ last)) (joined : first ++ last = first' ++ last')
    (same : oldText first = oldText first') : first = first' ∧ last = last' := by
  rcases List.append_eq_append_iff.1 joined with ⟨inner, rfl, rfl⟩ | ⟨inner, rfl, rfl⟩
  · rw [oldText_append, List.self_eq_append_right] at same
    rw [solid.right.left.eq_nil same]
    simp
  · rw [oldText_append, List.append_right_eq_self] at same
    rw [solid.left.right.eq_nil same]
    simp

end Column

/-! ## A scan of characters -/

namespace Balance

variable {mode mode' : Mode} {index : Nat} {depth : Int} {first? : Option Nat}

theorem scan_append_of_isInert {stretch : List UInt8} (inert : ∀ b ∈ stretch, IsInert b)
    (nonempty : stretch ≠ []) (mode : Mode) (index : Nat) (depth : Int) (first? : Option Nat)
    (rest : List UInt8) :
    scan (symbol '\x7b') (symbol '\x7d') mode index depth first? (stretch ++ rest) =
      scan (symbol '\x7b') (symbol '\x7d') mode.pass (index + stretch.length) depth first? rest := by
  induction stretch generalizing mode index with
  | nil => contradiction
  | cons b stretch ih =>
      have here := inert b List.mem_cons_self
      have opening : b ≠ symbol '\x7b' := here _ (by decide)
      have closing : b ≠ symbol '\x7d' := here _ (by decide)
      rw [List.cons_append, scan, Mode.step_of_isInert here]
      simp only [opening, closing, if_false, ite_self]
      by_cases last : stretch = []
      · rw [last]
        rfl
      · rw [ih (fun b member => inert b (List.mem_cons_of_mem _ member)) last, Mode.pass_pass,
          List.length_cons, Nat.add_assoc, Nat.add_comm 1]

/-- A scan for braces reads the bytes of a text one character at a time. -/
theorem scan_utf8_cons (mode : Mode) (index : Nat) (depth : Int) (first? : Option Nat) (c : Char)
    (text : List Char) :
    scan (symbol '\x7b') (symbol '\x7d') mode index depth first? (utf8 (c :: text)) =
      if mode = .code ∧ c = '\x7d' ∧ countWith '\x7b' mode depth c = 1 then
        ⟨firstWith '\x7b' mode index first? c, some index⟩
      else
        scan (symbol '\x7b') (symbol '\x7d') (mode.step c text.head?) (index + c.utf8Size)
          (if mode = .code ∧ c = '\x7d' then countWith '\x7b' mode depth c - 1
            else countWith '\x7b' mode depth c)
          (firstWith '\x7b' mode index first? c) (utf8 text) := by
  by_cases narrow : c.utf8Size = 1
  · have same : ∀ d ∈ meaningful, c.val.toUInt8 = symbol d ↔ c = symbol d :=
      fun d listed => byte_eq_symbol_iff narrow (utf8Size_of_mem_meaningful d listed)
    have opening : c.val.toUInt8 = symbol '\x7b' ↔ c = '\x7b' := same _ (by decide)
    have closing : c.val.toUInt8 = symbol '\x7d' ↔ c = '\x7d' := same _ (by decide)
    rw [utf8_cons, String.utf8EncodeChar_eq_singleton narrow, List.singleton_append, scan_cons,
      Mode.step_congr same (sameAhead_utf8 text), narrow]
    simp only [firstWith, countWith, opening, closing]
    congr
  · have foreign : ∀ d ∈ meaningful, c ≠ d := by
      intro d listed same
      exact narrow (same ▸ utf8Size_of_mem_meaningful d listed)
    have inert : IsInert c := foreign
    rw [utf8_cons, scan_append_of_isInert (fun b => isInert_of_mem_utf8EncodeChar narrow)
      String.utf8EncodeChar_ne_nil, Mode.step_of_isInert inert, String.length_utf8EncodeChar]
    simp [firstWith, countWith, foreign '\x7b' (by decide), foreign '\x7d' (by decide)]

/-- A scan that comes to a stretch in the one mode leaves it in the other and counts nothing
in it. -/
def Passes (mode mode' : Mode) (stretch : List Char) : Prop :=
  ∀ index depth first? text,
    scan (symbol '\x7b') (symbol '\x7d') mode index depth first? (utf8 (stretch ++ text)) =
      scan (symbol '\x7b') (symbol '\x7d') mode' (index + byteSize stretch) depth first? (utf8 text)

theorem Passes.append {mode'' : Mode} {first last : List Char} (one : Passes mode mode' first)
    (two : Passes mode' mode'' last) : Passes mode mode'' (first ++ last) := by
  intro index depth first? text
  rw [List.append_assoc, one, two, byteSize_append, Nat.add_assoc]

/-- A scan passes over what means nothing. -/
theorem passes_of_isInert {stretch : List Char} (inert : ∀ c ∈ stretch, IsInert c)
    (nonempty : stretch ≠ []) (mode : Mode) : Passes mode mode.pass stretch := by
  intro index depth first? text
  induction stretch generalizing mode index with
  | nil => contradiction
  | cons c stretch ih =>
      have here := inert c List.mem_cons_self
      have opening : c ≠ '\x7b' := here _ (by decide)
      have closing : c ≠ '\x7d' := here _ (by decide)
      rw [List.cons_append, scan_utf8_cons, Mode.step_of_isInert here]
      simp only [firstWith, countWith, opening, closing, and_false, false_and, if_false]
      by_cases last : stretch = []
      · rw [last]
        rfl
      · rw [ih (fun c member => inert c (List.mem_cons_of_mem _ member)) last, Mode.pass_pass,
          byteSize_cons, Nat.add_assoc]

/-- A quote counts whatever follows it. -/
theorem passes_quote (mode : Mode) : Passes mode (mode.step '"' none) ['"'] := by
  intro index depth first? text
  have lone : mode.step '"' text.head? = mode.step '"' none := by
    cases mode <;> rfl
  have opening : '"' ≠ '\x7b' := by decide
  have closing : '"' ≠ '\x7d' := by decide
  rw [List.singleton_append, scan_utf8_cons, lone]
  simp only [firstWith, countWith, opening, closing, and_false, false_and, if_false]
  rfl

end Balance

/-! ## Scans of aligned texts -/

/-- A scan that looks ahead sees no difference between characters that it does not look for. -/
theorem sameAhead_of_not_mem {c d : Char} (plain : c ∉ ['/', '*', '\x7b'])
    (plain' : d ∉ ['/', '*', '\x7b']) : SameAhead (some c) (some d) := by
  intro e listed
  apply iff_of_false
  · rintro ⟨⟩
    exact plain listed
  · rintro ⟨⟩
    exact plain' listed

/-- Two stretches that a scan passes over in the same way, and cannot tell apart by looking
one symbol ahead. -/
structure IsSilent (old new : List Char) : Prop where
  passes : ∀ mode, ∃ mode', Balance.Passes mode mode' old ∧ Balance.Passes mode mode' new
  ahead : ∀ text other, SameAhead (old ++ text).head? (new ++ other).head?

/-- Stretches that mean nothing are passed over alike. -/
theorem isSilent_of_isInert {old new : List Char} (inert : ∀ c ∈ old, IsInert c)
    (nonempty : old ≠ []) (inert' : ∀ c ∈ new, IsInert c) (nonempty' : new ≠ []) :
    IsSilent old new where
  passes mode := ⟨mode.pass, Balance.passes_of_isInert inert nonempty mode,
    Balance.passes_of_isInert inert' nonempty' mode⟩
  ahead text other := by
    obtain ⟨c, old, rfl⟩ := List.exists_cons_of_ne_nil nonempty
    obtain ⟨d, new, rfl⟩ := List.exists_cons_of_ne_nil nonempty'
    have plain : ∀ c : Char, IsInert c → c ∉ ['/', '*', '\x7b'] := by
      intro c inert listed
      have known : ∀ c ∈ ['/', '*', '\x7b'], c ∈ meaningful := List.all_iff_forall_prop.1 (by decide)
      exact inert c (known c listed) rfl
    exact sameAhead_of_not_mem (plain c (inert c List.mem_cons_self))
      (plain d (inert' d List.mem_cons_self))

/-- Two places, one of each text, of a character that the texts share. -/
def Facing (columns : List Column) (c : Char) (place place' : Nat) : Prop :=
  ∃ first last, columns = first ++ .same c :: last ∧ byteSize (Column.oldText first) = place ∧
    byteSize (Column.newText first) = place'

/-- Balances of two texts whose places face each other. -/
structure Agree (columns : List Column) (one other : Balance) : Prop where
  opening : Option.Rel (Facing columns '\x7b') one.opening? other.opening?
  closing : Option.Rel (Facing columns '\x7d') one.closing? other.closing?

section Silent

open Column

variable {columns : List Column}

/-- A scan that looks one character ahead sees no difference. -/
theorem sameAhead_of_isSilent (silent : AllChanged IsSilent columns) :
    SameAhead (oldText columns).head? (newText columns).head? := by
  cases columns with
  | nil => exact fun _ _ => Iff.rfl
  | cons column columns =>
      cases column with
      | same c => exact fun _ _ => Iff.rfl
      | changed old new => exact (silent old new List.mem_cons_self).ahead _ _

/-- Scans of aligned texts find braces that face each other. The columns that have been read
are `done`. -/
theorem agree_scan {done : List Column} (silent : AllChanged IsSilent columns) (mode : Mode) (depth : Int)
    {first? first?' : Option Nat}
    (known : Option.Rel (Facing (done ++ columns) '\x7b') first? first?') :
    Agree (done ++ columns)
      (Balance.scan (symbol '\x7b') (symbol '\x7d') mode (byteSize (oldText done)) depth first?
        (utf8 (oldText columns)))
      (Balance.scan (symbol '\x7b') (symbol '\x7d') mode (byteSize (newText done)) depth first?'
        (utf8 (newText columns))) := by
  induction columns generalizing done mode depth first? first?' with
  | nil => exact ⟨known, .none⟩
  | cons column columns ih =>
      have joined : done ++ column :: columns = (done ++ [column]) ++ columns := by simp
      have start : oldText (done ++ [column]) = oldText done ++ column.old := by simp
      have start' : newText (done ++ [column]) = newText done ++ column.new := by simp
      have later := @ih (done ++ [column])
      rw [← joined, start, start', byteSize_append, byteSize_append] at later
      rw [oldText_cons, newText_cons]
      cases column with
      | changed old new =>
          obtain ⟨mode', one, other⟩ := (silent old new List.mem_cons_self).passes mode
          rw [Column.old, Column.new, one, other]
          exact later silent.of_cons mode' depth known
      | same c =>
          have here : Facing (done ++ .same c :: columns) c (byteSize (oldText done))
              (byteSize (newText done)) := ⟨done, columns, rfl, rfl, rfl⟩
          have ahead : mode.step c (newText columns).head? = mode.step c (oldText columns).head? :=
            (Mode.step_congr (fun _ _ => Iff.rfl) (sameAhead_of_isSilent silent.of_cons) mode).symm
          rw [Column.old, Column.new, List.singleton_append, List.singleton_append,
            Balance.scan_utf8_cons, Balance.scan_utf8_cons, ahead]
          have first : Option.Rel (Facing (done ++ .same c :: columns) '\x7b')
              (Balance.firstWith '\x7b' mode (byteSize (oldText done)) first? c)
              (Balance.firstWith '\x7b' mode (byteSize (newText done)) first?' c) := by
            rw [Balance.firstWith, Balance.firstWith]
            split
            next opens =>
              cases known with
              | none => exact .some (opens.2 ▸ here)
              | some faced => exact .some faced
            next => exact known
          split
          next ends => exact ⟨first, .some (ends.2.1 ▸ here)⟩
          next => exact later silent.of_cons _ _ first

/-- The balances of aligned texts are found at places that face each other. -/
theorem agree_ofBraces (silent : AllChanged IsSilent columns) :
    Agree columns (Balance.ofBraces (oldText columns)) (Balance.ofBraces (newText columns)) :=
  @agree_scan columns [] silent .code 0 none none .none

end Silent

end ProviderMigration.Block
