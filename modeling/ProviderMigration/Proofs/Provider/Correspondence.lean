import ProviderMigration.Proofs.Block.Alignment
import ProviderMigration.Proofs.Provider.Division

/-!
# Divisions of aligned texts

A keyword divides two aligned texts alike if the changes between them are silent and the
keyword avoids them: it is found in columns that the texts share, each of its blocks closes in
such a column, and what ends the division of the one text ends that of the other.
-/

namespace ProviderMigration.Provider

open Text Block Column

variable {keyword : String} {token : List Char} {columns : List Column}

/-! ## Where a keyword is announced -/

/-- Neither a token nor an end of it begins in a stretch. -/
structure Avoids (token stretch : List Char) : Prop where
  ends : ∀ tail, tail <:+ token → tail ≠ [] → ∀ text, ¬ tail <+: stretch ++ text
  starts : ∀ text, cutAt? token (stretch ++ text) =
    (cutAt? token text).map fun (before, found) => (stretch ++ before, found)

/-- A token avoids both sides of a change. -/
def AvoidsChange (token old new : List Char) : Prop := Avoids token old ∧ Avoids token new

/-- A token is found in both of two aligned texts, between the same columns, or in neither. -/
inductive CutAlike (token : List Char) (columns : List Column) : Prop where
  | absent (one : cutAt? token (oldText columns) = none)
      (other : cutAt? token (newText columns) = none)
  | found (first last : List Column) (split : columns = first ++ last)
      (one : cutAt? token (oldText columns) = some (oldText first, oldText last))
      (other : cutAt? token (newText columns) = some (newText first, newText last))

section Avoided

/-- An end of the token stands at the start of both texts or of neither. -/
theorem prefix_iff_of_avoids (avoided : AllChanged (AvoidsChange token) columns) {tail : List Char}
    (ends : tail <:+ token) : tail <+: oldText columns ↔ tail <+: newText columns := by
  induction columns generalizing tail with
  | nil => rfl
  | cons column columns ih =>
      cases tail with
      | nil => exact iff_of_true List.nil_prefix List.nil_prefix
      | cons d tail =>
          rw [oldText_cons, newText_cons]
          cases column with
          | same c =>
              have later := ih avoided.of_cons ((List.suffix_cons d tail).trans ends)
              rw [Column.old, Column.new, List.singleton_append, List.singleton_append,
                List.cons_prefix_cons, List.cons_prefix_cons, later]
          | changed old new =>
              obtain ⟨one, other⟩ := avoided old new List.mem_cons_self
              apply iff_of_false
              · exact one.ends _ ends (List.cons_ne_nil d tail) _
              · exact other.ends _ ends (List.cons_ne_nil d tail) _

/-- Columns in front over which both searches pass. -/
theorem CutAlike.prepend (front : List Column) (later : CutAlike token columns)
    (one : cutAt? token (oldText (front ++ columns)) =
      (cutAt? token (oldText columns)).map fun (before, rest) => (oldText front ++ before, rest))
    (other : cutAt? token (newText (front ++ columns)) =
      (cutAt? token (newText columns)).map fun (before, rest) => (newText front ++ before, rest)) :
    CutAlike token (front ++ columns) := by
  cases later with
  | absent none none' =>
      rw [none] at one
      rw [none'] at other
      exact .absent one other
  | found first last split cut cut' =>
      rw [cut] at one
      rw [cut'] at other
      refine .found (front ++ first) last (by rw [split, List.append_assoc]) ?_ ?_
      · rw [one, oldText_append]
        rfl
      · rw [other, newText_append]
        rfl

theorem cutAlike_of_avoids (avoided : AllChanged (AvoidsChange token) columns) (nonempty : token ≠ []) :
    CutAlike token columns := by
  induction columns with
  | nil =>
      have absent : cutAt? token [] = none := by
        rwa [cutAt?_eq_none_iff, List.infix_nil]
      exact .absent absent absent
  | cons column columns ih =>
      have later := ih avoided.of_cons
      cases column with
      | same c =>
          have starts := prefix_iff_of_avoids avoided (List.suffix_refl token)
          by_cases here : token <+: oldText (.same c :: columns)
          · apply CutAlike.found [] _ rfl
            · exact cutAt?_of_prefix here
            · exact cutAt?_of_prefix (starts.1 here)
          · have one := cutAt?_cons token c (oldText columns)
            have other := cutAt?_cons token c (newText columns)
            have absent : ¬ token.isPrefixOf (c :: oldText columns) = true :=
              mt List.isPrefixOf_iff_prefix.1 here
            have absent' : ¬ token.isPrefixOf (c :: newText columns) = true :=
              mt List.isPrefixOf_iff_prefix.1 (mt starts.2 here)
            rw [if_neg absent] at one
            rw [if_neg absent'] at other
            exact later.prepend [.same c] one other
      | changed old new =>
          obtain ⟨one, other⟩ := avoided old new List.mem_cons_self
          apply later.prepend [.changed old new]
          · simpa [Column.old] using one.starts (oldText columns)
          · simpa [Column.new] using other.starts (newText columns)

end Avoided

/-! ## Where its blocks close -/

/-- What two balances that agree say about a block. -/
inductive CloseAlike (keyword : String) (columns : List Column) (one other : Balance) : Prop where
  | malformed (fault : Malformed) (one : one.require keyword = .error fault)
      (other : other.require keyword = .error fault)
  | bounded (inner after : List Column) {opened opened' : Nat}
      (split : columns = inner ++ .same '\x7d' :: after)
      (one : one.require keyword = .ok (opened, byteSize (oldText inner)))
      (other : other.require keyword = .ok (opened', byteSize (newText inner)))

theorem closeAlike_of_agree {one other : Balance} (agree : Agree columns one other)
    (keyword : String) : CloseAlike keyword columns one other := by
  obtain ⟨opening, closing⟩ := agree
  obtain ⟨opening?, closing?⟩ := one
  obtain ⟨opening?', closing?'⟩ := other
  cases opening with
  | none => exact .malformed ⟨keyword, .opening⟩ rfl rfl
  | some opens =>
      cases closing with
      | none => exact .malformed ⟨keyword, .closing⟩ rfl rfl
      | some closes =>
          obtain ⟨inner, after, split, rfl, rfl⟩ := closes
          exact .bounded inner after split rfl rfl

/-! ## Corresponding divisions -/

/-- Two divisions whose parts are made of the same columns. -/
inductive Corresponds : List Column → Division → Division → Prop where
  | rest (columns : List Column) (fault? : Option Malformed) :
      Corresponds columns ⟨[], oldText columns, fault?⟩ ⟨[], newText columns, fault?⟩
  | part (before block : List Column) {columns : List Column} {one other : Division}
      (later : Corresponds columns one other) :
      Corresponds (before ++ block ++ columns)
        { one with parts := ⟨oldText before, oldText block⟩ :: one.parts }
        { other with parts := ⟨newText before, newText block⟩ :: other.parts }

/-- Aligned texts have corresponding divisions if a scan sees nothing of the changes and the
keyword avoids them. -/
theorem corresponds_of (silent : AllChanged IsSilent columns)
    (avoided : AllChanged (AvoidsChange keyword.toList) columns)
    (nonempty : keyword.toList ≠ []) :
    Corresponds columns (Division.of keyword (oldText columns))
      (Division.of keyword (newText columns)) := by
  induction size : columns.length using Nat.strongRecOn generalizing columns with
  | ind length ih =>
  subst size
  cases cutAlike_of_avoids avoided nonempty with
  | absent one other =>
      rw [Division.of_eq_of_absent one, Division.of_eq_of_absent other]
      exact .rest columns none
  | found first last split cut cut' =>
      subst split
      cases closeAlike_of_agree (agree_ofBraces silent.right) keyword with
      | malformed fault one other =>
          rw [Division.of_eq_of_malformed cut one, Division.of_eq_of_malformed cut' other]
          exact .rest (first ++ last) (some fault)
      | bounded inner after split one other =>
          subst split
          have shorter : after.length < (first ++ (inner ++ .same '\x7d' :: after)).length := by
            simp
            omega
          have later := ih after.length shorter silent.right.right.of_cons
            avoided.right.right.of_cons rfl
          have part := Corresponds.part first (inner ++ [.same '\x7d']) later
          have joined : first ++ (inner ++ [.same '\x7d']) ++ after =
              first ++ (inner ++ .same '\x7d' :: after) := by simp
          rw [joined, oldText_append inner, newText_append inner] at part
          rw [oldText_append inner] at cut one
          rw [newText_append inner] at cut' other
          rw [Division.of_eq_of_closed cut one, Division.of_eq_of_closed cut' other]
          exact part

namespace Corresponds

variable {one other : Division}

theorem fault?_eq (corresponds : Corresponds columns one other) : one.fault? = other.fault? := by
  induction corresponds with
  | rest columns fault? => rfl
  | part before block later ih => exact ih

end Corresponds

/-! ## Lines of blocks -/

/-- The first and the last line of every block, when the text begins on the line `line`. A line
has the number of newlines in front of it. -/
def spansFrom (line : Nat) : List Part → List (Nat × Nat)
  | [] => []
  | part :: parts =>
      let first := line + part.before.count '\n'
      let last := first + part.block.count '\n'
      (first, last) :: spansFrom last parts

/-- The lines on which the blocks of a division begin and end. -/
def Division.lineSpans (division : Division) : List (Nat × Nat) := spansFrom 0 division.parts

/-- A change within the lines of the texts. -/
def KeepsLines (old new : List Char) : Prop := old.count '\n' = new.count '\n'

theorem count_eq_of_keepsLines (keeps : AllChanged KeepsLines columns) :
    (oldText columns).count '\n' = (newText columns).count '\n' := by
  induction columns with
  | nil => rfl
  | cons column columns ih =>
      rw [oldText_cons, newText_cons, List.count_append, List.count_append, ih keeps.of_cons]
      cases column with
      | same c => rfl
      | changed old new =>
          have here : old.count '\n' = new.count '\n' := keeps old new List.mem_cons_self
          rw [Column.old, Column.new, here]

theorem Corresponds.spansFrom_eq {one other : Division}
    (corresponds : Corresponds columns one other) (keeps : AllChanged KeepsLines columns) (line : Nat) :
    spansFrom line one.parts = spansFrom line other.parts := by
  induction corresponds generalizing line with
  | rest columns fault? => rfl
  | part before block later ih =>
      have front := count_eq_of_keepsLines keeps.left.left
      have middle := count_eq_of_keepsLines keeps.left.right
      rw [spansFrom, spansFrom]
      dsimp only
      rw [front, middle, ih keeps.right]

end ProviderMigration.Provider
