import ProviderMigration.Proofs.Toml.Quoted
import ProviderMigration.Toml.Document

/-!
# Values that are read back

A number that is written in decimal is read back, and so is an array of strings, on one line
or with a line for each of them. A line with such a value adds one entry to the table of a
document, if the table has no entry of that key yet.
-/

namespace ProviderMigration.Toml

/-! ## Numbers -/

namespace Scalar

theorem head?_toDigits {number : Nat} (positive : 0 < number) :
    (Nat.toDigits 10 number).head? ≠ some '0' := by
  induction number using Nat.strongRecOn with
  | ind number ih =>
      by_cases small : number < 10
      · have digit : ∀ n < 10, 0 < n → n.digitChar ≠ '0' := by decide
        rw [Nat.toDigits_of_lt_base small]
        exact fun same => digit number small positive (Option.some.inj same)
      · have outer := ih (number / 10) (by omega) (by omega)
        rw [Nat.toDigits_of_base_le (by decide) (by omega), List.head?_append]
        obtain ⟨d, digits, written⟩ :=
          List.exists_cons_of_ne_nil (Nat.toDigits_ne_nil (b := 10) (n := number / 10))
        rw [written] at outer ⊢
        exact outer

theorem digits?_of_isDigit {digits : List Char} (filled : digits ≠ [])
    (all : ∀ c ∈ digits, c.isDigit = true) : digits? Char.isDigit digits = some digits := by
  have go : ∀ (digits : List Char) (afterDigit : Bool), (∀ c ∈ digits, c.isDigit = true) →
      (digits = [] → afterDigit = true) →
        digits?.go Char.isDigit afterDigit digits = some digits := by
    intro digits
    induction digits with
    | nil =>
        intro afterDigit _ ended
        rw [digits?.go, if_pos (ended rfl)]
    | cons c digits ih =>
        intro afterDigit all _
        rw [List.forall_mem_cons] at all
        rw [digits?.go, if_pos all.1, ih true all.2 (fun _ => rfl)]
        rfl
  exact go digits false all fun empty => absurd empty filled

section Written

variable (n : Nat)

theorem isDigit_of_mem_toDigits : ∀ c ∈ Nat.toDigits 10 n, c.isDigit = true :=
  fun _ member => Nat.isDigit_of_mem_toDigits (by decide) (by decide) member

theorem decimal?_toDigits : decimal? (Nat.toDigits 10 n) = some (Nat.toDigits 10 n) := by
  rw [decimal?, digits?_of_isDigit Nat.toDigits_ne_nil (isDigit_of_mem_toDigits n),
    Option.bind_eq_bind, Option.bind_some]
  split
  next second rest padded =>
    by_cases zero : n = 0
    · subst zero
      rw [Nat.toDigits_of_lt_base (by decide)] at padded
      exact nomatch (List.cons.inj padded).2
    · have head := head?_toDigits (Nat.pos_of_ne_zero zero)
      rw [padded] at head
      exact absurd rfl head
  next => rfl

/-- The digits of a number stand for it. -/
theorem number_toDigits : number 10 (Nat.toDigits 10 n) = n := by
  have same : ∀ (digits : List Char), (∀ c ∈ digits, c.isDigit = true) → ∀ start,
      digits.foldl (fun number c => 10 * number + digitValue c) start =
        Nat.ofDigitChars 10 digits start := by
    intro digits
    induction digits with
    | nil => exact fun _ _ => rfl
    | cons c digits ih =>
        intro all start
        rw [List.forall_mem_cons] at all
        rw [List.foldl_cons, ih all.2, digitValue, if_pos all.1]
        rfl
  rw [number, same _ (isDigit_of_mem_toDigits n), Nat.ofDigitChars_toDigits (by decide) (by decide)]

theorem integer?_toDigits : integer? (Nat.toDigits 10 n) = some (n : Int) := by
  have digits := isDigit_of_mem_toDigits n
  have unsigned : sign (Nat.toDigits 10 n) = (1, Nat.toDigits 10 n) := by
    rw [sign.eq_def]
    split
    next same => exact absurd (digits '-' (same ▸ List.mem_cons_self)) (by decide)
    next same => exact absurd (digits '+' (same ▸ List.mem_cons_self)) (by decide)
    next => rfl
  have second : ∀ {c d : Char} {rest}, Nat.toDigits 10 n = c :: d :: rest → d.isDigit = true :=
    fun same => digits _ (same ▸ List.mem_cons_of_mem _ List.mem_cons_self)
  rw [integer?.eq_def]
  split
  next same => exact absurd (second same) (by decide)
  next same => exact absurd (second same) (by decide)
  next same => exact absurd (second same) (by decide)
  next =>
    rw [unsigned]
    dsimp only
    rw [decimal?_toDigits, Option.map_some, number_toDigits, Int.one_mul]

theorem ofText?_toDigits (fits : n < Nat.pow 2 128) :
    ofText? (Nat.toDigits 10 n) = some (.integer n) := by
  have apart : ∀ c rest, c.isDigit = false → Nat.toDigits 10 n ≠ c :: rest := by
    intro c rest letter same
    have digit := isDigit_of_mem_toDigits n c (same ▸ List.mem_cons_self)
    exact Bool.false_ne_true (letter.symm.trans digit)
  have small : integerFits (n : Int) = true := by
    have bound : (n : Int) < (Nat.pow 2 128 : Nat) := Int.ofNat_lt.2 fits
    rw [integerFits, Bool.and_eq_true, decide_eq_true_eq, decide_eq_true_eq]
    exact ⟨by omega, bound⟩
  have yes : Nat.toDigits 10 n ≠ "true".toList := apart 't' "rue".toList (by decide)
  have no : Nat.toDigits 10 n ≠ "false".toList := apart 'f' "alse".toList (by decide)
  rw [ofText?, if_neg yes, if_neg no, integer?_toDigits]
  dsimp only
  rw [if_pos small]

/-- A number that is written is read back at the end of a line. -/
theorem read?_toDigits (fits : n < Nat.pow 2 128) (rest : List Char) :
    read? (Nat.toDigits 10 n ++ '\n' :: rest) = some (.integer n, '\n' :: rest) := by
  have all : ∀ c ∈ Nat.toDigits 10 n, isScalarChar c = true := by
    intro c member
    simp [isScalarChar, Char.isAlphanum, isDigit_of_mem_toDigits n c member]
  have word : (Nat.toDigits 10 n ++ '\n' :: rest).takeWhile isScalarChar = Nat.toDigits 10 n := by
    rw [List.takeWhile_append_of_pos all, List.takeWhile_cons_of_neg (by decide), List.append_nil]
  rw [read?, word, List.drop_left]
  split
  next word' rest' same =>
    split at same
    next blank => exact absurd (List.cons.inj blank).1 (by decide)
    next =>
      obtain ⟨rfl, rfl⟩ := Prod.mk.inj same
      rw [ofText?_toDigits n fits]
      rfl

end Written

end Scalar

namespace Document

variable {c : Char} {text rest more : List Char} {fuel depth : Nat} {items : List Value}

/-! ## Values -/

/-- A character that is no part of a gap, a line end or a comment. -/
structure IsVisible (c : Char) : Prop where
  gap : isGap c = false
  feed : c ≠ '\n'
  carriage : c ≠ '\r'
  comment : c ≠ '#'

theorem skipLines_of_isVisible (visible : IsVisible c) :
    skipLines false (c :: rest) = some (c :: rest) := by
  rw [skipLines.eq_def]
  split
  next => contradiction
  next same => exact absurd (List.cons.inj same).1 visible.feed
  next same => exact absurd (List.cons.inj same).1 visible.carriage
  next same =>
    obtain ⟨rfl, rfl⟩ := List.cons.inj same
    rw [if_neg Bool.false_ne_true, visible.gap, if_neg Bool.false_ne_true, if_neg visible.comment]

/-- A string is a value. -/
theorem readValue_write (text : String) (double : rest.head? ≠ some '"')
    (single : rest.head? ≠ some '\'') :
    readValue (fuel + 1) depth (Quoted.write text.toList ++ rest) = some (.string text, rest) := by
  have string := Quoted.read?_write text.toList double single
  obtain ⟨quote, content, written, mark⟩ := Quoted.exists_quote_write text.toList
  rw [written, List.cons_append] at string ⊢
  have quoted : (quote :: (content ++ rest)).head? = some '"' ∨
      (quote :: (content ++ rest)).head? = some '\'' := mark.imp (congrArg some) (congrArg some)
  have apart : quote ≠ '[' ∧ quote ≠ '\x7b' := by
    rcases mark with rfl | rfl <;> decide
  rw [readValue]
  · rw [if_pos quoted, string, Option.map_some]
    dsimp only
    rw [String.ofList_toList]
  · exact fun _ same => apart.1 (List.cons.inj same).1
  · exact fun _ same => apart.2 (List.cons.inj same).1

/-- A number is a value at the end of a line. -/
theorem readValue_toString (n : Nat) (fits : n < Nat.pow 2 128) :
    readValue (fuel + 1) depth ((toString n).toList ++ '\n' :: rest) =
      some (.integer n, '\n' :: rest) := by
  have written : (toString n).toList = Nat.toDigits 10 n := Nat.toList_repr
  obtain ⟨c, digits, spelled⟩ :=
    List.exists_cons_of_ne_nil (Nat.toDigits_ne_nil (b := 10) (n := n))
  have digit : c.isDigit = true :=
    Scalar.isDigit_of_mem_toDigits n c (spelled ▸ List.mem_cons_self)
  have apart : ∀ other, other.isDigit = false → c ≠ other := by
    rintro other letter rfl
    exact Bool.false_ne_true (letter.symm.trans digit)
  have scalar := Scalar.read?_toDigits n fits rest
  rw [written]
  rw [spelled, List.cons_append] at scalar ⊢
  rw [readValue]
  · rw [if_neg, scalar]
    rintro (double | single)
    · exact apart '"' (by decide) (Option.some.inj double)
    · exact apart '\'' (by decide) (Option.some.inj single)
  · exact fun _ same => apart '[' (by decide) (List.cons.inj same).1
  · exact fun _ same => apart '\x7b' (by decide) (List.cons.inj same).1

/-- An array is at its end. -/
theorem readItems_close (skipped : skipLines false text = some (']' :: more)) :
    readItems (fuel + 1) depth items text = some (items.reverse, more) := by
  rw [readItems, skipped]
  rfl

section Item

variable {item : String} {mark : Char} (visible : IsVisible mark) (double : mark ≠ '"')
  (single : mark ≠ '\'')
  (skipped : skipLines false text = some (Quoted.write item.toList ++ mark :: more))
include visible double single skipped

/-- What follows a string in an array says whether there are further ones. -/
theorem readItems_write :
    readItems (fuel + 2) depth items text =
      match mark :: more with
      | ',' :: more => readItems (fuel + 1) depth (.string item :: items) more
      | ']' :: more => some ((.string item :: items).reverse, more)
      | _ => none := by
  have value : readValue (fuel + 1) depth (Quoted.write item.toList ++ mark :: more) =
      some (.string item, mark :: more) :=
    readValue_write item (fun same => double (Option.some.inj same))
      (fun same => single (Option.some.inj same))
  obtain ⟨quote, content, written, marked⟩ := Quoted.exists_quote_write item.toList
  have apart : quote ≠ ']' := by rcases marked with rfl | rfl <;> decide
  rw [written, List.cons_append] at skipped value
  rw [readItems, skipped, Option.bind_eq_bind, Option.bind_some]
  split
  next same => exact absurd (List.cons.inj same).1 apart
  next =>
    rw [value, Option.bind_eq_bind, Option.bind_some]
    dsimp only
    rw [skipLines_of_isVisible visible, Option.bind_some]
    rfl

end Item

/-- A string in an array that a comma follows. -/
theorem readItems_further {item : String}
    (skipped : skipLines false text = some (Quoted.write item.toList ++ ',' :: more)) :
    readItems (fuel + 2) depth items text =
      readItems (fuel + 1) depth (.string item :: items) more :=
  readItems_write ⟨by decide, by decide, by decide, by decide⟩ (by decide) (by decide) skipped

/-- A string in an array that the end of the array follows. -/
theorem readItems_last {item : String}
    (skipped : skipLines false text = some (Quoted.write item.toList ++ ']' :: more)) :
    readItems (fuel + 2) depth items text = some ((.string item :: items).reverse, more) :=
  readItems_write ⟨by decide, by decide, by decide, by decide⟩ (by decide) (by decide) skipped

theorem readValue_array {items : List Value}
    (listed : readItems fuel depth [] rest = some (items, more)) :
    readValue (fuel + 1) (depth + 1) ('[' :: rest) = some (.array items, more) := by
  rw [readValue, listed]
  rfl

/-! ## Lines -/

/-- Whether a key needs no quotes. -/
def isBare (key : String) : Bool := !key.toList.isEmpty && key.toList.all isKeyChar

theorem isBare_iff {key : String} :
    isBare key = true ↔ key.toList ≠ [] ∧ ∀ c ∈ key.toList, isKeyChar c = true := by
  rw [isBare, Bool.and_eq_true, Bool.not_eq_true', List.isEmpty_eq_false_iff, List.all_eq_true]

/-- A key that a mark follows. -/
theorem readKey_bare {key : String} (bare : isBare key = true) :
    readKey (key.toList ++ ' ' :: '=' :: rest) = some (([], key), '=' :: rest) := by
  obtain ⟨nonempty, letters⟩ := isBare_iff.1 bare
  have part : (key.toList ++ ' ' :: '=' :: rest).takeWhile isKeyChar = key.toList := by
    rw [List.takeWhile_append_of_pos letters, List.takeWhile_cons_of_neg (by decide),
      List.append_nil]
  have filled : ¬ key.toList.isEmpty = true := mt List.isEmpty_iff.1 nonempty
  have read : readKeyPart (key.toList ++ ' ' :: '=' :: rest) =
      some (key, ' ' :: '=' :: rest) := by
    rw [readKeyPart, part, if_neg filled, List.drop_left, String.ofList_toList]
  have skipped : skipGap (' ' :: '=' :: rest) = '=' :: rest := rfl
  rw [readKey, maxKeyParts, readKeyOf, read, Option.bind_eq_bind, Option.bind_some]
  dsimp only
  rw [skipped]
  rfl

/-- A key that the root has no entry for gets its value. -/
theorem assign_root {root : Table} {key : String} (absent : root.lookup key = none)
    (value : Value) :
    Reader.assign ⟨root, []⟩ [] key value = some ⟨root ++ [(key, value)], []⟩ := by
  have assigned : Table.assign root [] key value = some (root ++ [(key, value)]) := by
    rw [Table.assign, Table.editAt, absent]
    rfl
  rw [Reader.assign, Table.editAt, assigned]
  rfl

theorem isVisible_of_isKeyChar (plain : isKeyChar c = true) : IsVisible c := by
  refine ⟨?_, ?_, ?_, ?_⟩
  · rw [isGap, Bool.or_eq_false_iff, decide_eq_false_iff_not, decide_eq_false_iff_not]
    refine ⟨?_, ?_⟩ <;> rintro rfl <;> exact absurd plain (by decide)
  all_goals
    rintro rfl
    exact absurd plain (by decide)

/-- A line that gives a value to a key, as it is written. -/
structure Line where
  key : String
  value : List Char
  content : Value

namespace Line

def written (line : Line) : List Char :=
  line.key.toList ++ " = ".toList ++ line.value ++ "\n".toList

def entry (line : Line) : String × Value := (line.key, line.content)

/-- The key of the line needs no quotes, and the value is read back as what is written, with
as much fuel as is given. -/
structure Reads (line : Line) (bound : Nat) : Prop where
  bare : isBare line.key = true
  starts : ∃ c ∈ line.value.head?, isGap c = false
  reads : ∀ fuel rest, bound ≤ fuel →
    readValue fuel maxDepth (line.value ++ '\n' :: rest) = some (line.content, '\n' :: rest)

/-- A line starts with its key. -/
theorem Reads.exists_head {line : Line} {bound : Nat} (reads : line.Reads bound) :
    ∃ c rest, line.written = c :: rest ∧ isKeyChar c = true := by
  obtain ⟨nonempty, plain⟩ := isBare_iff.1 reads.bare
  obtain ⟨c, letters, spelled⟩ := List.exists_cons_of_ne_nil nonempty
  refine ⟨c, letters ++ " = ".toList ++ line.value ++ "\n".toList, ?_,
    plain c (spelled ▸ List.mem_cons_self)⟩
  rw [written, spelled]
  rfl

end Line

variable {line : Line} {bound : Nat} {root : Table}

/-- A line adds an entry to the root. -/
theorem readLine_line (reads : line.Reads bound) (absent : root.lookup line.key = none)
    (enough : bound ≤ fuel) (rest : List Char) :
    Reader.readLine fuel ⟨root, []⟩ (line.written ++ rest) =
      some (⟨root ++ [line.entry], []⟩, rest) := by
  have spaced : line.written ++ rest =
      line.key.toList ++ ' ' :: '=' :: ' ' :: (line.value ++ '\n' :: rest) := by
    simp [Line.written]
  have keyed : readKey (line.written ++ rest) =
      some (([], line.key), '=' :: ' ' :: (line.value ++ '\n' :: rest)) := by
    rw [spaced, readKey_bare reads.bare]
  have gap : skipGap (' ' :: (line.value ++ '\n' :: rest)) = line.value ++ '\n' :: rest := by
    obtain ⟨c, head, visible⟩ := reads.starts
    obtain ⟨value, same⟩ := List.head?_eq_some_iff.1 head
    rw [skipGap, List.dropWhile_cons_of_pos (by decide), same, List.cons_append,
      List.dropWhile_cons_of_neg (by simp [visible])]
  have unbracketed : ∀ more, line.written ++ rest ≠ '[' :: more := by
    intro more same
    obtain ⟨c, letters, begun, letter⟩ := reads.exists_head
    rw [begun] at same
    obtain rfl := (List.cons.inj same).1
    exact absurd letter (by decide)
  rw [Reader.readLine.eq_def]
  split
  next same => exact absurd same (unbracketed _)
  next same => exact absurd same (unbracketed _)
  next =>
    rw [keyed, Option.bind_eq_bind, Option.bind_some]
    change (readValue fuel maxDepth (skipGap (' ' :: (line.value ++ '\n' :: rest))) >>=
      fun answer => Reader.assign ⟨root, []⟩ [] line.key answer.1 >>= fun reader =>
        skipLineEnd answer.2 >>= fun rest => some (reader, rest)) = _
    rw [gap, reads.reads fuel rest enough, Option.bind_eq_bind, Option.bind_some,
      assign_root absent]
    rfl

/-- Lines with different keys give a table with their entries. -/
theorem readAll_lines {lines : List Line} (reads : ∀ line ∈ lines, line.Reads bound)
    (distinct : (root.map Prod.fst ++ lines.map Line.key).Nodup)
    (enough : bound + lines.length < fuel) :
    Reader.readAll fuel ⟨root, []⟩ (lines.flatMap Line.written) =
      some (root ++ lines.map Line.entry) := by
  induction lines generalizing fuel root with
  | nil =>
      have positive : fuel ≠ 0 := Nat.ne_of_gt (Nat.zero_lt_of_lt enough)
      obtain ⟨fuel, rfl⟩ := Nat.exists_eq_add_one_of_ne_zero positive
      rw [Reader.readAll, List.map_nil, List.append_nil]
      rfl
  | cons line lines ih =>
      have positive : fuel ≠ 0 := Nat.ne_of_gt (Nat.zero_lt_of_lt enough)
      obtain ⟨fuel, rfl⟩ := Nat.exists_eq_add_one_of_ne_zero positive
      rw [List.length_cons] at enough
      rw [List.forall_mem_cons] at reads
      have absent : root.lookup line.key = none := by
        rw [List.lookup_eq_none_iff]
        intro entry member
        have apart := (List.nodup_append.1 distinct).2.2 entry.1 (List.mem_map_of_mem member)
          line.key List.mem_cons_self
        exact bne_iff_ne.2 (Ne.symm apart)
      have further : ((root ++ [line.entry]).map Prod.fst ++ lines.map Line.key).Nodup := by
        rw [List.map_append, List.append_assoc]
        exact distinct
      have skipped : skipLines false (line.written ++ lines.flatMap Line.written) =
          some (line.written ++ lines.flatMap Line.written) := by
        obtain ⟨c, rest, begun, letter⟩ := reads.1.exists_head
        rw [begun]
        exact skipLines_of_isVisible (isVisible_of_isKeyChar letter)
      rw [Reader.readAll, List.flatMap_cons, skipped, Option.bind_eq_bind, Option.bind_some]
      split
      next empty =>
        obtain ⟨c, rest, begun, -⟩ := reads.1.exists_head
        rw [begun] at empty
        contradiction
      next =>
        rw [readLine_line reads.1 absent (by omega), Option.bind_eq_bind, Option.bind_some]
        dsimp only
        rw [ih reads.2 further (by omega), List.map_cons, List.append_assoc, List.singleton_append]

/-- What a document without a byte order mark holds. -/
theorem ofText?_of_unmarked (unmarked : ∀ rest, text ≠ '\uFEFF' :: rest) :
    ofText? text = Reader.readAll (2 * text.length + 3) {} text := by
  unfold ofText?
  split
  next => exact absurd rfl (unmarked _)
  next => rfl

/-- A document of lines with different keys holds the table with their entries. -/
theorem ofText?_lines {lines : List Line} (reads : ∀ line ∈ lines, line.Reads bound)
    (distinct : (lines.map Line.key).Nodup)
    (enough : bound + lines.length < 2 * (lines.flatMap Line.written).length + 3) :
    ofText? (lines.flatMap Line.written) = some (lines.map Line.entry) := by
  have unmarked : ∀ rest, lines.flatMap Line.written ≠ '\uFEFF' :: rest := by
    intro rest same
    cases lines with
    | nil => contradiction
    | cons line lines =>
        obtain ⟨c, letters, begun, letter⟩ := (reads line List.mem_cons_self).exists_head
        rw [List.flatMap_cons, begun] at same
        rw [(List.cons.inj same).1] at letter
        exact absurd letter (by decide)
  rw [ofText?_of_unmarked unmarked]
  exact readAll_lines reads distinct enough

end Document

end ProviderMigration.Toml
