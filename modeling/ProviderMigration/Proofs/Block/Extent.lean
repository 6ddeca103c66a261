import ProviderMigration.Block.Balance

/-!
# The extent of a block

A scan looks one symbol ahead, and a string or a comment may reach far. Still, where a
block ends is settled by the block alone: nothing that follows the closing delimiter has a
say in it, and a text with a block in it goes on having the block however it goes on. The
places that a scan reports are places of delimiters, the opening one first.
-/

namespace ProviderMigration.Block.Balance

variable {α : Type} [Alphabet α] [DecidableEq α]
variable {opening closing : α} {mode : Mode} {index : Nat} {depth : Int} {first? : Option Nat}
  {text : List α} {closed : Nat}

/-! ## What follows a block -/

/-- A scan reads no further than the closing delimiter. -/
theorem scan_take_append {place : Nat}
    (found : (scan opening closing mode index depth first? text).closing? = some (index + place))
    (more : List α) :
    scan opening closing mode index depth first? (text.take (place + 1) ++ more) =
      scan opening closing mode index depth first? text := by
  induction text generalizing mode index depth first? place with
  | nil => contradiction
  | cons a rest ih =>
      rw [List.take_succ_cons, List.cons_append, scan_cons, scan_cons]
      rw [scan_cons] at found
      split at found
      next ends => rw [if_pos ends, if_pos ends]
      next further =>
        rw [if_neg further, if_neg further]
        -- A block that ends later leaves a symbol to look ahead to.
        obtain ⟨inner, same, symbol⟩ := getElem?_of_closing?_scan found
        obtain rfl : place = inner + 1 := by omega
        have ahead : (rest.take (inner + 1) ++ more).head? = rest.head? := by
          cases rest with
          | nil => contradiction
          | cons b rest => rfl
        rw [same] at found
        rw [ahead, ih found]

/-- A text up to the end of its block has the balance of the whole, whatever follows. -/
theorem find_take_append (found : (find opening closing text).closing? = some closed)
    (more : List α) :
    find opening closing (text.take (closed + 1) ++ more) = find opening closing text :=
  scan_take_append (by rw [Nat.zero_add]; exact found) more

/-- A text with a block has it in every continuation. -/
theorem find_append (found : (find opening closing text).closing? = some closed)
    (more : List α) : find opening closing (text ++ more) = find opening closing text := by
  have whole := find_take_append found (text.drop (closed + 1) ++ more)
  rwa [← List.append_assoc, List.take_append_drop] at whole

/-- A text without a block does not start with a text that has one. -/
theorem closing?_find_of_prefix {start : List α} (starts : start <+: text)
    (unclosed : (find opening closing text).closing? = none) :
    (find opening closing start).closing? = none := by
  obtain ⟨more, rfl⟩ := starts
  cases found : (find opening closing start).closing? with
  | none => rfl
  | some closed =>
      rw [find_append found, found] at unclosed
      contradiction

/-! ## The places of the delimiters -/

/-- The symbol at the place of an opening delimiter is that delimiter. -/
theorem getElem?_of_opening?_scan {opened : Nat}
    (found : (scan opening closing mode index depth first? text).opening? = some opened) :
    first? = some opened ∨ ∃ place, opened = index + place ∧ text[place]? = some opening := by
  induction text generalizing mode index depth first? with
  | nil => exact .inl found
  | cons a rest ih =>
      have first : firstWith opening mode index first? a = some opened →
          first? = some opened ∨
            ∃ place, opened = index + place ∧ (a :: rest)[place]? = some opening := by
        intro known
        refine (firstWith_eq_some known).imp_right ?_
        rintro ⟨-, opens, rfl⟩
        exact ⟨0, rfl, congrArg some opens⟩
      rw [scan_cons] at found
      split at found
      next => exact first found
      next =>
        rcases ih found with known | ⟨place, rfl, symbol⟩
        · exact first known
        · exact .inr ⟨place + 1, by omega, symbol⟩

/-- Where the delimiters differ, a block is opened in front of the place where it is
closed. -/
theorem opening?_lt_of_closing?_scan (distinct : opening ≠ closing)
    (known : ∀ opened ∈ first?, opened < index) (counted : 0 < depth → first?.isSome = true)
    (found : (scan opening closing mode index depth first? text).closing? = some closed) :
    ∃ opened, (scan opening closing mode index depth first? text).opening? = some opened ∧
      opened < closed := by
  induction text generalizing mode index depth first? with
  | nil => contradiction
  | cons a rest ih =>
      have first : 0 < countWith opening mode depth a →
          (firstWith opening mode index first? a).isSome = true := isSome_firstWith counted
      rw [scan_cons] at found ⊢
      split at found
      next ends =>
        rw [if_pos ends]
        obtain ⟨opened, opens⟩ := Option.isSome_iff_exists.1 (first (by omega))
        obtain rfl := Option.some.inj found
        refine ⟨opened, opens, ?_⟩
        rcases firstWith_eq_some opens with earlier | ⟨-, here, -⟩
        · exact known opened earlier
        · exact absurd (here.symm.trans ends.2.1) distinct
      next further =>
        rw [if_neg further]
        refine ih ?_ (fun positive => first ?_) found
        · intro opened member
          rcases firstWith_eq_some member with earlier | ⟨-, -, rfl⟩
          · exact Nat.lt_succ_of_lt (known opened earlier)
          · exact Nat.lt_succ_self opened
        · split at positive <;> omega

/-- A text whose block is closed has a place where it is opened, in front of that. -/
theorem exists_opening_of_closing?_find (distinct : opening ≠ closing)
    (found : (find opening closing text).closing? = some closed) :
    ∃ opened, (find opening closing text).opening? = some opened ∧ opened < closed ∧
      text[opened]? = some opening ∧ text[closed]? = some closing := by
  obtain ⟨opened, opens, before⟩ := opening?_lt_of_closing?_scan distinct
    (fun _ member => absurd member (Option.not_mem_none _))
    (fun positive => absurd positive (Int.lt_irrefl 0)) found
  rcases getElem?_of_opening?_scan opens with earlier | ⟨place, rfl, symbol⟩
  · contradiction
  · rw [Nat.zero_add] at opens before
    exact ⟨place, opens, before, symbol, getElem?_of_closing?_find found⟩

end ProviderMigration.Block.Balance
