import ProviderMigration.Block.Mode
import ProviderMigration.Text.Offset

/-!
# Balanced delimiters

The extent of a block is found by counting opening and closing delimiters in
code. The count starts at zero and may become negative, so a stray closing
delimiter in front of a block keeps the block from being closed.
-/

namespace ProviderMigration.Block

open Text

/-- Which delimiter of a block is missing. -/
inductive Side where
  | opening
  | closing
  deriving DecidableEq, Repr

/-- A keyword that announces a block, with a delimiter of the block missing. -/
structure Malformed where
  keyword : String
  side : Side
  deriving DecidableEq, Repr

/-- The half of a block that a message names. -/
def Side.word : Side → String
  | .opening => "start"
  | .closing => "end"

def Malformed.message (fault : Malformed) : String :=
  "`" ++ fault.keyword ++ "` detected, block " ++ fault.side.word ++ " not found"

/-- The places of the first opening delimiter and of the closing delimiter that
brings the count back to zero. -/
structure Balance where
  opening? : Option Nat
  closing? : Option Nat
  deriving DecidableEq, Repr

/-- Both places, or the first side that is missing. -/
def Balance.require (balance : Balance) (keyword : String) :
    Except Malformed (Nat × Nat) :=
  match balance.opening?, balance.closing? with
  | none, _ => .error ⟨keyword, .opening⟩
  | some _, none => .error ⟨keyword, .closing⟩
  | some opened, some closed => .ok (opened, closed)

namespace Balance

/-! ## Counting one symbol -/

section Count

variable {α : Type} [DecidableEq α]

/-- The first opening delimiter so far, with one more symbol read. -/
def firstWith (opening : α) (mode : Mode) (index : Nat) (first? : Option Nat) (a : α) :
    Option Nat :=
  if mode = .code ∧ a = opening then first? <|> some index else first?

/-- The count so far, with one more symbol read that may open. -/
def countWith (opening : α) (mode : Mode) (depth : Int) (a : α) : Int :=
  if mode = .code ∧ a = opening then depth + 1 else depth

variable {opening a : α} {mode : Mode} {index : Nat} {depth : Int} {first? : Option Nat}

/-- The first opening delimiter is an earlier one or the symbol that has been read. -/
theorem firstWith_eq_some {opened : Nat}
    (first : firstWith opening mode index first? a = some opened) :
    first? = some opened ∨ first? = none ∧ a = opening ∧ opened = index := by
  rw [firstWith] at first
  split at first
  next here =>
    cases first? with
    | some earlier => exact .inl first
    | none => exact .inr ⟨rfl, here.2, (Option.some.inj first).symm⟩
  next => exact .inl first

/-- While the count is positive, there is a first opening delimiter. -/
theorem isSome_firstWith (counted : 0 < depth → first?.isSome = true)
    (positive : 0 < countWith opening mode depth a) :
    (firstWith opening mode index first? a).isSome = true := by
  rw [firstWith]
  rw [countWith] at positive
  split
  next => simp
  next here =>
    rw [if_neg here] at positive
    exact counted positive

end Count

/-! ## Scanning a text -/

variable {α : Type} [Alphabet α] [DecidableEq α]

/-- The balance of a text whose first symbol has index `index`, when `depth` is
the count so far and `first?` the first opening delimiter so far. A symbol that
is both delimiters opens before it closes. -/
@[specialize] def scan (opening closing : α) (mode : Mode) (index : Nat)
    (depth : Int) (first? : Option Nat) : List α → Balance
  | [] => ⟨first?, none⟩
  | a :: rest =>
      let next := mode.step a rest.head?
      if mode = .code then
        let first? := if a = opening then first? <|> some index else first?
        let opened := if a = opening then depth + 1 else depth
        if a = closing then
          if opened = 1 then ⟨first?, some index⟩
          else scan opening closing next (index + 1) (opened - 1) first? rest
        else
          scan opening closing next (index + 1) opened first? rest
      else
        scan opening closing next (index + 1) depth first? rest

/-- A scan ends at a closing delimiter that brings the count back to zero, and goes on behind
every other symbol. -/
theorem scan_cons {opening closing : α} {mode : Mode} {index : Nat} {depth : Int}
    {first? : Option Nat} {a : α} {rest : List α} :
    scan opening closing mode index depth first? (a :: rest) =
      if mode = .code ∧ a = closing ∧ countWith opening mode depth a = 1 then
        ⟨firstWith opening mode index first? a, some index⟩
      else
        scan opening closing (mode.step a rest.head?) (index + 1)
          (if mode = .code ∧ a = closing then countWith opening mode depth a - 1
            else countWith opening mode depth a)
          (firstWith opening mode index first? a) rest := by
  rw [scan, firstWith, countWith]
  by_cases code : mode = .code
  · by_cases closes : a = closing
    · simp only [code, closes, true_and, if_true]
    · simp only [code, closes, true_and, false_and, if_true, if_false]
  · simp only [code, false_and, if_false]

/-- The balance of a whole text, which starts in code. -/
@[specialize] def find (opening closing : α) (text : List α) : Balance :=
  scan opening closing .code 0 0 none text

/-- The symbol at the place of a closing delimiter is that delimiter. -/
theorem getElem?_of_closing?_scan {opening closing : α} {mode : Mode} {index : Nat}
    {depth : Int} {first? : Option Nat} {text : List α} {closed : Nat}
    (found : (scan opening closing mode index depth first? text).closing? = some closed) :
    ∃ place, closed = index + place ∧ text[place]? = some closing := by
  induction text generalizing mode index depth first? with
  | nil => simp [scan] at found
  | cons a rest ih =>
      rw [scan_cons] at found
      split at found
      next ends => exact ⟨0, (Option.some.inj found).symm, congrArg some ends.2.1⟩
      next =>
        obtain ⟨place, rfl, symbol⟩ := ih found
        exact ⟨place + 1, by omega, by simpa using symbol⟩

/-- The closing delimiter of a text is one of its symbols. -/
theorem getElem?_of_closing?_find {opening closing : α} {text : List α} {closed : Nat}
    (found : (find opening closing text).closing? = some closed) :
    text[closed]? = some closing := by
  obtain ⟨place, rfl, symbol⟩ := getElem?_of_closing?_scan found
  simpa using symbol

/-- What `require` answers are the two places of the balance. -/
theorem require_eq_ok_iff {balance : Balance} {keyword : String} {opened closed : Nat} :
    balance.require keyword = .ok (opened, closed) ↔
      balance.opening? = some opened ∧ balance.closing? = some closed := by
  obtain ⟨opening?, closing?⟩ := balance
  cases opening? <;> cases closing? <;> simp [require]

/-- The balance of the braces of a text, with the places counted in bytes. -/
def ofBraces (text : List Char) : Balance :=
  find (symbol '{') (symbol '}') (utf8 text)

/-- The byte of a closing brace is the place of a brace of the text. -/
theorem exists_of_closing?_ofBraces {text : List Char} {closed : Nat}
    (found : (ofBraces text).closing? = some closed) :
    ∃ before after, text = before ++ '}' :: after ∧ byteSize before = closed := by
  obtain ⟨before, c, after, rfl, size, _, same⟩ :=
    exists_char_of_utf8_getElem? (getElem?_of_closing?_find found) (by decide)
  obtain rfl : c = '}' := Char.toNat_inj.1 (same.trans (by decide))
  exact ⟨before, after, rfl, size⟩

theorem takeBytes_closed (inner after : List Char) :
    takeBytes (byteSize inner + 1) (inner ++ '}' :: after) = inner ++ ['}'] := by
  have size : byteSize inner + 1 = byteSize (inner ++ ['}']) := by
    rw [byteSize_append]
    rfl
  have joined : inner ++ '}' :: after = (inner ++ ['}']) ++ after := by simp
  rw [size, joined, takeBytes_byteSize_append]

theorem dropBytes_closed (inner after : List Char) :
    dropBytes (byteSize inner + 1) (inner ++ '}' :: after) = after := by
  have joined := takeBytes_append_dropBytes (byteSize inner + 1) (inner ++ '}' :: after)
  have split : inner ++ '}' :: after = (inner ++ ['}']) ++ after := by simp
  rw [takeBytes_closed, split] at joined
  rw [split]
  exact List.append_cancel_left joined

/-- A block is cut off right behind the brace that closes it. -/
theorem exists_cut_of_closing?_ofBraces {text : List Char} {closed : Nat}
    (found : (ofBraces text).closing? = some closed) :
    ∃ inner after, text = inner ++ '}' :: after ∧
      takeBytes (closed + 1) text = inner ++ ['}'] ∧ dropBytes (closed + 1) text = after := by
  obtain ⟨inner, after, rfl, rfl⟩ := exists_of_closing?_ofBraces found
  exact ⟨inner, after, rfl, takeBytes_closed inner after, dropBytes_closed inner after⟩

end Balance

end ProviderMigration.Block
