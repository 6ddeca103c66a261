import Mathlib.Data.Bool.AllAny
import ProviderMigration.Block.Balance

/-!
# What follows a block

The balance of a text gives the place of the brace that closes its first block.
Proofs about several blocks speak of the text that follows that brace instead,
because it is the text in which the next block is looked for. A scan takes no
notice of symbols without a meaning, so it leaves the same remainder whether it
reads characters or the bytes of their UTF-8 form.
-/

namespace ProviderMigration.Block

open Text

/-! ## Symbols without a meaning -/

/-- The characters that mean something to a scan. -/
def meaningful : List Char := ['"', '#', '/', '$', '\\', '*', '\n', '\x7b', '\x7d']

variable {α : Type} [Alphabet α] [DecidableEq α]

/-- A symbol that means nothing to a scan. -/
def IsInert (a : α) : Prop := ∀ c ∈ meaningful, a ≠ symbol c

/-- The mode after a symbol that means nothing. -/
def Mode.pass : Mode → Mode
  | .escape => .string
  | .commentOpening => .comment
  | .commentStar => .comment
  | mode => mode

@[simp] theorem Mode.pass_pass (mode : Mode) : mode.pass.pass = mode.pass := by
  cases mode <;> rfl

theorem Mode.step_of_isInert {a : α} (inert : IsInert a) (mode : Mode) (next? : Option α) :
    mode.step a next? = mode.pass := by
  simp only [IsInert, meaningful, List.forall_mem_cons, List.not_mem_nil, false_implies,
    implies_true, and_true] at inert
  obtain ⟨quote, hash, slash, dollar, backslash, star, newline, -, closing⟩ := inert
  cases mode <;>
    simp [Mode.step, Mode.pass, quote, hash, slash, dollar, backslash, star, newline, closing]

/-- Two continuations that a scan cannot tell apart by looking one symbol ahead. -/
def SameAhead {β : Type} [Alphabet β] (next? : Option α) (other? : Option β) : Prop :=
  ∀ c ∈ ['/', '*', '\x7b'], next? = some (symbol c) ↔ other? = some (symbol c)

/-- A step depends on what its symbols mean only. -/
theorem Mode.step_congr {β : Type} [Alphabet β] [DecidableEq β] {a : α} {b : β}
    {next? : Option α} {other? : Option β} (same : ∀ c ∈ meaningful, a = symbol c ↔ b = symbol c)
    (ahead : SameAhead next? other?) (mode : Mode) : mode.step a next? = mode.step b other? := by
  simp only [meaningful, List.forall_mem_cons, List.not_mem_nil, false_implies,
    implies_true, and_true] at same
  obtain ⟨quote, hash, slash, dollar, backslash, star, newline, -, closing⟩ := same
  have slashAhead := ahead '/' (by decide)
  have starAhead := ahead '*' (by decide)
  have openingAhead := ahead '\x7b' (by decide)
  cases mode <;>
    simp only [Mode.step, quote, hash, slash, dollar, backslash, star, newline, closing,
      slashAhead, starAhead, openingAhead]

/-- Whether no character of a word means anything. -/
def isMeaningless (word : List Char) : Bool := word.all fun c => !meaningful.contains c

theorem isInert_of_isMeaningless {word : List Char} (meaningless : isMeaningless word = true) :
    ∀ c ∈ word, IsInert c := by
  intro c letter d listed same
  obtain rfl : c = d := same
  simpa [listed] using List.all_eq_true.1 meaningless c letter

/-! ## The remainder of a text -/

/-- What follows the brace that closes the first block of a text, when the count so
far is `depth`. -/
def remainder? (mode : Mode) (depth : Int) : List α → Option (List α)
  | [] => none
  | a :: rest =>
      let next := mode.step a rest.head?
      if mode = .code ∧ a = symbol '\x7d' then
        if depth = 1 then some rest else remainder? next (depth - 1) rest
      else
        remainder? next (if mode = .code ∧ a = symbol '\x7b' then depth + 1 else depth) rest

theorem remainder?_append_of_isInert {stretch : List α} (inert : ∀ a ∈ stretch, IsInert a)
    (nonempty : stretch ≠ []) (mode : Mode) (depth : Int) (rest : List α) :
    remainder? mode depth (stretch ++ rest) = remainder? mode.pass depth rest := by
  induction stretch generalizing mode with
  | nil => contradiction
  | cons a stretch ih =>
      have here := inert a List.mem_cons_self
      have opening : a ≠ symbol '\x7b' := here _ (by decide)
      have closing : a ≠ symbol '\x7d' := here _ (by decide)
      rw [List.cons_append, remainder?, Mode.step_of_isInert here]
      simp only [opening, closing, and_false, if_false]
      by_cases last : stretch = []
      · rw [last, List.nil_append]
      · rw [ih (fun b member => inert b (List.mem_cons_of_mem a member)) last, Mode.pass_pass]

/-- A remainder does not depend on what follows the block. -/
theorem remainder?_append {mode : Mode} {depth : Int} {text rest : List α}
    (found : remainder? mode depth text = some rest) (more : List α) :
    remainder? mode depth (text ++ more) = some (rest ++ more) := by
  induction text generalizing mode depth with
  | nil => simp [remainder?] at found
  | cons a text ih =>
      -- A text that ends here is not looked beyond, for nothing would be found in it.
      have ahead : ∀ depth, remainder? (mode.step a text.head?) depth text = some rest →
          remainder? (mode.step a (text ++ more).head?) depth (text ++ more) =
            some (rest ++ more) := by
        intro depth found
        cases text with
        | nil => simp [remainder?] at found
        | cons b text => exact ih found
      rw [remainder?] at found
      rw [List.cons_append, remainder?]
      by_cases closing : mode = .code ∧ a = symbol '\x7d'
      · rw [if_pos closing] at found ⊢
        by_cases balanced : depth = 1
        · rw [if_pos balanced] at found ⊢
          rw [Option.some.inj found]
        · rw [if_neg balanced] at found ⊢
          exact ahead _ found
      · rw [if_neg closing] at found ⊢
        exact ahead _ found

/-- A remainder follows a closing brace, up to which the text is a block of its own. -/
theorem exists_of_remainder? {mode : Mode} {depth : Int} {text rest : List α}
    (found : remainder? mode depth text = some rest) :
    ∃ inner, text = inner ++ symbol '\x7d' :: rest ∧
      remainder? mode depth (inner ++ [symbol '\x7d']) = some [] := by
  induction text generalizing mode depth with
  | nil => simp [remainder?] at found
  | cons a text ih =>
      have ahead : ∀ depth, remainder? (mode.step a text.head?) depth text = some rest →
          ∃ inner, text = inner ++ symbol '\x7d' :: rest ∧
            remainder? (mode.step a (inner ++ [symbol '\x7d']).head?) depth
              (inner ++ [symbol '\x7d']) = some [] := by
        intro depth found
        obtain ⟨inner, rfl, closed⟩ := ih found
        refine ⟨inner, rfl, ?_⟩
        cases inner with
        | nil => exact closed
        | cons b inner => exact closed
      rw [remainder?] at found
      by_cases closing : mode = .code ∧ a = symbol '\x7d'
      · by_cases balanced : depth = 1
        · rw [if_pos closing, if_pos balanced] at found
          obtain rfl := Option.some.inj found
          refine ⟨[], by rw [closing.2]; rfl, ?_⟩
          simp [remainder?, closing.1, balanced]
        · rw [if_pos closing, if_neg balanced] at found
          obtain ⟨inner, rfl, closed⟩ := ahead _ found
          refine ⟨a :: inner, rfl, ?_⟩
          rw [List.cons_append, remainder?, if_pos closing, if_neg balanced, closed]
      · rw [if_neg closing] at found
        obtain ⟨inner, rfl, closed⟩ := ahead _ found
        refine ⟨a :: inner, rfl, ?_⟩
        rw [List.cons_append, remainder?, if_neg closing, closed]

/-! ## Remainders and balances -/

namespace Balance

theorem closing?_scan (distinct : (symbol '\x7b' : α) ≠ symbol '\x7d') (mode : Mode) (index : Nat)
    (depth : Int) (first? : Option Nat) (text : List α) :
    (scan (symbol '\x7b') (symbol '\x7d') mode index depth first? text).closing? =
      (remainder? mode depth text).map fun rest => index + text.length - rest.length - 1 := by
  induction text generalizing mode index depth first? with
  | nil => rfl
  | cons a text ih =>
      have shift : ∀ rest : List α, index + 1 + text.length - rest.length - 1 =
          index + (a :: text).length - rest.length - 1 := by
        intro rest
        rw [List.length_cons]
        omega
      rw [scan, remainder?]
      by_cases code : mode = .code
      · by_cases closing : a = symbol '\x7d'
        · have single : a ≠ symbol '\x7b' := fun opening => distinct (opening.symm.trans closing)
          simp only [code, closing, true_and, if_true, if_neg (closing ▸ single)]
          split
          next =>
            rw [Option.map_some, List.length_cons, Option.some.injEq]
            omega
          next => simp only [ih, shift, closing]
        · simp only [code, closing, true_and, if_true, if_false, ih, shift]
      · simp only [code, false_and, if_false, ih, shift]

/-- A block that is closed has been opened. -/
theorem isSome_opening?_scan {opening closing : α} {mode : Mode} {index : Nat} {depth : Int}
    {first? : Option Nat} {text : List α} (counted : 0 < depth → first?.isSome = true)
    (closes : (scan opening closing mode index depth first? text).closing?.isSome = true) :
    (scan opening closing mode index depth first? text).opening?.isSome = true := by
  induction text generalizing mode index depth first? with
  | nil => contradiction
  | cons a text ih =>
      rw [scan_cons] at closes ⊢
      split at closes
      next ends =>
        rw [if_pos ends]
        exact isSome_firstWith counted (by omega)
      next further =>
        rw [if_neg further]
        refine ih (fun positive => isSome_firstWith counted ?_) closes
        split at positive <;> omega

end Balance

/-! ## Characters and bytes -/

theorem byte_eq_symbol_iff {c d : Char} (narrow : c.utf8Size = 1) (ascii : d.utf8Size = 1) :
    c.val.toUInt8 = symbol d ↔ c = symbol d := by
  have small := UInt32.le_iff_toNat_le.1 (Char.utf8Size_eq_one_iff.1 narrow)
  have bound := UInt32.le_iff_toNat_le.1 (Char.utf8Size_eq_one_iff.1 ascii)
  change c.val.toUInt8 = d.val.toUInt8 ↔ c = d
  rw [← UInt8.toNat_inj, ← Char.toNat_inj, UInt32.toNat_toUInt8, UInt32.toNat_toUInt8]
  rw [Nat.mod_eq_of_lt (Nat.lt_of_le_of_lt small (by decide)),
    Nat.mod_eq_of_lt (Nat.lt_of_le_of_lt bound (by decide))]
  rfl

theorem utf8Size_of_mem_meaningful : ∀ c ∈ meaningful, c.utf8Size = 1 :=
  List.all_iff_forall_prop.1 (by decide)

/-- The bytes of a character outside ASCII mean nothing. -/
theorem isInert_of_mem_utf8EncodeChar {c : Char} {b : UInt8} (wide : c.utf8Size ≠ 1)
    (member : b ∈ String.utf8EncodeChar c) : IsInert b := by
  have large := le_of_mem_utf8EncodeChar wide member
  have ascii : ∀ c ∈ meaningful, (symbol c : UInt8).toNat < 0x80 :=
    List.all_iff_forall_prop.1 (by decide)
  intro c listed same
  have small := ascii c listed
  rw [← same] at small
  omega

/-- A scan that looks one byte ahead sees what a scan sees that looks one
character ahead. -/
theorem sameAhead_utf8 (text : List Char) : SameAhead (utf8 text).head? text.head? := by
  intro d listed
  have known : ∀ d ∈ ['/', '*', '\x7b'], d ∈ meaningful := List.all_iff_forall_prop.1 (by decide)
  have meant := known d listed
  have ascii := utf8Size_of_mem_meaningful d meant
  cases text with
  | nil => simp [utf8]
  | cons c text =>
      by_cases narrow : c.utf8Size = 1
      · rw [utf8_cons, String.utf8EncodeChar_eq_singleton narrow, List.singleton_append,
          List.head?_cons, List.head?_cons, Option.some.injEq, Option.some.injEq,
          byte_eq_symbol_iff narrow ascii]
      · constructor
        · intro ahead
          rw [utf8_cons, List.head?_append] at ahead
          cases start : (String.utf8EncodeChar c).head? with
          | none => exact absurd (List.head?_eq_none_iff.1 start) String.utf8EncodeChar_ne_nil
          | some b =>
              rw [start, Option.some_or] at ahead
              exact absurd (Option.some.inj ahead)
                (isInert_of_mem_utf8EncodeChar narrow (List.mem_of_head? start) d meant)
        · rintro ahead
          obtain rfl := Option.some.inj ahead
          exact absurd ascii narrow

/-- A scan of the bytes of a text leaves the bytes of what a scan of its
characters leaves. -/
theorem remainder?_utf8 (mode : Mode) (depth : Int) (text : List Char) :
    remainder? mode depth (utf8 text) = (remainder? mode depth text).map utf8 := by
  induction text generalizing mode depth with
  | nil => rfl
  | cons c text ih =>
      by_cases narrow : c.utf8Size = 1
      · have same : ∀ d ∈ meaningful, c.val.toUInt8 = symbol d ↔ c = symbol d :=
          fun d listed => byte_eq_symbol_iff narrow (utf8Size_of_mem_meaningful d listed)
        rw [utf8_cons, String.utf8EncodeChar_eq_singleton narrow, List.singleton_append, remainder?,
          remainder?, Mode.step_congr same (sameAhead_utf8 text)]
        simp only [same '\x7b' (by decide), same '\x7d' (by decide), ih]
        split
        next =>
          split
          next => rfl
          next => rfl
        next => rfl
      · have inert : IsInert c := by
          intro d listed same
          exact narrow (same ▸ utf8Size_of_mem_meaningful d listed)
        have bytes : remainder? mode depth (utf8 (c :: text)) =
            remainder? mode.pass depth (utf8 text) := by
          rw [utf8_cons]
          apply remainder?_append_of_isInert
          · exact fun b member => isInert_of_mem_utf8EncodeChar narrow member
          · exact String.utf8EncodeChar_ne_nil
        have characters : remainder? mode depth ([c] ++ text) = remainder? mode.pass depth text :=
          remainder?_append_of_isInert (by simpa using inert) (List.cons_ne_nil c []) mode depth text
        rw [bytes, ih, ← characters]
        rfl

namespace Balance

/-- The place of the closing brace is the one in front of the remainder. -/
theorem closing?_ofBraces_eq_some_iff {text : List Char} {closed : Nat} :
    (ofBraces text).closing? = some closed ↔
      ∃ inner rest, text = inner ++ '\x7d' :: rest ∧ byteSize inner = closed ∧
        remainder? .code 0 text = some rest := by
  have places : (ofBraces text).closing? = (remainder? .code 0 text).map fun rest =>
      byteSize text - byteSize rest - 1 := by
    rw [ofBraces, find, closing?_scan (by decide), remainder?_utf8, Option.map_map]
    simp [Function.comp_def, length_utf8]
  have size : ∀ inner rest : List Char,
      byteSize (inner ++ '\x7d' :: rest) = byteSize inner + 1 + byteSize rest := by
    intro inner rest
    have brace : Char.utf8Size '\x7d' = 1 := by decide
    rw [byteSize_append, byteSize_cons, brace, Nat.add_assoc]
  rw [places, Option.map_eq_some_iff]
  constructor
  · rintro ⟨rest, found, rfl⟩
    obtain ⟨inner, split⟩ : ∃ inner, text = inner ++ '\x7d' :: rest := by
      obtain ⟨inner, split, -⟩ := exists_of_remainder? found
      exact ⟨inner, split⟩
    refine ⟨inner, rest, split, ?_, found⟩
    rw [split, size]
    omega
  · rintro ⟨inner, rest, rfl, rfl, found⟩
    refine ⟨rest, found, ?_⟩
    rw [size]
    omega

/-- A text whose braces close has the first opening brace too. -/
theorem exists_require_of_closing? {text : List Char} {closed : Nat}
    (closes : (ofBraces text).closing? = some closed) (keyword : String) :
    ∃ opened, (ofBraces text).require keyword = .ok (opened, closed) := by
  have opening := isSome_opening?_scan (fun positive => absurd positive (Int.lt_irrefl 0))
    (Option.isSome_of_eq_some closes)
  obtain ⟨opened, opens⟩ := Option.isSome_iff_exists.1 opening
  exact ⟨opened, require_eq_ok_iff.2 ⟨opens, closes⟩⟩

end Balance

end ProviderMigration.Block
