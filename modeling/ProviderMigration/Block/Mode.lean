/-!
# Scanning modes

Braces count only in code: not in quoted strings, comments or `$`-brace
interpolations. A scan reads one symbol at a time and keeps the mode it is in;
one symbol of lookahead tells a comment or an interpolation from a lone slash or
dollar. The machine works over any alphabet that holds the ASCII characters, so
the same scan reads characters and the bytes of their UTF-8 form.
-/

namespace ProviderMigration.Block

/-- An alphabet with a symbol for every ASCII character. -/
class Alphabet (α : Type) where
  /-- The symbol of an ASCII character. -/
  symbol : Char → α

instance : Alphabet Char := ⟨id⟩

instance : Alphabet UInt8 := ⟨Char.toUInt8⟩

export Alphabet (symbol)

/-- Where in a text the scan stands. -/
inductive Mode where
  /-- Outside every string, comment and interpolation. -/
  | code
  /-- Inside a quoted string. -/
  | string
  /-- After a backslash inside a string. -/
  | escape
  /-- Inside a comment that ends with its line. -/
  | lineComment
  /-- Between the slash and the star that open a comment. -/
  | commentOpening
  /-- Inside a comment that ends with star and slash. -/
  | comment
  /-- After a star inside such a comment. -/
  | commentStar
  /-- Inside an interpolation, which ends with the next closing brace. -/
  | interpolation
  deriving DecidableEq, Repr

variable {α : Type} [Alphabet α] [DecidableEq α]

/-- The mode after the symbol `a`, when `next?` is the symbol that follows it. -/
@[specialize] def Mode.step (mode : Mode) (a : α) (next? : Option α) : Mode :=
  match mode with
  | .code =>
      if a = symbol '"' then .string
      else if a = symbol '#' then .lineComment
      else if a = symbol '/' ∧ next? = some (symbol '/') then .lineComment
      else if a = symbol '/' ∧ next? = some (symbol '*') then .commentOpening
      else if a = symbol '$' ∧ next? = some (symbol '{') then .interpolation
      else .code
  | .string =>
      if a = symbol '\\' then .escape
      else if a = symbol '"' then .code
      else .string
  | .escape => .string
  | .lineComment => if a = symbol '\n' then .code else .lineComment
  | .commentOpening => .comment
  | .comment => if a = symbol '*' then .commentStar else .comment
  | .commentStar =>
      if a = symbol '/' then .code
      else if a = symbol '*' then .commentStar
      else .comment
  | .interpolation => if a = symbol '}' then .code else .interpolation

end ProviderMigration.Block
