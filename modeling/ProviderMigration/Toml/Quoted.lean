/-!
# TOML strings

A string stands between double quotes, where a backslash escapes, or between
single quotes, where nothing does. Either kind may be tripled, and may then span
lines. Up to two quotes may stand directly in front of three closing ones.

A string is written in the first form that can hold it as it is, and escaped
only when none can.
-/

namespace ProviderMigration.Toml.Quoted

/-- Control characters that no string holds unescaped. -/
def isControl (c : Char) : Bool :=
  (c.toNat < 0x20 && c ≠ '\t' && c ≠ '\n') || c.toNat = 0x7F

/-! ## Reading -/

/-- The number that some hexadecimal digits stand for. -/
def ofHex? (digits : List Char) : Option Nat :=
  digits.foldlM
    (fun number c =>
      if c.isDigit then some (16 * number + (c.toNat - '0'.toNat))
      else if 'a' ≤ c ∧ c ≤ 'f' then some (16 * number + (c.toNat - 'a'.toNat + 10))
      else if 'A' ≤ c ∧ c ≤ 'F' then some (16 * number + (c.toNat - 'A'.toNat + 10))
      else none)
    0

/-- The character with the code point that some digits stand for. -/
def charOfHex? (digits : List Char) : Option Char := do
  let code ← ofHex? digits
  if code.isValidChar then some (Char.ofNat code) else none

/-- The character that a letter behind a backslash stands for. -/
def ofEscape? (letter : Char) : Option Char :=
  match letter with
  | 'b' => some '\x08'
  | 't' => some '\t'
  | 'n' => some '\n'
  | 'f' => some '\x0c'
  | 'r' => some '\r'
  | 'e' => some '\x1b'
  | '"' => some '"'
  | '\\' => some '\\'
  | _ => none

/-- How a string in double quotes continues. -/
inductive Place where
  /-- As text. -/
  | text
  /-- Behind a backslash that ends a line, where blanks and line ends are left
  out. Until the line end has been read, nothing else may follow. -/
  | lineEnd (seen : Bool)
  deriving DecidableEq, Repr

/-- The content of a string in double quotes and what follows it. The text starts
behind the opening quotes, and `read` is what has been read of it, latest first. -/
def readBasic (multiline : Bool) (place : Place) (read : List Char) :
    List Char → Option (List Char × List Char)
  | [] => none
  | c :: rest =>
      match place with
      | .lineEnd seen =>
          if c = ' ' ∨ c = '\t' then readBasic multiline (.lineEnd seen) read rest
          else
            match c, rest with
            | '\n', rest => readBasic multiline (.lineEnd true) read rest
            | '\r', '\n' :: rest => readBasic multiline (.lineEnd true) read rest
            | c, rest => if seen then readText multiline read c rest else none
      | .text => readText multiline read c rest
where
  /-- Reads on when `c` is a character of the text. -/
  readText (multiline : Bool) (read : List Char) (c : Char) (rest : List Char) :
      Option (List Char × List Char) :=
    match c, rest with
    | '"', rest =>
        if !multiline then some (read.reverse, rest)
        else
          match rest with
          | '"' :: '"' :: '"' :: '"' :: rest => some (('"' :: '"' :: read).reverse, rest)
          | '"' :: '"' :: '"' :: rest => some (('"' :: read).reverse, rest)
          | '"' :: '"' :: rest => some (read.reverse, rest)
          | rest => readBasic multiline .text ('"' :: read) rest
    | '\\', 'x' :: a :: b :: rest => do
        readBasic multiline .text ((← charOfHex? [a, b]) :: read) rest
    | '\\', 'u' :: a :: b :: c :: d :: rest => do
        readBasic multiline .text ((← charOfHex? [a, b, c, d]) :: read) rest
    | '\\', 'U' :: a :: b :: c :: d :: e :: f :: g :: h :: rest => do
        readBasic multiline .text ((← charOfHex? [a, b, c, d, e, f, g, h]) :: read) rest
    | '\\', letter :: rest =>
        match ofEscape? letter with
        | some c => readBasic multiline .text (c :: read) rest
        | none =>
            if multiline then readBasic multiline (.lineEnd false) read (letter :: rest)
            else none
    | '\r', '\n' :: rest =>
        if multiline then readBasic multiline .text ('\n' :: '\r' :: read) rest else none
    | c, rest =>
        if isControl c ∨ (c = '\n' ∧ !multiline) then none
        else readBasic multiline .text (c :: read) rest

/-- The content of a string in single quotes and what follows it. The text starts
behind the opening quotes, and `read` is what has been read of it, latest first. -/
def readLiteral (multiline : Bool) (read : List Char) :
    List Char → Option (List Char × List Char)
  | [] => none
  | '\'' :: rest =>
      if !multiline then some (read.reverse, rest)
      else
        match rest with
        | '\'' :: '\'' :: '\'' :: '\'' :: rest => some (('\'' :: '\'' :: read).reverse, rest)
        | '\'' :: '\'' :: '\'' :: rest => some (('\'' :: read).reverse, rest)
        | '\'' :: '\'' :: rest => some (read.reverse, rest)
        | rest => readLiteral multiline ('\'' :: read) rest
  | '\r' :: '\n' :: rest =>
      if multiline then readLiteral multiline ('\n' :: '\r' :: read) rest else none
  | c :: rest =>
      if isControl c ∨ (c = '\n' ∧ !multiline) then none
      else readLiteral multiline (c :: read) rest

/-- A text without the line end that it may start with. -/
def withoutFirstEnd : List Char → List Char
  | '\n' :: rest => rest
  | '\r' :: '\n' :: rest => rest
  | text => text

/-- The content of the string that a text starts with, and what follows it. -/
def read? (text : List Char) : Option (List Char × List Char) :=
  match text with
  | '"' :: '"' :: '"' :: rest => readBasic true .text [] (withoutFirstEnd rest)
  | '\'' :: '\'' :: '\'' :: rest => readLiteral true [] (withoutFirstEnd rest)
  | text => readLine? text
where
  /-- Strings that do not span lines. -/
  readLine? : List Char → Option (List Char × List Char)
    | '"' :: rest => readBasic false .text [] rest
    | '\'' :: rest => readLiteral false [] rest
    | _ => none

/-! ## Writing -/

/-- The length of the longest run of a character. -/
def longestRun (c : Char) (text : List Char) : Nat :=
  (text.foldl
    (fun (run : Nat × Nat) d =>
      if d = c then (run.1 + 1, max run.2 (run.1 + 1)) else (0, run.2))
    (0, 0)).2

/-- The four hexadecimal digits of a number below `0x10000`, in upper case. -/
def hexDigits (number : Nat) : List Char :=
  [number / 4096, number / 256, number / 16, number].map fun n =>
    let digit := n % 16
    Char.ofNat (if digit < 10 then '0'.toNat + digit else 'A'.toNat + (digit - 10))

/-- A character as it is written when it must not stand as it is. -/
def escaped (c : Char) : List Char :=
  match c with
  | '\x08' => ['\\', 'b']
  | '\t' => ['\\', 't']
  | '\n' => ['\\', 'n']
  | '\x0c' => ['\\', 'f']
  | '\r' => ['\\', 'r']
  | '"' => ['\\', '"']
  | '\\' => ['\\', '\\']
  | c => '\\' :: 'u' :: hexDigits c.toNat

/-- The content of a string in double quotes. Line ends stand as they are in
tripled quotes, and so do up to two quotes in a row, of which `quotes` have been
written. -/
def escape (multiline : Bool) (quotes : Nat) : List Char → List Char
  | [] => []
  | c :: rest =>
      if c = '"' then
        if multiline ∧ quotes < 2 then c :: escape multiline (quotes + 1) rest
        else escaped c ++ escape multiline 0 rest
      else if (c = '\n' ∧ !multiline) ∨ c = '\t' ∨ c = '\\' ∨ isControl c then
        escaped c ++ escape multiline 0 rest
      else c :: escape multiline 0 rest

/-- A text between three quotes. A text that spans lines starts on a line of its
own. -/
def tripled (quote : Char) (text content : List Char) : List Char :=
  let quotes := [quote, quote, quote]
  quotes ++ (if text.contains '\n' then ['\n'] else []) ++ content ++ quotes

/-- The string with the given content. -/
def write (text : List Char) : List Char :=
  let control := text.any isControl
  let backslash := text.contains '\\'
  let spansLines := text.contains '\n'
  if !control && !backslash && !text.contains '"' && !spansLines then
    '"' :: escape false 0 text ++ ['"']
  else if !control && !text.contains '\'' && !spansLines then '\'' :: text ++ ['\'']
  else if !control && !backslash && longestRun '"' text ≤ 2 then
    tripled '"' text (escape true 0 text)
  else if !control && longestRun '\'' text ≤ 2 then tripled '\'' text text
  else if spansLines then tripled '"' text (escape true 0 text)
  else '"' :: escape false 0 text ++ ['"']

end ProviderMigration.Toml.Quoted
