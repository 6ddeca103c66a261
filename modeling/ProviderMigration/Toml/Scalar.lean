import ProviderMigration.Toml.Value

/-!
# TOML scalars

Values without quotes or brackets: booleans, integers in four bases, floats, and
dates and times. Underscores may stand between digits. Of floats, dates and times
only the form matters here.
-/

namespace ProviderMigration.Toml.Scalar

/-- The characters of a scalar. -/
def isScalarChar (c : Char) : Bool :=
  c.isAlphanum || c = '_' || c = '+' || c = '-' || c = '.' || c = ':'

/-- Some digits without the underscores between them. There is at least one digit
on either side of an underscore. -/
def digits? (isDigit : Char → Bool) (text : List Char) : Option (List Char) :=
  go false text
where
  /-- Whether a digit has just been read. -/
  go (afterDigit : Bool) : List Char → Option (List Char)
    | [] => if afterDigit then some [] else none
    | c :: rest =>
        if isDigit c then (go true rest).map (c :: ·)
        else if c = '_' ∧ afterDigit then go false rest
        else none

/-- The value of a digit in any base. -/
def digitValue (c : Char) : Nat :=
  if c.isDigit then c.toNat - '0'.toNat
  else if 'a' ≤ c ∧ c ≤ 'f' then c.toNat - 'a'.toNat + 10
  else c.toNat - 'A'.toNat + 10

def isHexDigit (c : Char) : Bool :=
  c.isDigit || ('a' ≤ c && c ≤ 'f') || ('A' ≤ c && c ≤ 'F')

/-- The number that digits of a base stand for. -/
def number (base : Nat) (digits : List Char) : Nat :=
  digits.foldl (fun number c => base * number + digitValue c) 0

/-- A sign and what follows it. -/
def sign (text : List Char) : Int × List Char :=
  match text with
  | '-' :: rest => (-1, rest)
  | '+' :: rest => (1, rest)
  | rest => (1, rest)

/-- The digits of a decimal number, which does not start with a needless zero. -/
def decimal? (text : List Char) : Option (List Char) := do
  let digits ← digits? Char.isDigit text
  match digits with
  | '0' :: _ :: _ => none
  | digits => some digits

def integer? (text : List Char) : Option Int :=
  match text with
  | '0' :: 'x' :: rest => (digits? isHexDigit rest).map fun digits => number 16 digits
  | '0' :: 'o' :: rest =>
      (digits? (fun c => '0' ≤ c && c ≤ '7') rest).map fun digits => number 8 digits
  | '0' :: 'b' :: rest =>
      (digits? (fun c => c = '0' || c = '1') rest).map fun digits => number 2 digits
  | text =>
      let (sign, rest) := sign text
      (decimal? rest).map fun digits => sign * number 10 digits

/-- Integers are held in 128 bits, with or without a sign. -/
def integerFits (number : Int) : Bool :=
  -(Nat.pow 2 127 : Nat) ≤ number && number < (Nat.pow 2 128 : Nat)

/-- A decimal number with a point or an exponent, as its digits and the power of
ten that their last place stands for. An exponent may start with zeros. -/
def float? (text : List Char) : Option (List Char × Int) := do
  let isMark := fun c => c = 'e' || c = 'E'
  let mantissa := text.takeWhile (!isMark ·)
  let exponent := text.dropWhile (!isMark ·)
  let whole ← decimal? (mantissa.takeWhile (· ≠ '.'))
  let fraction ←
    match mantissa.dropWhile (· ≠ '.') with
    | [] => some []
    | _ :: fraction => digits? Char.isDigit fraction
  let power ←
    match exponent with
    | [] => if fraction.isEmpty then none else some 0
    | _ :: exponent =>
        let (sign, exponent) := sign exponent
        (digits? Char.isDigit exponent).map fun digits => sign * number 10 digits
  return (whole ++ fraction, power - fraction.length)

/-- The least number that floats of 64 bits round to infinity. -/
def floatBound : Nat := Nat.pow 2 1024 - Nat.pow 2 970

/-- Whether the number with some digits before a power of ten is a float of 64
bits. The powers are multiplied out only where the number of places leaves it
open. -/
def floatFits (digits : List Char) (power : Int) : Bool :=
  let digits := digits.dropWhile (· = '0')
  let places : Int := digits.length + power
  digits.isEmpty || places ≤ 308 ||
    (places ≤ 309 &&
      number 10 digits * Nat.pow 10 power.toNat < floatBound * Nat.pow 10 (-power).toNat)

def isFloat (text : List Char) : Bool :=
  let text := (sign text).2
  text = "inf".toList || text = "nan".toList ||
    match float? text with
    | some (digits, power) => floatFits digits power
    | none => false

/-- The number that exactly `count` digits stand for, and what follows them. -/
def fixed? (count : Nat) (text : List Char) : Option (Nat × List Char) :=
  let digits := text.take count
  if digits.length = count ∧ digits.all Char.isDigit then
    some (number 10 digits, text.drop count)
  else none

/-- What follows a character. -/
def after? (c : Char) : List Char → Option (List Char)
  | [] => none
  | d :: rest => if c = d then some rest else none

def daysOfMonth (year month : Nat) : Nat :=
  if month = 2 then
    if year % 4 = 0 ∧ (year % 100 ≠ 0 ∨ year % 400 = 0) then 29 else 28
  else if month = 4 ∨ month = 6 ∨ month = 9 ∨ month = 11 then 30
  else 31

/-- What follows a date. -/
def afterDate? (text : List Char) : Option (List Char) := do
  let (year, rest) ← fixed? 4 text
  let (month, rest) ← fixed? 2 (← after? '-' rest)
  let (day, rest) ← fixed? 2 (← after? '-' rest)
  if 1 ≤ month ∧ month ≤ 12 ∧ 1 ≤ day ∧ day ≤ daysOfMonth year month then some rest else none

/-- What follows a time of day. Seconds and their fraction may be missing. -/
def afterTime? (text : List Char) : Option (List Char) := do
  let (hour, rest) ← fixed? 2 text
  let (minute, rest) ← fixed? 2 (← after? ':' rest)
  if 23 < hour ∨ 59 < minute then none
  else
    match rest with
    | ':' :: rest =>
        let (second, rest) ← fixed? 2 rest
        if 60 < second then none
        else
          match rest with
          | '.' :: fraction =>
              if fraction.head?.any Char.isDigit then some (fraction.dropWhile Char.isDigit)
              else none
          | rest => some rest
    | rest => some rest

/-- Whether a text is an offset from universal time. -/
def isOffset (text : List Char) : Bool :=
  match text with
  | ['Z'] => true
  | ['z'] => true
  | sign :: rest =>
      (sign = '+' || sign = '-') &&
        (match fixed? 2 rest with
        | some (hour, ':' :: rest) =>
            (match fixed? 2 rest with
            | some (minute, []) => hour ≤ 23 && minute ≤ 59
            | _ => false)
        | _ => false)
  | [] => false

/-- Whether a text is a date, a time, or a date and a time with or without an
offset. -/
def isMoment (text : List Char) : Bool :=
  match afterDate? text with
  | some [] => true
  | some (mark :: rest) =>
      (mark = 'T' || mark = 't' || mark = ' ') &&
        (match afterTime? rest with
        | some [] => true
        | some offset => isOffset offset
        | none => false)
  | none =>
      match afterTime? text with
      | some rest => rest.isEmpty
      | none => false

/-- The value of a scalar. -/
def ofText? (text : List Char) : Option Value :=
  if text = "true".toList then some (.boolean true)
  else if text = "false".toList then some (.boolean false)
  else
    match integer? text with
    | some number => if integerFits number then some (.integer number) else none
    | none =>
        if isFloat text then some .float
        else if isMoment text then some .moment
        else none

/-- The scalar that a text starts with, and what follows it. A blank may stand
between a date and a time. -/
def read? (text : List Char) : Option (Value × List Char) := do
  let word := text.takeWhile isScalarChar
  let rest := text.drop word.length
  let (word, rest) :=
    match afterDate? word, rest with
    | some [], ' ' :: time =>
        let time := time.takeWhile isScalarChar
        if (afterTime? time).isSome then (word ++ ' ' :: time, rest.drop (time.length + 1))
        else (word, rest)
    | _, _ => (word, rest)
  return (← ofText? word, rest)

end ProviderMigration.Toml.Scalar
