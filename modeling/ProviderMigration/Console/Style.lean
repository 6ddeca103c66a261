/-!
# Terminal styles

A styled text is led in by the escape sequences of its styles and led out by a
reset. Output that does not go to a terminal is plain.
-/

namespace ProviderMigration.Console

/-- Colours and attributes of a text. -/
inductive Style where
  | red
  | green
  | yellow
  | bold
  | dim
  deriving DecidableEq, Repr

/-- The parameter of the escape sequence that turns a style on. -/
def Style.parameter : Style → String
  | .red => "31"
  | .green => "32"
  | .yellow => "33"
  | .bold => "1"
  | .dim => "2"

/-- A text in the given styles, if there are any and styles are shown at all. -/
def paint (shown : Bool) (styles : List Style) (text : String) : String :=
  if shown && !styles.isEmpty then
    String.join (styles.map fun style => "\x1b[" ++ style.parameter ++ "m") ++ text ++ "\x1b[0m"
  else text

end ProviderMigration.Console
